import FlowShader.EGraph.Saturate
import FlowShader.Proofs.EGraph.Rule
import FlowShader.Proofs.EGraph.Sound

namespace FlowShader.EGraph

variable {L : Type} [Literal L] {ρ : Valuation L ℝ} {ν : Nat → ℝ} {g : EGraph L}

section Members

theorem Sound.entries (h : Sound ρ ν g) : ∀ entry ∈ g.entries, Fact ρ ν g.leader.size entry :=
  fun entry he => h.nodes entry (Array.mem_filter.1 he).1

theorem mem_members {i : Nat} {n : Node L} (hn : n ∈ g.members.getD i #[]) : (n, i) ∈ g.entries := by
  have hfold (entries : List (Node L × Nat)) (found : Array (Array (Node L)))
      (h : n ∈ (entries.foldl (fun found (entry : Node L × Nat) => found.modify entry.2 (·.push entry.1)) found).getD
        i #[]) : (n, i) ∈ entries ∨ n ∈ found.getD i #[] := by
    induction entries generalizing found with
    | nil => exact .inr h
    | cons entry entries ih =>
        rcases ih _ h with h | h
        · exact .inl (by simp [h])
        · rcases getD_modify found entry.2 i (·.push entry.1) #[] with heq | ⟨rfl, heq⟩
          · exact .inr (heq ▸ h)
          · rw [heq, Array.mem_push] at h
            rcases h with h | rfl
            · exact .inr h
            · exact .inl (by simp)
  unfold members at hn
  rw [← Array.foldl_toList] at hn
  rcases hfold _ _ hn with h | h
  · simpa using h
  · simp [Array.getD_eq_getD_getElem?, Array.getElem?_replicate] at h
    split at h <;> simp at h

end Members

def assigned (ρ : Valuation L ℝ) (ν : Nat → ℝ) (σ : Assignment) : Valuation L ℝ :=
  ⟨ρ.literal, fun v => (σ.get? v).map ν⟩

def Assignment.Below (σ : Assignment) (size : Nat) : Prop := ∀ v i, σ.get? v = some i → i < size

section Match

theorem Sound.find? (h : Sound ρ ν g) {n : Node L} {i : Nat} (hn : g.find? n = some i) :
    (n.map ν).HasValue ρ (ν i) := by
  obtain ⟨j, hj, rfl⟩ := Option.map_eq_some_iff.1 hn
  rw [h.root, ← h.map_canonical]
  exact (h.table _ _ hj).value

theorem hasValue_assigned_mono {σ σ' : Assignment} {p : Expr L} {x : ℝ}
    (hσ : ∀ v k, σ.get? v = some k → σ'.get? v = some k) (hp : p.HasValue (assigned ρ ν σ) x) :
    p.HasValue (assigned ρ ν σ') x := by
  refine hp.mono rfl fun v _ z hz => ?_
  obtain ⟨k, hk, rfl⟩ := Option.map_eq_some_iff.1 hz
  exact Option.map_eq_some_iff.2 ⟨k, hσ v k hk, rfl⟩

/-- What finding a pattern in a class says about the graph, variable by variable and node by node. -/
inductive Matches (g : EGraph L) (members : Array (Array (Node L))) : Expr L → Nat → Assignment → Assignment → Prop
  | literal {x : L} {i : Nat} {σ : Assignment} : g.find? (.literal x) = some i → Matches g members (.literal x) i σ σ
  | constant {c : Constant} {i : Nat} {σ : Assignment} :
      g.find? (.constant c) = some i → Matches g members (.constant c) i σ σ
  | known {v : String} {i : Nat} {σ : Assignment} : σ.get? v = some i → Matches g members (.var v) i σ σ
  | new {v : String} {i : Nat} {σ : Assignment} : σ.get? v = none → Matches g members (.var v) i σ ((v, i) :: σ)
  | call {f : Func} {p : Expr L} {i a : Nat} {σ σ' : Assignment} :
      .call f a ∈ members.getD i #[] → Matches g members p a σ σ' → Matches g members (.call f p) i σ σ'
  | call₂ {f : BiFunc} {p q : Expr L} {i a b : Nat} {σ τ σ' : Assignment} :
      .call₂ f a b ∈ members.getD i #[] → Matches g members p a σ τ → Matches g members q b τ σ' →
      Matches g members (.call₂ f p q) i σ σ'
  | op {o : Operator} {p q : Expr L} {i a b : Nat} {σ τ σ' : Assignment} :
      .op o a b ∈ members.getD i #[] → Matches g members p a σ τ → Matches g members q b τ σ' →
      Matches g members (.op o p q) i σ σ'

theorem matches_of_mem_matchClass {members : Array (Array (Node L))} {p : Expr L} {i : Nat} {σ σ' : Assignment}
    (hmem : σ' ∈ g.matchClass members p i σ) : Matches g members p i σ σ' := by
  induction p generalizing i σ σ' with
  | literal x =>
      obtain ⟨hfind, hσ⟩ := List.mem_ite_nil_right.1 hmem
      obtain rfl := List.mem_singleton.1 hσ
      exact .literal (eq_of_beq hfind)
  | constant c =>
      obtain ⟨hfind, hσ⟩ := List.mem_ite_nil_right.1 hmem
      obtain rfl := List.mem_singleton.1 hσ
      exact .constant (eq_of_beq hfind)
  | var v =>
      unfold EGraph.matchClass EGraph.instances at hmem
      split at hmem
      · next j hj =>
          obtain ⟨rfl, hσ⟩ := List.mem_ite_nil_right.1 hmem
          obtain rfl := List.mem_singleton.1 hσ
          exact .known hj
      · next hv =>
          obtain rfl := List.mem_singleton.1 hmem
          exact .new hv
  | call f p ih =>
      obtain ⟨n, hn, hnode⟩ := List.mem_flatMap.1 hmem
      split at hnode
      · obtain ⟨hf, hp⟩ := List.mem_ite_nil_right.1 hnode
        obtain rfl := eq_of_beq hf
        exact .call (Array.mem_toList_iff.1 hn) (ih hp)
      · exact absurd hnode List.not_mem_nil
  | call₂ f p q ihp ihq =>
      obtain ⟨n, hn, hnode⟩ := List.mem_flatMap.1 hmem
      split at hnode
      · obtain ⟨hf, hpq⟩ := List.mem_ite_nil_right.1 hnode
        obtain rfl := eq_of_beq hf
        obtain ⟨τ, hp, hq⟩ := List.mem_flatMap.1 hpq
        exact .call₂ (Array.mem_toList_iff.1 hn) (ihp hp) (ihq hq)
      · exact absurd hnode List.not_mem_nil
  | op o p q ihp ihq =>
      obtain ⟨n, hn, hnode⟩ := List.mem_flatMap.1 hmem
      split at hnode
      · obtain ⟨ho, hpq⟩ := List.mem_ite_nil_right.1 hnode
        obtain rfl := eq_of_beq ho
        obtain ⟨τ, hp, hq⟩ := List.mem_flatMap.1 hpq
        exact .op (Array.mem_toList_iff.1 hn) (ihp hp) (ihq hq)
      · exact absurd hnode List.not_mem_nil

theorem get?_cons (v : String) (i : Nat) (σ : Assignment) (w : String) :
    Assignment.get? ((v, i) :: σ) w = if v = w then some i else σ.get? w := by
  simp [Assignment.get?]

theorem Matches.extends {members : Array (Array (Node L))} {p : Expr L} {i : Nat} {σ σ' : Assignment}
    (h : Matches g members p i σ σ') : ∀ v k, σ.get? v = some k → σ'.get? v = some k := by
  induction h with
  | literal _ | constant _ | known _ => exact fun _ _ hk => hk
  | @new v i σ hv =>
      intro w k hk
      rw [get?_cons, if_neg, hk]
      rintro rfl
      rw [hv] at hk
      cases hk
  | call _ _ ih => exact ih
  | call₂ _ _ _ ihp ihq | op _ _ _ ihp ihq => exact fun v k hk => ihq v k (ihp v k hk)

theorem Matches.assigns_below (hentries : ∀ entry ∈ g.entries, ∀ k ∈ entry.1.parts, k < g.leader.size)
    {p : Expr L} {i : Nat} {σ σ' : Assignment} (hmatch : Matches g g.members p i σ σ') (hi : i < g.leader.size)
    (hσ : Assignment.Below σ g.leader.size) : Assignment.Below σ' g.leader.size := by
  induction hmatch with
  | literal _ | constant _ | known _ => exact hσ
  | new _ =>
      intro w k hk
      rw [get?_cons] at hk
      split at hk
      · exact Option.some.inj hk ▸ hi
      · exact hσ w k hk
  | call hn _ ih => exact ih (hentries _ (mem_members hn) _ List.mem_cons_self) hσ
  | call₂ hn _ _ ihp ihq | op hn _ _ ihp ihq =>
      have hparts := hentries _ (mem_members hn)
      exact ihq (hparts _ (List.mem_cons_of_mem _ List.mem_cons_self)) (ihp (hparts _ List.mem_cons_self) hσ)

theorem Matches.hasValue (h : Sound ρ ν g) {p : Expr L} {i : Nat} {σ σ' : Assignment}
    (hmatch : Matches g g.members p i σ σ') : p.HasValue (assigned ρ ν σ') (ν i) := by
  induction hmatch with
  | literal hfind =>
      obtain ⟨hx, heq⟩ := h.find? hfind
      exact heq ▸ .literal hx
  | @constant c i σ hfind =>
      have heq : ν i = c.value := h.find? hfind
      exact heq ▸ .constant
  | known hv => exact .var (by simp [assigned, hv])
  | new _ => exact .var (by simp [assigned, get?_cons])
  | call hn _ ih =>
      obtain ⟨hdom, heq⟩ := (h.entries _ (mem_members hn)).value
      exact heq ▸ .call ih hdom
  | @call₂ f p q i a b σ τ σ' hn _ hq ihp ihq =>
      have heq : ν i = f.apply (ν a) (ν b) := (h.entries _ (mem_members hn)).value
      exact heq ▸ .call₂ (hasValue_assigned_mono hq.extends ihp) ihq
  | op hn _ hq ihp ihq =>
      obtain ⟨hdom, heq⟩ := (h.entries _ (mem_members hn)).value
      exact heq ▸ .op (hasValue_assigned_mono hq.extends ihp) ihq hdom

end Match

section Apply

/-- A match of a rule, for the values of the classes. -/
structure Found (ρ : Valuation L ℝ) (ν : Nat → ℝ) (size : Nat) (rule : Rule L) (found : Nat × Assignment) :
    Prop where
  lt : found.1 < size
  below : Assignment.Below found.2 size
  value : rule.lhs.HasValue (assigned ρ ν found.2) (ν found.1)

variable {rule : Rule L} {found : Nat × Assignment}

theorem Found.mono {m n : Nat} {ν' : Nat → ℝ} (h : Found ρ ν m rule found) (hext : Extends m n ν ν') :
    Found ρ ν' n rule found := by
  refine ⟨h.lt.trans_le hext.le, fun v i hi => (h.below v i hi).trans_le hext.le, ?_⟩
  rw [hext.agree _ h.lt]
  refine h.value.mono rfl fun v _ z hz => ?_
  obtain ⟨k, hk, rfl⟩ := Option.map_eq_some_iff.1 hz
  exact Option.map_eq_some_iff.2 ⟨k, hk, hext.agree k (h.below v k hk)⟩

theorem Sound.meets (h : Sound ρ ν g) (hexact : Literal.Exact ρ.literal) {σ : Assignment} {condition : Condition}
    (hc : g.holds σ condition = true) : condition.Meets fun v => ((σ.get? v).map ν).getD 0 := by
  cases condition with
  | known vars | nonzero v => trivial
  | whole vars =>
      intro v hv
      have hany := List.all_eq_true.1 hc v hv
      obtain ⟨x, hx, hwhole⟩ := (Option.any_eq_true _ _).1 hany
      obtain ⟨i, hi, hvalue⟩ := Option.bind_eq_some_iff.1 hx
      obtain ⟨n, hn⟩ := hexact.whole x hwhole
      exact ⟨n, by simp [hi, ← (h.value? hvalue).2, hn]⟩

/-- The right-hand side of a rule has the value of the class in which the left-hand side was found. -/
theorem Found.rhs {size : Nat} (h : Found ρ ν size rule found) (hsound : rule.Sound ρ.literal)
    (hnames : ∀ v ∈ rule.rhs.names, v ∈ rule.lhs.names)
    (hmeets : rule.condition.Meets fun v => ((found.2.get? v).map ν).getD 0) :
    rule.rhs.HasValue (withClasses ρ ν found.2.get?) (ν found.1) := by
  have hlhs : rule.lhs.HasValue ⟨ρ.literal, fun v => some (((found.2.get? v).map ν).getD 0)⟩ (ν found.1) := by
    refine h.value.mono rfl fun v _ z hz => ?_
    have hz : (found.2.get? v).map ν = some z := hz
    simp [hz]
  obtain ⟨hproper, hnumber⟩ := (Expr.hasValue_iff _ _).1 hlhs
  obtain ⟨hproper', hnumber'⟩ := hsound _ hmeets hproper
  have hrhs := (Expr.hasValue_iff rule.rhs (ν found.1)).2 ⟨hproper', hnumber'.trans hnumber⟩
  refine hrhs.mono rfl fun v hv z hz => ?_
  obtain ⟨y, hy⟩ := h.value.bound v (hnames v hv)
  have hy : (found.2.get? v).map ν = some y := hy
  obtain rfl : y = z := by simpa [hy] using hz
  simp [withClasses, hy]

variable [LawfulBEq L]

theorem Sound.applyMatch (h : Sound ρ ν g) (hexact : Literal.Exact ρ.literal) (hsound : rule.Sound ρ.literal)
    (hnames : ∀ v ∈ rule.rhs.names, v ∈ rule.lhs.names) (hfound : Found ρ ν g.leader.size rule found)
    (changed : Bool) : Becomes ρ ν g (applyMatch rule (g, changed) found).1 := by
  obtain ⟨i, σ⟩ := found
  unfold EGraph.applyMatch
  dsimp only
  split
  · next hc =>
    have hrhs := hfound.rhs hsound hnames (h.meets hexact hc)
    obtain ⟨ν', h', hext, hj, hvalue⟩ := h.addExpr hexact hfound.below hrhs
    split
    · exact ⟨ν', h', hext⟩
    · have hi : i < _ := hfound.lt.trans_le hext.le
      have heq : ν' i = ν' (g.addExpr σ.get? rule.rhs).1 := by rw [hvalue, hext.agree i hfound.lt]
      refine ⟨ν', h'.union hi hj heq, ?_⟩
      rw [size_union]
      exact hext
  · exact h.becomes

end Apply

/-- Graphs that come from rounds in which any matches of the rules are applied, in any order. -/
inductive Explores (rules : List (Rule L)) (g : EGraph L) : EGraph L → Prop
  | start : Explores rules g g
  | round {g' : EGraph L} (chosen : List (Rule L × Nat × Assignment)) : Explores rules g g' →
      (∀ m ∈ chosen, m.1 ∈ rules ∧ m.2.1 < g'.leader.size ∧ m.2.2 ∈ g'.matchClass g'.members m.1.lhs m.2.1 []) →
      Explores rules g (chosen.foldl (fun g m => (applyMatch m.1 (g, false) m.2).1) g').rebuild

section Explore

variable [LawfulBEq L] {rules : List (Rule L)}

theorem Sound.applyChosen (h : Sound ρ ν g) (hexact : Literal.Exact ρ.literal)
    (hsound : ∀ r ∈ rules, r.Sound ρ.literal) (hnames : ∀ r ∈ rules, ∀ v ∈ r.rhs.names, v ∈ r.lhs.names)
    {chosen : List (Rule L × Nat × Assignment)}
    (hchosen : ∀ m ∈ chosen, m.1 ∈ rules ∧ Found ρ ν g.leader.size m.1 m.2) :
    Becomes ρ ν g (chosen.foldl (fun g m => (EGraph.applyMatch m.1 (g, false) m.2).1) g) := by
  induction chosen generalizing g ν with
  | nil => exact h.becomes
  | cons m chosen ih =>
      obtain ⟨hrule, hfound⟩ := hchosen m (by simp)
      obtain ⟨ν', h', hext⟩ := h.applyMatch hexact (hsound _ hrule) (hnames _ hrule) hfound false
      obtain ⟨ν'', h'', hext'⟩ := ih h' fun m' hm' =>
        ⟨(hchosen m' (by simp [hm'])).1, (hchosen m' (by simp [hm'])).2.mono hext⟩
      exact ⟨ν'', h'', hext.trans hext'⟩

theorem Explores.sound {g' : EGraph L} (hg : Explores rules g g') (h : Sound ρ ν g)
    (hexact : Literal.Exact ρ.literal) (hsound : ∀ r ∈ rules, r.Sound ρ.literal)
    (hnames : ∀ r ∈ rules, ∀ v ∈ r.rhs.names, v ∈ r.lhs.names) : Becomes ρ ν g g' := by
  induction hg with
  | start => exact h.becomes
  | @round g' chosen _ hchosen ih =>
      obtain ⟨ν', h', hext⟩ := ih
      have hfound : ∀ m ∈ chosen, m.1 ∈ rules ∧ Found ρ ν' g'.leader.size m.1 m.2 := by
        intro m hm
        obtain ⟨hrule, hlt, hmatch⟩ := hchosen m hm
        have hmatches := matches_of_mem_matchClass hmatch
        have hnil : Assignment.Below [] g'.leader.size := by simp [Assignment.Below, Assignment.get?]
        exact ⟨hrule, hlt, hmatches.assigns_below (fun entry he => (h'.entries entry he).parts) hlt hnil, hmatches.hasValue h'⟩
      obtain ⟨ν'', h'', hext'⟩ := h'.applyChosen hexact hsound hnames hfound
      obtain ⟨ν₃, h₃, hext₃⟩ := h''.rebuild hexact
      exact ⟨ν₃, h₃, (hext.trans hext').trans hext₃⟩

end Explore

section Saturate

theorem mem_foldl {α β : Type} {step : Array β → α → Array β} {P : α → Prop} {b : β}
    (hstep : ∀ acc a, b ∈ step acc a → b ∈ acc ∨ P a) {l : List α} {acc : Array β}
    (h : b ∈ l.foldl step acc) : b ∈ acc ∨ ∃ a ∈ l, P a := by
  induction l generalizing acc with
  | nil => exact .inl h
  | cons a l ih =>
      rcases ih h with h | ⟨a', ha', h⟩
      · rcases hstep acc a h with h | h
        · exact .inl h
        · exact .inr ⟨a, by simp, h⟩
      · exact .inr ⟨a', by simp [ha'], h⟩

theorem mem_occurrences {members : Array (Array (Node L))} {limit : Nat} {p : Expr L} {found : Nat × Assignment}
    (h : found ∈ g.occurrences members limit p) :
    found.1 < members.size ∧ found.2 ∈ g.matchClass members p found.1 [] := by
  have hclass (acc : Array (Nat × Assignment)) (i : Nat)
      (h : found ∈ if limit < acc.size then acc
        else (g.matchClass members p i []).foldl (fun acc σ => acc.push (i, σ)) acc) :
      found ∈ acc ∨ found.1 = i ∧ found.2 ∈ g.matchClass members p i [] := by
    split at h
    · exact .inl h
    · have hpush (acc : Array (Nat × Assignment)) (σ : Assignment) (h : found ∈ acc.push (i, σ)) :
          found ∈ acc ∨ found = (i, σ) := Array.mem_push.1 h
      rcases mem_foldl hpush h with h | ⟨σ, hσ, rfl⟩
      · exact .inl h
      · exact .inr ⟨rfl, hσ⟩
  rcases mem_foldl hclass h with h | ⟨i, hi, rfl, h⟩
  · simp at h
  · exact ⟨List.mem_range.1 hi, h⟩

theorem size_members (g : EGraph L) : g.members.size = g.leader.size := by
  have hfold (entries : List (Node L × Nat)) (found : Array (Array (Node L))) :
      (entries.foldl (fun found (entry : Node L × Nat) => found.modify entry.2 (·.push entry.1)) found).size =
        found.size := by
    induction entries generalizing found with
    | nil => rfl
    | cons entry entries ih => exact (ih _).trans (Array.size_modify ..)
  unfold members
  rw [← Array.foldl_toList]
  exact (hfold _ _).trans (by simp)

variable {effort : Effort} {rules : List (Rule L)}

theorem applyMatch_fst (rule : Rule L) (g : EGraph L) (changed : Bool) (found : Nat × Assignment) :
    (applyMatch rule (g, changed) found).1 = (applyMatch rule (g, false) found).1 := by
  unfold applyMatch
  dsimp only
  split
  · split <;> rfl
  · rfl

theorem foldl_applyMatch (rule : Rule L) (found : List (Nat × Assignment)) (state : EGraph L × Bool) :
    (found.foldl (applyMatch rule) state).1 =
      (found.map (rule, ·)).foldl (fun g m => (applyMatch m.1 (g, false) m.2).1) state.1 := by
  induction found generalizing state with
  | nil => rfl
  | cons m found ih =>
      rw [List.foldl_cons, ih, applyMatch_fst rule state.1 state.2 m]
      rfl

/-- Applying rules until the graph is too large applies some of the matches. -/
theorem exists_applyAll (effort : Effort) (searched : List (Rule L × Array (Nat × Assignment)))
    (state : EGraph L × Bool) :
    ∃ chosen : List (Rule L × Nat × Assignment),
      (∀ m ∈ chosen, ∃ found, (m.1, found) ∈ searched ∧ m.2 ∈ found) ∧
      (applyAll effort searched state).1 = chosen.foldl (fun g m => (applyMatch m.1 (g, false) m.2).1) state.1 := by
  induction searched generalizing state with
  | nil => exact ⟨[], by simp, rfl⟩
  | cons entry rest ih =>
      obtain ⟨rule, found⟩ := entry
      have hfirst : (found.foldl (applyMatch rule) state).1 =
          (found.toList.map (rule, ·)).foldl (fun g m => (applyMatch m.1 (g, false) m.2).1) state.1 := by
        rw [← Array.foldl_toList, foldl_applyMatch]
      have hmem : ∀ m ∈ found.toList.map (rule, ·), ∃ found', (m.1, found') ∈ (rule, found) :: rest ∧ m.2 ∈ found' := by
        simp only [List.mem_map]
        rintro _ ⟨m, hm, rfl⟩
        exact ⟨found, by simp, by simpa using hm⟩
      unfold applyAll
      dsimp only
      split
      · exact ⟨_, hmem, hfirst⟩
      · obtain ⟨chosen, hchosen, heq⟩ := ih (found.foldl (applyMatch rule) state)
        refine ⟨found.toList.map (rule, ·) ++ chosen, fun m hm => ?_, ?_⟩
        · rcases List.mem_append.1 hm with hm | hm
          · exact hmem m hm
          · obtain ⟨found', hfound', hm⟩ := hchosen m hm
            exact ⟨found', by simp [hfound'], hm⟩
        · rw [List.foldl_append, ← hfirst]
          exact heq

theorem mem_search {k : Nat} {rule : Rule L} {s : Suspension} {m : Nat × Assignment}
    {members : Array (Array (Node L))} (h : m ∈ (g.search effort k members rule s).1) :
    m.1 < members.size ∧ m.2 ∈ g.matchClass members rule.lhs m.1 [] := by
  unfold search at h
  split at h
  · simp at h
  · dsimp only at h
    split at h
    · simp at h
    · exact mem_occurrences h

theorem mem_zip_zipWith {α β γ δ : Type} {f : α → β → γ} {h : γ → δ} {l : List α} {l' : List β} {a : α} {d : δ}
    (hmem : (a, d) ∈ l.zip ((l.zipWith f l').map h)) : a ∈ l ∧ ∃ b, d = h (f a b) := by
  induction l generalizing l' with
  | nil => simp at hmem
  | cons a' l ih =>
      cases l' with
      | nil => simp at hmem
      | cons b l' =>
          rcases List.mem_cons.1 hmem with heq | hmem
          · obtain ⟨rfl, rfl⟩ := Prod.mk.inj heq
            exact ⟨by simp, b, rfl⟩
          · obtain ⟨ha, b, rfl⟩ := ih hmem
            exact ⟨by simp [ha], b, rfl⟩

theorem Explores.round_of {g' : EGraph L} (h : Explores rules g g') (effort : Effort) (k : Nat)
    (ss : List Suspension) :
    Explores rules g (g'.round effort rules k ss).1 := by
  obtain ⟨chosen, hchosen, heq⟩ := exists_applyAll effort
    (rules.zip ((rules.zipWith (g'.search effort k g'.members) ss).map (·.1))) (g', false)
  have hround : (g'.round effort rules k ss).1 =
      (chosen.foldl (fun g m => (applyMatch m.1 (g, false) m.2).1) g').rebuild := congrArg rebuild heq
  rw [hround]
  refine .round chosen h fun m hm => ?_
  obtain ⟨found, hfound, hm⟩ := hchosen m hm
  obtain ⟨hrule, s, rfl⟩ := mem_zip_zipWith hfound
  exact ⟨hrule, size_members g' ▸ mem_search hm⟩

theorem Explores.run {g' : EGraph L} (h : Explores rules g g') (fuel k : Nat) (ss : List Suspension) :
    Explores rules g (g'.run effort rules fuel k ss) := by
  induction fuel generalizing g' k ss with
  | zero => exact h
  | succ fuel ih =>
      have hround := h.round_of effort k ss
      unfold EGraph.run
      split
      · exact h
      · split
        · next heq =>
          rw [heq] at hround
          exact ih hround _ _
        · next heq =>
          rw [heq] at hround
          split
          · exact ih hround _ _
          · exact hround

theorem explores_saturate (effort : Effort) (rules : List (Rule L)) (g : EGraph L) :
    Explores rules g (g.saturate effort rules) :=
  Explores.run (.round [] .start (by simp)) _ _ _

end Saturate

end FlowShader.EGraph
