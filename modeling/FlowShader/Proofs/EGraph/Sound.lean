import FlowShader.EGraph.Basic
import FlowShader.Proofs.Expr.Value

namespace FlowShader.EGraph

variable {L : Type} [Literal L] {ρ : Valuation L ℝ} {ν : Nat → ℝ} {g : EGraph L}

/-- A node over classes below `size` has the value of its class. -/
structure Fact (ρ : Valuation L ℝ) (ν : Nat → ℝ) (size : Nat) (entry : Node L × Nat) : Prop where
  parts : ∀ i ∈ entry.1.parts, i < size
  lt : entry.2 < size
  value : (entry.1.map ν).HasValue ρ (ν entry.2)

/-- Classes have values, and all that the graph records is true of them. -/
structure Sound (ρ : Valuation L ℝ) (ν : Nat → ℝ) (g : EGraph L) : Prop where
  size : g.values.size = g.leader.size
  root_lt (i : Nat) : i < g.leader.size → g.root i < g.leader.size
  root (i : Nat) : ν (g.root i) = ν i
  values (i : Nat) (x : L) : g.values.getD i none = some x → Literal.isFinite x = true ∧ ρ.literal x = ν i
  uses (i : Nat) : ∀ entry ∈ g.uses.getD i #[], Fact ρ ν g.leader.size entry
  nodes : ∀ entry ∈ g.nodes, Fact ρ ν g.leader.size entry
  table (n : Node L) (i : Nat) : g.table[n]? = some i → Fact ρ ν g.leader.size (n, i)
  stale : ∀ entry ∈ g.stale, Fact ρ ν g.leader.size entry
  awaiting : ∀ entry ∈ g.awaiting, Fact ρ ν g.leader.size entry

/-- There may be more classes, but those from before keep their values. -/
structure Extends (m n : Nat) (ν ν' : Nat → ℝ) : Prop where
  le : m ≤ n
  agree (i : Nat) : i < m → ν' i = ν i

theorem Extends.refl (n : Nat) (ν : Nat → ℝ) : Extends n n ν ν := ⟨le_rfl, fun _ _ => rfl⟩

theorem Extends.trans {l m n : Nat} {ν ν' ν'' : Nat → ℝ} (h : Extends l m ν ν') (h' : Extends m n ν' ν'') :
    Extends l n ν ν'' :=
  ⟨h.le.trans h'.le, fun i hi => (h'.agree i (hi.trans_le h.le)).trans (h.agree i hi)⟩

theorem Fact.mono {m n : Nat} {ν' : Nat → ℝ} {entry : Node L × Nat} (h : Fact ρ ν m entry)
    (hext : Extends m n ν ν') : Fact ρ ν' n entry := by
  refine ⟨fun i hi => (h.parts i hi).trans_le hext.le, h.lt.trans_le hext.le, ?_⟩
  rw [hext.agree _ h.lt, Layer.map_congr fun i hi => hext.agree i (h.parts i hi)]
  exact h.value

theorem Sound.empty (ρ : Valuation L ℝ) (ν : Nat → ℝ) : Sound ρ ν {} := by
  constructor <;> simp [EGraph.root]

theorem Sound.value? (h : Sound ρ ν g) {i : Nat} {x : L} (hx : g.value? i = some x) :
    Literal.isFinite x = true ∧ ρ.literal x = ν i := by
  have hv := h.values _ x hx
  rwa [h.root] at hv

theorem Sound.usesOf (h : Sound ρ ν g) (i : Nat) : ∀ entry ∈ g.usesOf i, Fact ρ ν g.leader.size entry :=
  h.uses _

theorem Sound.map_canonical (h : Sound ρ ν g) (n : Node L) : (g.canonical n).map ν = n.map ν := by
  rw [EGraph.canonical, Layer.map_map]
  exact Layer.map_congr fun i _ => h.root i

theorem Sound.parts_canonical (h : Sound ρ ν g) {n : Node L} (hn : ∀ i ∈ n.parts, i < g.leader.size) :
    ∀ i ∈ (g.canonical n).parts, i < g.leader.size := by
  rw [EGraph.canonical, Layer.parts_map]
  simp only [List.mem_map]
  rintro _ ⟨i, hi, rfl⟩
  exact h.root_lt i (hn i hi)

theorem Sound.fold? (h : Sound ρ ν g) (hexact : Literal.Exact ρ.literal) {n : Node L} {x : ℝ} {z : L}
    (hx : (n.map ν).HasValue ρ x) (hz : g.fold? n = some z) :
    Literal.isFinite z = true ∧ ρ.literal z = x :=
  hx.fold? hexact (fun _ _ => h.value?) hz

section Merge

theorem getD_setIfInBounds {α : Type} (a : Array α) (i k : Nat) (x d : α) :
    (a.setIfInBounds i x).getD k d = a.getD k d ∨ k = i ∧ (a.setIfInBounds i x).getD k d = x := by
  simp only [Array.getD_eq_getD_getElem?, Array.getElem?_setIfInBounds]
  by_cases hk : i = k
  · subst hk
    by_cases hi : i < a.size <;> simp [hi]
  · simp [hk]

theorem getD_modify {α : Type} (a : Array α) (i k : Nat) (f : α → α) (d : α) :
    (a.modify i f).getD k d = a.getD k d ∨ k = i ∧ (a.modify i f).getD k d = f (a.getD i d) := by
  simp only [Array.getD_eq_getD_getElem?, Array.getElem?_modify]
  by_cases hk : i = k
  · subst hk
    by_cases hi : i < a.size <;> simp [hi]
  · simp [hk]

theorem Sound.absorb (h : Sound ρ ν g) {i j : Nat} (hi : i < g.leader.size) (hij : ν i = ν j) :
    Sound ρ ν (g.absorb i j) := by
  have hsize : (g.absorb i j).leader.size = g.leader.size := by simp [EGraph.absorb]
  have hroot (k : Nat) : (g.absorb i j).root k = if k < g.leader.size ∧ g.root k = j then i else g.root k := by
    by_cases hk : k < g.leader.size
    · simp [EGraph.absorb, EGraph.root, hk]
    · simp [EGraph.absorb, EGraph.root, hk]
  refine ⟨?_, fun k hk => ?_, fun k => ?_, fun k x hx => ?_, fun k entry he => ?_, ?_, ?_, fun entry he => ?_,
    fun entry he => ?_⟩
  · simpa [EGraph.absorb] using h.size
  · rw [hsize] at hk ⊢
    rw [hroot]
    split
    · exact hi
    · exact h.root_lt k hk
  · rw [hroot]
    split
    · next hk => rw [hij, ← hk.2, h.root]
    · exact h.root k
  · rcases getD_setIfInBounds g.values i k ((g.value? i).or (g.value? j)) none with heq | ⟨rfl, heq⟩
    · exact h.values k x (heq ▸ hx)
    · have hx : (g.value? k).or (g.value? j) = some x := heq ▸ hx
      rcases Option.or_eq_some_iff.1 hx with hx | ⟨-, hx⟩
      · exact h.value? hx
      · exact hij ▸ h.value? hx
  · rw [hsize]
    rcases getD_modify g.uses i k (· ++ g.usesOf j) #[] with heq | ⟨rfl, heq⟩
    · exact h.uses k entry (heq ▸ he)
    · have he : entry ∈ g.uses.getD k #[] ++ g.usesOf j := heq ▸ he
      rcases Array.mem_append.1 he with he | he
      · exact h.uses k entry he
      · exact h.usesOf j entry he
  · exact hsize ▸ h.nodes
  · exact hsize ▸ h.table
  · rw [hsize]
    have hmem : entry ∈ (g.usesOf j).toList.reverse ++ g.stale := by
      simpa [EGraph.absorb, ← Array.foldl_toList] using he
    rcases List.mem_append.1 hmem with he | he
    · exact h.usesOf j entry (by simpa using he)
    · exact h.stale entry he
  · rw [hsize]
    rcases Array.mem_append.1 he with he | he
    · exact h.awaiting entry he
    · split at he
      · exact h.usesOf i entry he
      · exact h.usesOf j entry he
      · simp at he

theorem Sound.union (h : Sound ρ ν g) {i j : Nat} (hi : i < g.leader.size) (hj : j < g.leader.size)
    (hij : ν i = ν j) : Sound ρ ν (g.union i j) := by
  unfold EGraph.union
  dsimp only
  split
  · exact h
  · split
    · exact h.absorb (h.root_lt j hj) (by rw [h.root, h.root, hij])
    · exact h.absorb (h.root_lt i hi) (by rw [h.root, h.root, hij])

theorem size_absorb (g : EGraph L) (i j : Nat) : (g.absorb i j).leader.size = g.leader.size := by
  simp [EGraph.absorb]

theorem size_union (g : EGraph L) (i j : Nat) : (g.union i j).leader.size = g.leader.size := by
  unfold EGraph.union
  dsimp only
  split
  · rfl
  · split <;> exact size_absorb _ _ _

end Merge

/-- The graph becomes another sound graph, in which classes keep their values. -/
def Becomes (ρ : Valuation L ℝ) (ν : Nat → ℝ) (g g' : EGraph L) : Prop :=
  ∃ ν', Sound ρ ν' g' ∧ Extends g.leader.size g'.leader.size ν ν'

def Adds (ρ : Valuation L ℝ) (ν : Nat → ℝ) (g : EGraph L) (x : ℝ) (result : Nat × EGraph L) : Prop :=
  ∃ ν', Sound ρ ν' result.2 ∧ Extends g.leader.size result.2.leader.size ν ν' ∧
    result.1 < result.2.leader.size ∧ ν' result.1 = x

theorem Sound.becomes (h : Sound ρ ν g) : Becomes ρ ν g g := ⟨ν, h, .refl _ _⟩

section Enter

variable {n : Node L} {x : ℝ}

omit [Literal L] in
theorem mem_uses_enter {i : Nat} {parts : List Nat} {uses : Array (Array (Node L × Nat))} {entry : Node L × Nat}
    {k : Nat} (h : entry ∈ (parts.foldl (fun uses part => uses.modify part (·.push (n, i))) uses).getD k #[]) :
    entry = (n, i) ∨ entry ∈ uses.getD k #[] := by
  induction parts generalizing uses with
  | nil => exact .inr h
  | cons part parts ih =>
      rcases ih h with he | he
      · exact .inl he
      · rcases getD_modify uses part k (·.push (n, i)) #[] with heq | ⟨rfl, heq⟩
        · exact .inr (heq ▸ he)
        · rw [heq, Array.mem_push] at he
          exact he.symm

theorem getD_push {α : Type} (a : Array α) (x d : α) (k : Nat) :
    (a.push x).getD k d = a.getD k d ∨ k = a.size ∧ (a.push x).getD k d = x := by
  simp only [Array.getD_eq_getD_getElem?, Array.getElem?_push]
  by_cases hk : k = a.size <;> simp [hk]

theorem root_grown (g : EGraph L) (n : Node L) (k : Nat) : (g.grown n).root k = g.root k := by
  rcases getD_push g.leader g.leader.size k k with heq | ⟨rfl, heq⟩
  · exact heq
  · rw [EGraph.root, EGraph.root]
    exact heq.trans (by simp)

theorem canonical_grown (g : EGraph L) (n m : Node L) : (g.grown n).canonical m = g.canonical m :=
  Layer.map_congr fun k _ => root_grown g n k

theorem size_grown (g : EGraph L) (n : Node L) : (g.grown n).leader.size = g.leader.size + 1 := Array.size_push _

theorem Sound.grown [LawfulBEq L] (h : Sound ρ ν g) (hexact : Literal.Exact ρ.literal)
    (hparts : ∀ i ∈ n.parts, i < g.leader.size) (hx : (n.map ν).HasValue ρ x) :
    Adds ρ ν g x (g.leader.size, g.grown n) := by
  let ν' : Nat → ℝ := fun k => if k = g.leader.size then x else ν k
  have hext : Extends g.leader.size (g.grown n).leader.size ν ν' :=
    ⟨size_grown g n ▸ Nat.le_succ _, fun k hk => if_neg hk.ne⟩
  have hlast : g.leader.size < (g.grown n).leader.size := size_grown g n ▸ Nat.lt_succ_self _
  have hnew : Fact ρ ν' (g.grown n).leader.size (n, g.leader.size) := by
    refine ⟨fun i hi => (hparts i hi).trans_le hext.le, hlast, ?_⟩
    rw [Layer.map_congr fun i hi => hext.agree i (hparts i hi)]
    simpa [ν'] using hx
  have hkeep (k : Nat) (hk : k < g.leader.size) : ν' (g.root k) = ν' k := by
    rw [hext.agree _ (h.root_lt k hk), hext.agree k hk, h.root]
  refine ⟨ν', ⟨?_, fun k hk => ?_, fun k => ?_, fun k z hz => ?_, fun k entry he => ?_, fun entry he => ?_,
    fun m i hm => ?_, fun entry he => (h.stale entry he).mono hext, fun entry he => (h.awaiting entry he).mono hext⟩,
    hext, hlast, if_pos rfl⟩
  · simpa [EGraph.grown] using h.size
  · rw [root_grown]
    rcases Nat.lt_succ_iff_lt_or_eq.1 (size_grown g n ▸ hk) with hk | rfl
    · exact (h.root_lt k hk).trans_le hext.le
    · simpa [EGraph.root] using hlast
  · rw [root_grown]
    by_cases hk : k < g.leader.size
    · exact hkeep k hk
    · simp [EGraph.root, hk]
  · rcases getD_push g.values (g.fold? n) none k with heq | ⟨rfl, heq⟩
    · have hz : g.values.getD k none = some z := heq ▸ hz
      have hk : k < g.leader.size := by
        by_contra hge
        simp [Array.getD_eq_getD_getElem?, Array.getElem?_eq_none (h.size ▸ Nat.not_lt.1 hge)] at hz
      rw [hext.agree k hk]
      exact h.values k z hz
    · have hz : g.fold? n = some z := heq ▸ hz
      rw [show ν' g.values.size = x from if_pos h.size]
      exact h.fold? hexact hx hz
  · rcases getD_push _ #[] #[] k with heq | ⟨-, heq⟩
    · rcases mem_uses_enter (heq ▸ he) with rfl | he
      · exact hnew
      · exact (h.uses k entry he).mono hext
    · exact absurd (heq ▸ he) (by simp)
  · rcases Array.mem_push.1 he with he | rfl
    · exact (h.nodes entry he).mono hext
    · exact hnew
  · simp only [EGraph.grown, Std.HashMap.getElem?_insert] at hm
    split at hm
    · next heq =>
      obtain rfl : n = m := by simpa using heq
      obtain rfl : g.leader.size = i := Option.some.inj hm
      exact hnew
    · exact (h.table m i hm).mono hext

theorem Sound.enter [LawfulBEq L] (h : Sound ρ ν g) (hexact : Literal.Exact ρ.literal)
    (hparts : ∀ i ∈ n.parts, i < g.leader.size) (hx : (n.map ν).HasValue ρ x) : Adds ρ ν g x (g.enter n) := by
  have hcanonical : ((g.canonical n).map ν).HasValue ρ x := h.map_canonical n ▸ hx
  unfold EGraph.enter
  split
  · next i hi =>
    have hfact := h.table _ _ hi
    exact ⟨ν, h, .refl _ _, h.root_lt i hfact.lt, by rw [h.root, hfact.value.unique hcanonical]⟩
  · exact h.grown hexact (h.parts_canonical hparts) hcanonical

end Enter

theorem Becomes.trans {g g' g'' : EGraph L} (h : Becomes ρ ν g g')
    (h' : ∀ ν', Sound ρ ν' g' → Becomes ρ ν' g' g'') : Becomes ρ ν g g'' := by
  obtain ⟨ν', hsound, hext⟩ := h
  obtain ⟨ν'', hsound', hext'⟩ := h' ν' hsound
  exact ⟨ν'', hsound', hext.trans hext'⟩

section Add

variable [LawfulBEq L] {x : ℝ}

theorem Sound.settle (h : Sound ρ ν g) (hexact : Literal.Exact ρ.literal) {i : Nat} (hi : i < g.leader.size) :
    Becomes ρ ν g (g.settle i) := by
  unfold EGraph.settle
  split
  · exact h.becomes
  · next z hz =>
    obtain ⟨hfinite, hvalue⟩ := h.value? hz
    obtain ⟨ν', hsound, hext, hj, hx⟩ := h.enter hexact (n := .literal z) (by simp [Layer.parts]) ⟨hfinite, rfl⟩
    have hi' := hi.trans_le hext.le
    have heq : ν' i = ν' (g.enter (.literal z)).1 := by rw [hx, hext.agree i hi, hvalue]
    refine ⟨ν', hsound.union hi' hj heq, ?_⟩
    rw [size_union]
    exact hext

theorem Sound.add (h : Sound ρ ν g) (hexact : Literal.Exact ρ.literal) {n : Node L}
    (hparts : ∀ i ∈ n.parts, i < g.leader.size) (hx : (n.map ν).HasValue ρ x) : Adds ρ ν g x (g.add n) := by
  obtain ⟨ν', hsound, hext, hlt, hvalue⟩ := h.enter hexact hparts hx
  obtain ⟨ν'', hsound', hext'⟩ := hsound.settle hexact hlt
  exact ⟨ν'', hsound', hext.trans hext', hlt.trans_le hext'.le, (hext'.agree _ hlt).trans hvalue⟩

/-- Where variables stand for classes they have the values of these. -/
def withClasses (ρ : Valuation L ℝ) (ν : Nat → ℝ) (σ : String → Option Nat) : Valuation L ℝ :=
  ⟨ρ.literal, fun v => ((σ v).map ν).or (ρ.binding v)⟩

omit [Literal L] [LawfulBEq L] in
theorem withClasses_mono {σ : String → Option Nat} {m n : Nat} {ν' : Nat → ℝ} (hσ : ∀ v i, σ v = some i → i < m)
    (hext : Extends m n ν ν') : withClasses ρ ν' σ = withClasses ρ ν σ := by
  have hbinding : (withClasses ρ ν' σ).binding = (withClasses ρ ν σ).binding := by
    funext v
    cases hv : σ v with
    | none => simp [withClasses, hv]
    | some i => simp [withClasses, hv, hext.agree i (hσ v i hv)]
  exact congrArg (Valuation.mk ρ.literal) hbinding

theorem Sound.addExpr (h : Sound ρ ν g) (hexact : Literal.Exact ρ.literal) {σ : String → Option Nat}
    (hσ : ∀ v i, σ v = some i → i < g.leader.size) {e : Expr L} (he : e.HasValue (withClasses ρ ν σ) x) :
    Adds ρ ν g x (g.addExpr σ e) := by
  induction e generalizing g ν x with
  | literal y =>
      cases he with
      | literal hy => exact h.add hexact (by simp [Layer.parts]) ⟨hy, rfl⟩
  | constant c =>
      cases he with
      | constant => exact h.add hexact (by simp [Layer.parts]) rfl
  | var v =>
      cases he with
      | var hv =>
          unfold EGraph.addExpr
          split
          · next i hi =>
            have hx : ν i = x := by simpa [withClasses, hi] using hv
            exact ⟨ν, h, .refl _ _, hσ v i hi, hx⟩
          · next hi =>
            have hx : ρ.binding v = some x := by simpa [withClasses, hi] using hv
            exact h.add hexact (by simp [Layer.parts]) hx
  | call f a ih =>
      cases he with
      | call ha hf =>
          obtain ⟨ν', hsound, hext, hi, rfl⟩ := ih h hσ ha
          obtain ⟨ν'', hsound', hext', hi', hx⟩ :=
            hsound.add hexact (n := .call f _) (by simpa [Layer.parts] using hi) ⟨hf, rfl⟩
          exact ⟨ν'', hsound', hext.trans hext', hi', hx⟩
  | call₂ f a b iha ihb =>
      cases he with
      | call₂ ha hb =>
          obtain ⟨ν', hsound, hext, hi, rfl⟩ := iha h hσ ha
          rw [← withClasses_mono hσ hext] at hb
          obtain ⟨ν'', hsound', hext', hj, rfl⟩ := ihb hsound (fun v i hv => (hσ v i hv).trans_le hext.le) hb
          have hi' := hi.trans_le hext'.le
          obtain ⟨ν₃, hsound₃, hext₃, hk, hx⟩ :=
            hsound'.add hexact (n := .call₂ f _ _) (by simpa [Layer.parts] using ⟨hi', hj⟩) rfl
          refine ⟨ν₃, hsound₃, (hext.trans hext').trans hext₃, hk, ?_⟩
          rw [← hext'.agree _ hi]
          exact hx
  | op o a b iha ihb =>
      cases he with
      | op ha hb ho =>
          obtain ⟨ν', hsound, hext, hi, rfl⟩ := iha h hσ ha
          rw [← withClasses_mono hσ hext] at hb
          obtain ⟨ν'', hsound', hext', hj, rfl⟩ := ihb hsound (fun v i hv => (hσ v i hv).trans_le hext.le) hb
          have hi' := hi.trans_le hext'.le
          rw [← hext'.agree _ hi] at ho ⊢
          obtain ⟨ν₃, hsound₃, hext₃, hk, hx⟩ :=
            hsound'.add hexact (n := .op o _ _) (by simpa [Layer.parts] using ⟨hi', hj⟩) ⟨ho, rfl⟩
          exact ⟨ν₃, hsound₃, (hext.trans hext').trans hext₃, hk, hx⟩

end Add

section Rebuild

variable [LawfulBEq L]

/-- Equal nodes have classes of equal value, so these may be merged. -/
theorem Sound.relocate (h : Sound ρ ν g) {entry : Node L × Nat} (he : Fact ρ ν g.leader.size entry) :
    Becomes ρ ν g (g.relocate entry) := by
  obtain ⟨n, i⟩ := entry
  have hfact : Fact ρ ν g.leader.size (g.canonical n, i) :=
    ⟨h.parts_canonical he.parts, he.lt, by simpa only [h.map_canonical] using he.value⟩
  have hinsert : Sound ρ ν { g with table := g.table.insert (g.canonical n) i } := by
    refine ⟨h.size, h.root_lt, h.root, h.values, h.uses, h.nodes, fun m j hm => ?_, h.stale, h.awaiting⟩
    simp only [Std.HashMap.getElem?_insert] at hm
    split at hm
    · next heq =>
      obtain rfl : g.canonical n = m := by simpa using heq
      obtain rfl : i = j := Option.some.inj hm
      exact hfact
    · exact h.table m j hm
  unfold EGraph.relocate
  dsimp only
  split
  · next j hj =>
    have hknown := h.table _ _ hj
    have heq : ν j = ν i := hknown.value.unique hfact.value
    exact ⟨ν, hinsert.union hknown.lt he.lt heq, by rw [size_union]; exact .refl _ _⟩
  · exact ⟨ν, hinsert, .refl _ _⟩

theorem Sound.relocateAll (h : Sound ρ ν g) (fuel : Nat) : Becomes ρ ν g (relocateAll fuel g) := by
  induction fuel generalizing g ν with
  | zero => exact h.becomes
  | succ fuel ih =>
      unfold EGraph.relocateAll
      split
      · exact h.becomes
      · next entry rest hstale =>
        have hrest : Sound ρ ν { g with stale := rest } :=
          { h with stale := fun entry he => h.stale entry (by simp [hstale, he]) }
        have hentry := h.stale entry (by simp [hstale])
        exact (hrest.relocate hentry).trans fun ν' h' => ih h'

theorem Sound.evaluate (h : Sound ρ ν g) (hexact : Literal.Exact ρ.literal) {entry : Node L × Nat}
    (he : Fact ρ ν g.leader.size entry) : Becomes ρ ν g (g.evaluate entry) := by
  obtain ⟨n, i⟩ := entry
  unfold EGraph.evaluate
  dsimp only
  split
  · next z _ hz =>
    have hvalue := h.fold? hexact he.value hz
    have hset : Sound ρ ν { g with
        values := g.values.setIfInBounds (g.root i) (some z), awaiting := g.awaiting ++ g.usesOf i } := by
      refine ⟨by simpa using h.size, h.root_lt, h.root, fun k x hx => ?_, h.uses, h.nodes, h.table, h.stale,
        fun entry he => ?_⟩
      · rcases getD_setIfInBounds g.values (g.root i) k (some z) none with heq | ⟨rfl, heq⟩
        · exact h.values k x (heq ▸ hx)
        · obtain rfl : z = x := Option.some.inj (heq.symm.trans hx)
          rwa [h.root]
      · rcases Array.mem_append.1 he with he | he
        · exact h.awaiting entry he
        · exact h.usesOf i entry he
    exact hset.settle hexact he.lt
  · exact h.becomes

theorem Sound.evaluateEach (h : Sound ρ ν g) (hexact : Literal.Exact ρ.literal) {entries : List (Node L × Nat)}
    (hentries : ∀ entry ∈ entries, Fact ρ ν g.leader.size entry) :
    Becomes ρ ν g (entries.foldl EGraph.evaluate g) := by
  induction entries generalizing g ν with
  | nil => exact h.becomes
  | cons entry entries ih =>
      obtain ⟨ν', h', hext⟩ := h.evaluate hexact (hentries entry (by simp))
      obtain ⟨ν'', h'', hext'⟩ := ih h' fun e he => (hentries e (by simp [he])).mono hext
      exact ⟨ν'', h'', hext.trans hext'⟩

theorem Sound.evaluateAll (h : Sound ρ ν g) (hexact : Literal.Exact ρ.literal) (fuel : Nat) :
    Becomes ρ ν g (evaluateAll fuel g) := by
  induction fuel generalizing g ν with
  | zero => exact h.becomes
  | succ fuel ih =>
      unfold EGraph.evaluateAll
      split
      · exact h.becomes
      · have hstart : Sound ρ ν { g with awaiting := #[] } := { h with awaiting := by simp }
        have hbatch : Becomes ρ ν g (g.awaiting.foldl EGraph.evaluate { g with awaiting := #[] }) := by
          rw [← Array.foldl_toList]
          exact hstart.evaluateEach hexact fun entry he => h.awaiting entry (by simpa using he)
        exact hbatch.trans fun ν' h' => ih h'

theorem Sound.propagate (h : Sound ρ ν g) (hexact : Literal.Exact ρ.literal) (fuel : Nat) :
    Becomes ρ ν g (propagate fuel g) := by
  induction fuel generalizing g ν with
  | zero => exact h.becomes
  | succ fuel ih =>
      unfold EGraph.propagate
      split
      · exact h.becomes
      · exact ((h.relocateAll _).trans fun ν' h' => h'.evaluateAll hexact _).trans fun ν' h' => ih h'

omit [LawfulBEq L] in
theorem mem_distinct {a : Node L × Nat} (h : a ∈ g.distinct) : ∃ b ∈ g.nodes, a = (g.canonical b.1, g.root b.2) := by
  have hfold (entries : List (Node L × Nat)) (state : Array (Node L × Nat) × Std.HashSet (Node L))
      (h : a ∈ (entries.foldl g.keepNext state).1) :
      a ∈ state.1 ∨ ∃ b ∈ entries, a = (g.canonical b.1, g.root b.2) := by
    induction entries generalizing state with
    | nil => exact .inl h
    | cons entry entries ih =>
        rcases ih _ h with h | ⟨b, hb, rfl⟩
        · unfold keepNext at h
          split at h
          · exact .inl h
          · rcases Array.mem_push.1 h with h | rfl
            · exact .inl h
            · exact .inr ⟨entry, List.mem_cons_self, rfl⟩
        · exact .inr ⟨b, List.mem_cons_of_mem _ hb, rfl⟩
  rw [distinct, mem_arrange, kept, ← Array.foldl_toList] at h
  rcases hfold _ _ h with h | ⟨b, hb, rfl⟩
  · simp at h
  · exact ⟨b, by simpa using hb, rfl⟩

omit [LawfulBEq L] in
theorem Sound.distinct (h : Sound ρ ν g) : ∀ entry ∈ g.distinct, Fact ρ ν g.leader.size entry := by
  intro entry he
  obtain ⟨b, hb, rfl⟩ := mem_distinct he
  have hfact := h.nodes b hb
  refine ⟨h.parts_canonical hfact.parts, h.root_lt _ hfact.lt, ?_⟩
  rw [h.map_canonical, h.root]
  exact hfact.value

theorem Sound.rebuild (h : Sound ρ ν g) (hexact : Literal.Exact ρ.literal) : Becomes ρ ν g g.rebuild := by
  obtain ⟨ν', h', hext⟩ := h.propagate hexact (2 * g.leader.size + 2)
  exact ⟨ν', { h' with nodes := h'.distinct }, hext⟩

end Rebuild

end FlowShader.EGraph
