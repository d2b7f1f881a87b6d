import FlowShader.Proofs.EGraph.Coherent

namespace FlowShader.EGraph

variable {L : Type} [Literal L] {g g' g'' : EGraph L} {a : Node L × Nat} {i j k : Nat}

def HoldsLiteral (g : EGraph L) (i : Nat) : Prop := ∃ x, g.Has (.literal x, i)

def Settled (g : EGraph L) : Prop := ∀ i, (g.value? i).isSome = true → g.HoldsLiteral i

/-- The classes without a value. -/
def unknown (g : EGraph L) : Finset Nat := g.leaders.filter fun i => (g.value? i).isNone = true

/-- A graph as it is between two operations. -/
structure WellFormed (g : EGraph L) : Prop where
  coherent : Coherent g
  settled : Settled g

theorem mem_unknown : i ∈ g.unknown ↔ i ∈ g.leaders ∧ g.value? i = none := by simp [unknown]

theorem value?_congr (h : g.root i = g.root j) : g.value? i = g.value? j := by rw [EGraph.value?, h, EGraph.value?]

theorem CoherentUpTo.fold?_canonical (h : CoherentUpTo i j g) (n : Node L) : g.fold? (g.canonical n) = g.fold? n := by
  rw [EGraph.fold?, EGraph.canonical, Layer.map_map]
  exact congrArg Layer.fold? (Layer.map_congr fun k _ => value?_congr (h.root_root k))

section Union

theorem value?_absorb (hi : i ∈ g.leaders) (hj : j ∈ g.leaders)
    (hsize : g.values.size = g.leader.size) (k : Nat) :
    (g.absorb i j).value? k =
      if g.root k = i ∨ g.root k = j then (g.value? i).or (g.value? j) else g.value? k := by
  have hvalues : (g.absorb i j).values = g.values.setIfInBounds i ((g.value? i).or (g.value? j)) := rfl
  have hlt : i < g.values.size := hsize ▸ (mem_leaders.1 hi).1
  by_cases hk : g.root k = i ∨ g.root k = j
  · rw [if_pos hk, EGraph.value?, root_absorb_of_mem hj hk, hvalues]
    simp [hlt]
  · rw [if_neg hk, EGraph.value?, root_absorb hj, if_neg fun heq => hk (.inr heq), hvalues]
    exact (getD_setIfInBounds ..).resolve_right fun h => hk (.inl h.1)

theorem CoherentUpTo.unknown_union (h : CoherentUpTo i j g) (hi : i < g.leader.size) (hj : j < g.leader.size) :
    (g.union i j).unknown ⊆ g.unknown := by
  obtain ⟨-, heq⟩ | ⟨k, l, hk, hl, hkl, -, heq⟩ := h.union_cases hi hj
  · rw [heq]
  · rw [heq]
    intro m hm
    obtain ⟨hm, hvalue⟩ := mem_unknown.1 hm
    rw [leaders_absorb hk hl hkl, Finset.mem_erase] at hm
    have hroot := (mem_leaders.1 hm.2).2
    rw [value?_absorb hk hl h.values_size, hroot] at hvalue
    refine mem_unknown.2 ⟨hm.2, ?_⟩
    by_cases hmk : m = k
    · rw [if_pos (.inl hmk)] at hvalue
      exact hmk ▸ (Option.or_eq_none_iff.1 hvalue).1
    · rwa [if_neg (by rintro (heq | heq); exacts [hmk heq, hm.1 heq])] at hvalue

variable [PartialEquivBEq L]

theorem HoldsLiteral.congr (h : g.HoldsLiteral i) (hij : g.root i = g.root j) : g.HoldsLiteral j := by
  obtain ⟨x, hx⟩ := h
  exact ⟨x, hx.congr ⟨BEq.rfl, hij⟩⟩

theorem HoldsLiteral.mono (h : g.HoldsLiteral i) (hg : Grows g g') : g'.HoldsLiteral i := by
  obtain ⟨x, hx⟩ := h
  exact ⟨x, hx.mono hg⟩

/-- A merged class holds a literal if it has a value, as soon as one of the two classes does. -/
theorem CoherentUpTo.settled_union (h : CoherentUpTo i j g) (hi : i < g.leader.size) (hj : j < g.leader.size)
    (hjoin : (g.value? i).isSome = true ∨ (g.value? j).isSome = true → g.HoldsLiteral i ∨ g.HoldsLiteral j)
    (hrest : ∀ k, g.root k ≠ g.root i → g.root k ≠ g.root j → (g.value? k).isSome = true → g.HoldsLiteral k) :
    Settled (g.union i j) := by
  have hgrows := h.grows_union hi hj
  have hroot := h.root_union hi hj
  have hboth : g.HoldsLiteral i ∨ g.HoldsLiteral j → (g.union i j).HoldsLiteral i := fun hor =>
    hor.elim (·.mono hgrows) fun hlit => (hlit.mono hgrows).congr hroot.symm
  intro m hm
  by_cases hmi : g.root m = g.root i ∨ g.root m = g.root j
  · have hsame : (g.union i j).root i = (g.union i j).root m :=
      hmi.elim (fun heq => (hgrows.root_eq heq).symm) fun heq => hroot.trans (hgrows.root_eq heq).symm
    refine (hboth (hjoin ?_)).congr hsame
    obtain ⟨hij, heq⟩ | ⟨k, l, hk, hl, hkl, hkij, heq⟩ := h.union_cases hi hj
    · rw [heq, value?_congr (by omega : g.root m = g.root i)] at hm
      exact .inl hm
    · have hvalue (c : Nat) (hc : c ∈ g.leaders) (d : Nat) (hd : g.root d = c) : g.value? c = g.value? d :=
        value?_congr ((mem_leaders.1 hc).2.trans hd.symm)
      rw [heq, value?_absorb hk hl h.values_size, if_pos (by omega), Option.isSome_or, Bool.or_eq_true] at hm
      rcases hkij with ⟨hik, hjl⟩ | ⟨hil, hjk⟩
      · rwa [hvalue k hk i hik, hvalue l hl j hjl] at hm
      · rwa [hvalue k hk j hjk, hvalue l hl i hil, or_comm] at hm
  · refine (hrest m (fun heq => hmi (.inl heq)) (fun heq => hmi (.inr heq)) ?_).mono hgrows
    obtain ⟨-, heq⟩ | ⟨k, l, hk, hl, hkl, hkij, heq⟩ := h.union_cases hi hj
    · rwa [heq] at hm
    · rwa [heq, value?_absorb hk hl h.values_size, if_neg (by omega)] at hm

end Union

/-- The graph becomes another one, in which no more classes are without a value. -/
structure Settles (g g' : EGraph L) : Prop where
  wellFormed : WellFormed g'
  grows : Grows g g'
  unknown_le : g'.unknown.card ≤ g.unknown.card

section Settle

theorem value?_grown (h : Coherent g) (n : Node L) (k : Nat) :
    (g.grown n).value? k = if k = g.leader.size then g.fold? n else g.value? k := by
  rw [EGraph.value?, root_grown]
  by_cases hk : k = g.leader.size
  · have hroot : g.root k = g.values.size := by rw [hk, h.values_size]; simp [EGraph.root]
    rw [if_pos hk, hroot]
    simp [EGraph.grown]
  · have hroot : g.root k ≠ g.values.size := by
      rw [h.values_size]
      intro heq
      by_cases hlt : k < g.leader.size
      · exact (h.root_lt k hlt).ne heq
      · exact hk (by simpa [EGraph.root, hlt] using heq)
    rw [if_neg hk]
    exact (getD_push ..).resolve_right fun hor => hroot hor.1

theorem root_enter (g : EGraph L) (n : Node L) (k : Nat) : (g.enter n).2.root k = g.root k := by
  obtain ⟨l, -, heq⟩ | ⟨-, heq⟩ := enter_cases g n <;> rw [heq]
  exact root_grown g _ k

theorem value?_enter (h : Coherent g) (n : Node L) (hk : g.root k ≠ g.root (g.enter n).1) :
    (g.enter n).2.value? k = g.value? k := by
  obtain ⟨l, -, heq⟩ | ⟨-, heq⟩ := enter_cases g n <;> rw [heq] at hk ⊢
  rw [value?_grown h, if_neg fun hsize => hk (congrArg g.root hsize)]

theorem unknown_enter (h : Coherent g) {n : Node L} (hn : (g.fold? n).isSome = true) :
    (g.enter n).2.unknown ⊆ g.unknown := by
  obtain ⟨k, -, heq⟩ | ⟨-, heq⟩ := enter_cases g n
  · rw [heq]
  · rw [heq]
    intro k hk
    obtain ⟨hk, hvalue⟩ := mem_unknown.1 hk
    rw [value?_grown h, h.fold?_canonical] at hvalue
    split at hvalue
    · rw [hvalue] at hn
      cases hn
    · next hne =>
      rw [leaders_grown, Finset.mem_insert] at hk
      exact mem_unknown.2 ⟨hk.resolve_left hne, hvalue⟩

theorem WellFormed.settles (h : WellFormed g) : Settles g g := ⟨h, h.coherent.grows, le_rfl⟩

variable [PartialEquivBEq L]

theorem Settles.trans (h : Settles g g') (h' : Settles g' g'') : Settles g g'' :=
  ⟨h'.wellFormed, h.grows.trans h'.grows, h'.unknown_le.trans h.unknown_le⟩

theorem WellFormed.union (h : WellFormed g) (hi : i < g.leader.size) (hj : j < g.leader.size) :
    Settles g (g.union i j) := by
  have hupTo : CoherentUpTo i j g := h.coherent.congr rfl
  refine ⟨⟨hupTo.union hi hj, hupTo.settled_union hi hj ?_ fun k _ _ => h.settled k⟩, hupTo.grows_union hi hj,
    Finset.card_le_card (hupTo.unknown_union hi hj)⟩
  exact Or.imp (h.settled i) (h.settled j)

variable [LawfulHashable L]

theorem Coherent.settle (h : Coherent g) (hi : i < g.leader.size)
    (hrest : ∀ k, g.root k ≠ g.root i → (g.value? k).isSome = true → g.HoldsLiteral k) :
    Settles g (g.settle i) := by
  unfold EGraph.settle
  cases hi' : g.value? i with
  | none =>
      refine ⟨⟨h, fun k hk => hrest k (fun heq => ?_) hk⟩, h.grows, le_rfl⟩
      rw [value?_congr heq, hi'] at hk
      cases hk
  | some x =>
      obtain ⟨hcoherent, hgrows, hhas⟩ := h.enter (n := .literal x) (by simp [Layer.parts])
      have hlt := hi.trans_le hgrows.le
      have hupTo : CoherentUpTo i (g.enter (.literal x)).1 (g.enter (.literal x)).2 := hcoherent.congr rfl
      have hnew := hcoherent.lt_of_has hhas
      have hsettled := hupTo.settled_union hlt hnew (fun _ => .inr ⟨x, hhas⟩) fun k hki hkj hk => ?_
      · exact ⟨⟨hupTo.union hlt hnew, hsettled⟩, hgrows.trans (hupTo.grows_union hlt hnew),
          Finset.card_le_card ((hupTo.unknown_union hlt hnew).trans (unknown_enter h rfl))⟩
      · rw [root_enter, root_enter] at hki hkj
        rw [value?_enter h _ hkj] at hk
        exact (hrest k hki hk).mono hgrows

theorem WellFormed.settle_enter (h : WellFormed g) {n : Node L} (hparts : ∀ k ∈ n.parts, k < g.leader.size) :
    Settles (g.enter n).2 (g.add n).2 := by
  obtain ⟨hcoherent, hgrows, hhas⟩ := h.coherent.enter hparts
  refine hcoherent.settle (hcoherent.lt_of_has hhas) fun k hk hsome => ?_
  rw [root_enter, root_enter] at hk
  rw [value?_enter h.coherent n hk] at hsome
  exact (h.settled k hsome).mono hgrows

theorem WellFormed.add (h : WellFormed g) {n : Node L} (hparts : ∀ k ∈ n.parts, k < g.leader.size) :
    WellFormed (g.add n).2 ∧ Grows g (g.add n).2 ∧ (g.add n).2.Has (n, (g.add n).1) := by
  obtain ⟨-, hgrows, hhas⟩ := h.coherent.enter hparts
  have hsettles := h.settle_enter hparts
  exact ⟨hsettles.wellFormed, hgrows.trans hsettles.grows, hhas.mono hsettles.grows⟩

theorem WellFormed.addExpr (h : WellFormed g) {σ : String → Option Nat} (hσ : ∀ v i, σ v = some i → i < g.leader.size)
    (e : Expr L) :
    WellFormed (g.addExpr σ e).2 ∧ Grows g (g.addExpr σ e).2 ∧ (g.addExpr σ e).1 < (g.addExpr σ e).2.leader.size := by
  have hadd {g₀ g : EGraph L} (h : WellFormed g) (hg : Grows g₀ g) (n : Node L) (hparts : ∀ k ∈ n.parts, k < g.leader.size) :
      WellFormed (g.add n).2 ∧ Grows g₀ (g.add n).2 ∧ (g.add n).1 < (g.add n).2.leader.size := by
    obtain ⟨hwell, hgrows, hhas⟩ := h.add hparts
    exact ⟨hwell, hg.trans hgrows, hwell.coherent.lt_of_has hhas⟩
  induction e generalizing g with
  | literal x | constant c => exact hadd h h.coherent.grows _ (by simp [Layer.parts])
  | var v =>
      unfold EGraph.addExpr
      split
      · next i hi => exact ⟨h, h.coherent.grows, hσ v i hi⟩
      · exact hadd h h.coherent.grows _ (by simp [Layer.parts])
  | call f a ih =>
      obtain ⟨hwell, hgrows, hlt⟩ := ih h hσ
      exact hadd hwell hgrows (.call f _) (by simpa [Layer.parts] using hlt)
  | call₂ f a b iha ihb =>
      obtain ⟨hwell, hgrows, hlt⟩ := iha h hσ
      obtain ⟨hwell', hgrows', hlt'⟩ := ihb hwell fun v i hv => (hσ v i hv).trans_le hgrows.le
      exact hadd hwell' (hgrows.trans hgrows') (.call₂ f _ _) (by simpa [Layer.parts] using ⟨hlt.trans_le hgrows'.le, hlt'⟩)
  | op o a b iha ihb =>
      obtain ⟨hwell, hgrows, hlt⟩ := iha h hσ
      obtain ⟨hwell', hgrows', hlt'⟩ := ihb hwell fun v i hv => (hσ v i hv).trans_le hgrows.le
      exact hadd hwell' (hgrows.trans hgrows') (.op o _ _) (by simpa [Layer.parts] using ⟨hlt.trans_le hgrows'.le, hlt'⟩)

end Settle

section Relocate

/-- What looking up stale nodes may still cost: every merge makes stale no more than all uses. -/
def backlog (g : EGraph L) : Nat := g.stale.length + g.load * g.leaders.card

theorem Coherent.backlog_le (h : Coherent g) :
    g.backlog ≤ g.stale.length + 2 * g.leader.size * g.leader.size + 1 := by
  have hcard : g.leaders.card ≤ g.leader.size := by
    simpa [leaders] using Finset.card_filter_le (Finset.range g.leader.size) fun i => g.root i = i
  have hmul := Nat.mul_le_mul h.load_le hcard
  unfold backlog
  omega

theorem backlog_absorb (h : CoherentUpTo k l g) (hi : i ∈ g.leaders) (hj : j ∈ g.leaders) (hij : i ≠ j) :
    (g.absorb i j).backlog ≤ g.backlog := by
  have huses : (g.usesOf j).size ≤ g.load := by
    rw [EGraph.usesOf, (mem_leaders.1 hj).2]
    exact Finset.single_le_sum (f := fun k => (g.uses.getD k #[]).size) (fun _ _ => Nat.zero_le _) hj
  have hcard := Finset.card_erase_add_one hj
  rw [backlog, backlog, stale_absorb, load_absorb hi hj hij (h.uses_size ▸ (mem_leaders.1 hi).1),
    leaders_absorb hi hj hij, ← hcard, Nat.mul_succ]
  simp only [List.length_append, List.length_reverse, Array.length_toList]
  omega

variable [PartialEquivBEq L] [LawfulHashable L]

theorem WellFormed.relocate (h : WellFormed g) {rest : List (Node L × Nat)} (hstale : g.stale = a :: rest) :
    Settles g (relocate { g with stale := rest } a) ∧ (relocate { g with stale := rest } a).backlog < g.backlog := by
  have hcoherent := h.coherent
  have hi : a.2 < g.leader.size := hcoherent.lt_of_has (hcoherent.stale a (hstale ▸ List.mem_cons_self))
  have hj : (g.table[g.canonical a.1]?).getD a.2 < g.leader.size := by
    cases hk : g.table[g.canonical a.1]? with
    | none => exact hi
    | some k => exact hcoherent.lt_of_has (hcoherent.table _ k hk (hcoherent.grows.canonical a.1))
  have hupTo := hcoherent.reentered hstale
  have hgrows : Grows g (g.reentered a rest) := ⟨le_rfl, hcoherent.root_root, hcoherent.grows.nodes⟩
  have hbacklog : (g.reentered a rest).backlog + 1 = g.backlog := by
    rw [backlog, backlog, hstale, List.length_cons, Nat.add_right_comm]
    rfl
  rw [relocate_eq]
  refine ⟨⟨⟨hupTo.union hj hi, hupTo.settled_union hj hi ?_ fun k _ _ => h.settled k⟩,
    hgrows.trans (hupTo.grows_union hj hi), Finset.card_le_card (hupTo.unknown_union hj hi)⟩, ?_⟩
  · exact Or.imp (h.settled _) (h.settled _)
  · obtain ⟨-, heq⟩ | ⟨k, l, hk, hl, hkl, -, heq⟩ := hupTo.union_cases hj hi <;> rw [heq]
    · omega
    · have hle := backlog_absorb hupTo hk hl hkl
      omega

theorem WellFormed.relocateAll (h : WellFormed g) {fuel : Nat} (hfuel : g.backlog ≤ fuel) :
    Settles g (relocateAll fuel g) ∧ (relocateAll fuel g).stale = [] := by
  induction fuel generalizing g with
  | zero =>
      have hlength : g.stale.length = 0 := by
        unfold backlog at hfuel
        omega
      exact ⟨h.settles, List.length_eq_zero_iff.1 hlength⟩
  | succ fuel ih =>
      unfold EGraph.relocateAll
      split
      · next hstale => exact ⟨h.settles, hstale⟩
      · next entry rest hstale =>
        obtain ⟨hsettles, hlt⟩ := h.relocate hstale
        obtain ⟨hsettles', hstale'⟩ := ih hsettles.wellFormed (by omega)
        exact ⟨hsettles.trans hsettles', hstale'⟩

end Relocate

/-- A graph becomes another one, and is not the same any more only if some class has got a value. -/
structure Evaluates (g g' : EGraph L) : Prop extends Settles g g' where
  progress : g' = g ∨ g'.unknown.card < g.unknown.card

section Evaluate

def recorded (g : EGraph L) (i : Nat) (x : L) : EGraph L :=
  { g with
    values := g.values.setIfInBounds (g.root i) (some x)
    awaiting := g.awaiting ++ g.usesOf i }

theorem value?_recorded (h : Coherent g) (hi : i < g.leader.size) (x : L) (k : Nat) :
    (g.recorded i x).value? k = if g.root k = g.root i then some x else g.value? k := by
  have hvalues : (g.recorded i x).value? k = (g.values.setIfInBounds (g.root i) (some x)).getD (g.root k) none := rfl
  rw [hvalues]
  by_cases hk : g.root k = g.root i
  · have hlt : g.root i < g.values.size := h.values_size ▸ h.root_lt i hi
    rw [if_pos hk, hk]
    simp [hlt]
  · rw [if_neg hk]
    exact (getD_setIfInBounds ..).resolve_right fun hor => hk hor.1

theorem Coherent.recorded (h : Coherent g) (i : Nat) (x : L) : Coherent (g.recorded i x) := by
  refine { h with values_size := by simpa [EGraph.recorded] using h.values_size, awaiting := fun a ha => ?_ }
  rcases Array.mem_append.1 ha with ha | ha
  · exact h.awaiting a ha
  · exact h.uses _ a ha

theorem card_unknown_recorded (h : Coherent g) (hi : i < g.leader.size) (hnone : g.value? i = none) (x : L) :
    (g.recorded i x).unknown.card < g.unknown.card := by
  have hmem : g.root i ∈ g.unknown :=
    mem_unknown.2 ⟨h.root_mem hi, (value?_congr (h.root_root i)).trans hnone⟩
  have hne {k : Nat} (hk : k ∈ (g.recorded i x).unknown) : k ∈ g.leaders ∧ g.root k ≠ g.root i ∧ g.value? k = none := by
    obtain ⟨hk, hvalue⟩ := mem_unknown.1 hk
    rw [value?_recorded h hi] at hvalue
    split at hvalue
    · cases hvalue
    · next hne => exact ⟨hk, hne, hvalue⟩
  refine Finset.card_lt_card ((Finset.ssubset_iff_of_subset fun k hk => ?_).2 ⟨_, hmem, fun hk => ?_⟩)
  · exact mem_unknown.2 ⟨(hne hk).1, (hne hk).2.2⟩
  · exact (hne hk).2.1 (h.root_root i)

theorem WellFormed.evaluates (h : WellFormed g) : Evaluates g g := ⟨h.settles, .inl rfl⟩

variable [PartialEquivBEq L]

theorem Evaluates.trans (h : Evaluates g g') (h' : Evaluates g' g'') : Evaluates g g'' := by
  refine ⟨h.toSettles.trans h'.toSettles, ?_⟩
  rcases h.progress with rfl | hlt
  · exact h'.progress
  · exact .inr (h'.unknown_le.trans_lt hlt)

variable [LawfulHashable L]

theorem WellFormed.evaluate (h : WellFormed g) (ha : g.Has a) : Evaluates g (g.evaluate a) := by
  obtain ⟨n, i⟩ := a
  have hcoherent := h.coherent
  have hi : i < g.leader.size := hcoherent.lt_of_has ha
  unfold EGraph.evaluate
  dsimp only
  split
  · next x hnone _ =>
    have hgrows : Grows g (g.recorded i x) := ⟨le_rfl, hcoherent.root_root, hcoherent.grows.nodes⟩
    have hlt := card_unknown_recorded hcoherent hi hnone x
    have hsettles : Settles (g.recorded i x) ((g.recorded i x).settle i) := by
      refine (hcoherent.recorded i x).settle hi fun k hk hsome => h.settled k ?_
      have hk : g.root k ≠ g.root i := hk
      rwa [value?_recorded hcoherent hi, if_neg hk] at hsome
    exact ⟨⟨hsettles.wellFormed, hgrows.trans hsettles.grows, hsettles.unknown_le.trans hlt.le⟩,
      .inr (hsettles.unknown_le.trans_lt hlt)⟩
  · exact h.evaluates

theorem WellFormed.evaluateEach (h : WellFormed g) {entries : List (Node L × Nat)} (hentries : ∀ a ∈ entries, g.Has a) :
    Evaluates g (entries.foldl EGraph.evaluate g) := by
  induction entries generalizing g with
  | nil => exact h.evaluates
  | cons entry entries ih =>
      have hfirst := h.evaluate (hentries entry List.mem_cons_self)
      exact hfirst.trans (ih hfirst.wellFormed fun a ha => (hentries a (List.mem_cons_of_mem _ ha)).mono hfirst.grows)

theorem WellFormed.evaluateBatch (h : WellFormed g) :
    Evaluates { g with awaiting := #[] } (g.awaiting.foldl EGraph.evaluate { g with awaiting := #[] }) := by
  have hstart : WellFormed { g with awaiting := #[] } := ⟨{ h.coherent with awaiting := by simp }, h.settled⟩
  rw [← Array.foldl_toList]
  exact hstart.evaluateEach fun a ha => h.coherent.awaiting a (by simpa using ha)

theorem WellFormed.evaluateAll (h : WellFormed g) (fuel : Nat) (hfuel : g.unknown.card < fuel) :
    Settles g (evaluateAll fuel g) ∧ (evaluateAll fuel g).awaiting = #[] ∧
      ((evaluateAll fuel g).stale = g.stale ∨ (evaluateAll fuel g).unknown.card < g.unknown.card) := by
  induction fuel generalizing g with
  | zero => omega
  | succ fuel ih =>
      unfold EGraph.evaluateAll
      split
      · next hempty => exact ⟨h.settles, by simpa using hempty, .inl rfl⟩
      · have hbatch := h.evaluateBatch
        have hgrows : Grows g { g with awaiting := #[] } := ⟨le_rfl, h.coherent.root_root, h.coherent.grows.nodes⟩
        have hsettles : Settles g (g.awaiting.foldl EGraph.evaluate { g with awaiting := #[] }) :=
          ⟨hbatch.wellFormed, hgrows.trans hbatch.grows, hbatch.unknown_le⟩
        rcases hbatch.progress with heq | hlt
        · rw [heq] at hsettles ⊢
          have hdone : EGraph.evaluateAll fuel { g with awaiting := #[] } = { g with awaiting := #[] } := by
            cases fuel <;> simp [EGraph.evaluateAll]
          rw [hdone]
          exact ⟨hsettles, rfl, .inl rfl⟩
        · have hlt : _ < g.unknown.card := hlt
          obtain ⟨hsettles', hawaiting, hprogress⟩ := ih hsettles.wellFormed (by omega)
          exact ⟨hsettles.trans hsettles', hawaiting, .inr (hsettles'.unknown_le.trans_lt hlt)⟩

end Evaluate

section Rebuild

theorem card_unknown_le (g : EGraph L) : g.unknown.card ≤ g.leader.size := by
  refine (Finset.card_filter_le _ _).trans ?_
  simpa [leaders] using Finset.card_filter_le (Finset.range g.leader.size) fun i => g.root i = i

variable [PartialEquivBEq L] [LawfulHashable L]

theorem WellFormed.propagate (h : WellFormed g) (fuel : Nat)
    (hfuel : g.unknown.card + 1 < fuel ∨ g.stale = [] ∧ g.awaiting = #[]) :
    Settles g (propagate fuel g) ∧ (propagate fuel g).stale = [] ∧ (propagate fuel g).awaiting = #[] := by
  induction fuel generalizing g with
  | zero =>
      obtain ⟨hstale, hawaiting⟩ := hfuel.resolve_left (Nat.not_lt_zero _)
      exact ⟨h.settles, hstale, hawaiting⟩
  | succ fuel ih =>
      unfold EGraph.propagate
      split
      · next hempty =>
        rw [Bool.and_eq_true, List.isEmpty_iff, Array.isEmpty_iff] at hempty
        exact ⟨h.settles, hempty⟩
      · next hempty =>
        have hcard : g.unknown.card + 1 < fuel + 1 := hfuel.resolve_right fun hor => hempty (by simp [hor])
        have hle := card_unknown_le g
        obtain ⟨hlookup, hstale⟩ := h.relocateAll h.coherent.backlog_le
        have hle' := hlookup.unknown_le
        obtain ⟨hevaluate, hawaiting, hprogress⟩ := hlookup.wellFormed.evaluateAll (g.leader.size + 1) (by omega)
        have hboth := hlookup.trans hevaluate
        have hnext := ih hboth.wellFormed <| by
          rcases hprogress with heq | hlt
          · exact .inr ⟨heq.trans hstale, hawaiting⟩
          · exact .inl (by omega)
        exact ⟨hboth.trans hnext.1, hnext.2⟩

/-- Entries stand over their current classes, and nothing is left to look at again. -/
structure Restored (g : EGraph L) : Prop extends WellFormed g where
  nodes : ∀ a ∈ g.nodes, g.root a.2 = a.2 ∧ g.canonical a.1 = a.1
  stale : g.stale = []
  awaiting : g.awaiting = #[]

theorem WellFormed.rebuild (h : WellFormed g) : Restored g.rebuild ∧ Grows g g.rebuild := by
  have hle := card_unknown_le g
  obtain ⟨hsettles, hstale, hawaiting⟩ := h.propagate (2 * g.leader.size + 2) (.inl (by omega))
  obtain ⟨hcoherent, hgrows⟩ := hsettles.wellFormed.coherent.distinct hstale
  have hsettled : Settled (EGraph.rebuild g) := fun i hi => (hsettles.wellFormed.settled i hi).mono hgrows
  refine ⟨⟨⟨hcoherent, hsettled⟩, fun a ha => ?_, hstale, hawaiting⟩, hsettles.grows.trans hgrows⟩
  obtain ⟨b, -, rfl⟩ := mem_distinct ha
  exact ⟨hsettles.wellFormed.coherent.root_root _, hsettles.wellFormed.coherent.grows.canonical _⟩

theorem WellFormed.unknown_rebuild (h : WellFormed g) : g.rebuild.unknown.card ≤ g.unknown.card := by
  have hle := card_unknown_le g
  exact (h.propagate (2 * g.leader.size + 2) (.inl (by omega))).1.unknown_le

end Rebuild

section Explore

variable [PartialEquivBEq L] [LawfulHashable L]

theorem WellFormed.empty : WellFormed ({} : EGraph L) := by
  refine ⟨?_, fun i hi => ?_⟩
  · constructor <;> simp [EGraph.root, load, leaders]
  · simp [EGraph.value?] at hi

theorem WellFormed.applyMatch (h : WellFormed g) (rule : Rule L) {found : Nat × Assignment} (hlt : found.1 < g.leader.size)
    (hbelow : Assignment.Below found.2 g.leader.size) (changed : Bool) :
    WellFormed (applyMatch rule (g, changed) found).1 ∧ Grows g (applyMatch rule (g, changed) found).1 := by
  obtain ⟨hwell, hgrows, hnew⟩ := h.addExpr hbelow rule.rhs
  unfold EGraph.applyMatch
  dsimp only
  split
  · split
    · exact ⟨hwell, hgrows⟩
    · have hunion := hwell.union (hlt.trans_le hgrows.le) hnew
      exact ⟨hunion.wellFormed, hgrows.trans hunion.grows⟩
  · exact ⟨h, h.coherent.grows⟩

theorem WellFormed.applyChosen (h : WellFormed g) {chosen : List (Rule L × Nat × Assignment)}
    (hchosen : ∀ m ∈ chosen, m.2.1 < g.leader.size ∧ Assignment.Below m.2.2 g.leader.size) :
    WellFormed (chosen.foldl (fun g m => (EGraph.applyMatch m.1 (g, false) m.2).1) g) ∧
      Grows g (chosen.foldl (fun g m => (EGraph.applyMatch m.1 (g, false) m.2).1) g) := by
  induction chosen generalizing g with
  | nil => exact ⟨h, h.coherent.grows⟩
  | cons m chosen ih =>
      obtain ⟨hlt, hbelow⟩ := hchosen m List.mem_cons_self
      obtain ⟨hwell, hgrows⟩ := h.applyMatch m.1 hlt hbelow false
      obtain ⟨hwell', hgrows'⟩ := ih hwell fun m' hm' => by
        obtain ⟨hlt, hbelow⟩ := hchosen m' (List.mem_cons_of_mem _ hm')
        exact ⟨hlt.trans_le hgrows.le, fun v i hi => (hbelow v i hi).trans_le hgrows.le⟩
      exact ⟨hwell', hgrows.trans hgrows'⟩

theorem Explores.restored {rules : List (Rule L)} (hg : Explores rules g g') (h : Restored g) :
    Restored g' ∧ Grows g g' := by
  induction hg with
  | start => exact ⟨h, h.coherent.grows⟩
  | @round g' chosen _ hchosen ih =>
      obtain ⟨h', hgrows⟩ := ih
      have hparts : ∀ entry ∈ g'.entries, ∀ k ∈ entry.1.parts, k < g'.leader.size := fun entry he =>
        (h'.coherent.nodes entry (Array.mem_filter.1 he).1).2
      have hnil : Assignment.Below [] g'.leader.size := by simp [Assignment.Below, Assignment.get?]
      obtain ⟨hwell, hgrows'⟩ := h'.toWellFormed.applyChosen fun m hm =>
        ⟨(hchosen m hm).2.1, (matches_of_mem_matchClass (hchosen m hm).2.2).assigns_below hparts (hchosen m hm).2.1 hnil⟩
      obtain ⟨hrestored, hgrows''⟩ := hwell.rebuild
      exact ⟨hrestored, (hgrows.trans hgrows').trans hgrows''⟩

end Explore

end FlowShader.EGraph
