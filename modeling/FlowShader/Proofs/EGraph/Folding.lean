import FlowShader.Proofs.EGraph.Names
import FlowShader.Proofs.EGraph.Rebuild

namespace FlowShader

namespace Expr

variable {L : Type} [Literal L]

/-- The value of a formula, if it has no variables and nothing that is computed on the way is infinite. -/
def folded? : Expr L → Option L
  | literal x => Layer.fold? (.literal x)
  | constant c => Layer.fold? (.constant c)
  | var v => Layer.fold? (.var v)
  | call f a => Layer.fold? (.call f a.folded?)
  | call₂ f a b => Layer.fold? (.call₂ f a.folded? b.folded?)
  | op o a b => Layer.fold? (.op o a.folded? b.folded?)

end Expr

theorem Layer.isSome_of_fold? {L : Type} [Literal L] {n : Layer L (Option L)} (h : n.fold?.isSome = true) :
    ∀ x ∈ n.parts, x.isSome = true := by
  cases n with
  | literal | constant | var => simp [parts]
  | call f a => cases a <;> simp_all [parts, fold?]
  | call₂ f a b | op f a b => cases a <;> cases b <;> simp_all [parts, fold?]

namespace EGraph

variable {L : Type} [Literal L] {g g' : EGraph L} {a : Node L × Nat} {n : Node L} {i j k : Nat}

/-- Every node has the value that folds from the values of its parts. -/
def Folds (g : EGraph L) : Prop := ∀ a ∈ g.nodes, g.value? a.2 = g.fold? a.1

def Retains (g g' : EGraph L) : Prop := ∀ i < g.leader.size, g'.value? i = g.value? i

section Values

theorem Retains.fold? (h : Retains g g') (hparts : ∀ k ∈ n.parts, k < g.leader.size) : g'.fold? n = g.fold? n :=
  congrArg Layer.fold? (Layer.map_congr fun k hk => h k (hparts k hk))

theorem Retains.trans {g'' : EGraph L} (h : Retains g g') (h' : Retains g' g'')
    (hsize : g.leader.size ≤ g'.leader.size) : Retains g g'' := fun i hi => (h' i (hi.trans_le hsize)).trans (h i hi)

theorem CoherentUpTo.value?_union (h : CoherentUpTo i j g) (hi : i < g.leader.size) (hj : j < g.leader.size)
    (hvalue : g.value? i = g.value? j) (k : Nat) : (g.union i j).value? k = g.value? k := by
  obtain ⟨-, heq⟩ | ⟨c, d, hc, hd, -, hjoin, heq⟩ := h.union_cases hi hj <;> rw [heq]
  have hleader {c l : Nat} (hc : c ∈ g.leaders) (hl : g.root l = c) : g.value? c = g.value? l :=
    value?_congr ((mem_leaders.1 hc).2.trans hl.symm)
  have hcd : g.value? c = g.value? d := by
    rcases hjoin with ⟨hic, hjd⟩ | ⟨hid, hjc⟩
    · rw [hleader hc hic, hleader hd hjd, hvalue]
    · rw [hleader hc hjc, hleader hd hid, hvalue]
  rw [value?_absorb hc hd h.values_size, hcd, Option.or_self]
  split
  · next hk => exact hk.elim (fun hk => hcd ▸ hleader hc hk) (hleader hd)
  · rfl

variable [LawfulBEq L]

theorem Folds.has (h : Folds g) (hg : Coherent g) (ha : g.Has a) : g.value? a.2 = g.fold? a.1 := by
  obtain ⟨b, hb, hbeq, hroot⟩ := ha
  rw [← value?_congr hroot, h b hb, ← hg.fold?_canonical, eq_of_beq hbeq, hg.fold?_canonical]

theorem Folds.of_has (h : Folds g) (hg : Coherent g) (hnodes : ∀ a ∈ g'.nodes, g.Has a)
    (hvalue : ∀ k, g'.value? k = g.value? k) : Folds g' := by
  intro a ha
  rw [hvalue, h.has hg (hnodes a ha)]
  exact congrArg Layer.fold? (Layer.map_congr fun k _ => (hvalue k).symm)

theorem Folds.union (h : Folds g) (hg : Coherent g) (hi : i < g.leader.size) (hj : j < g.leader.size)
    (hvalue : g.value? i = g.value? j) : Folds (g.union i j) :=
  h.of_has hg (fun _ ha => has_of_mem (nodes_union g i j ▸ ha))
    ((hg.congr rfl : CoherentUpTo i j g).value?_union hi hj hvalue)

end Values

section Enter

variable [LawfulBEq L]

theorem Folds.enter (h : Folds g) (hg : Coherent g) (hparts : ∀ k ∈ n.parts, k < g.leader.size) :
    Folds (g.enter n).2 ∧ Retains g (g.enter n).2 ∧ (g.enter n).2.value? (g.enter n).1 = g.fold? n := by
  obtain ⟨k, hk, heq⟩ | ⟨-, heq⟩ := enter_cases g n <;> rw [heq]
  · refine ⟨h, fun _ _ => rfl, ?_⟩
    rw [value?_congr (hg.root_root k), h.has hg (hg.table _ k hk (hg.grows.canonical n)), hg.fold?_canonical]
  · have hretains : Retains g (g.grown (g.canonical n)) := by
      intro i hi
      rw [value?_grown hg, if_neg hi.ne]
    have hcanonical : ∀ k ∈ (g.canonical n).parts, k < g.leader.size := fun k hk =>
      (mem_leaders.1 (hg.parts_canonical hparts k hk)).1
    have hnew : (g.grown (g.canonical n)).value? g.leader.size = g.fold? (g.canonical n) := by
      rw [value?_grown hg, if_pos rfl]
    refine ⟨fun a ha => ?_, hretains, hnew.trans (hg.fold?_canonical n)⟩
    rcases Array.mem_push.1 ha with ha | rfl
    · obtain ⟨hlt, hparts⟩ := hg.nodes a ha
      rw [hretains _ hlt, hretains.fold? hparts, h a ha]
    · exact hnew.trans (hretains.fold? hcanonical).symm

/-- The literal of a value is in the class already, or has the same value. -/
theorem Folds.settle (h : Folds g) (hg : Coherent g) (hi : i < g.leader.size) :
    Folds (g.settle i) ∧ Retains g (g.settle i) := by
  unfold EGraph.settle
  cases hvalue : g.value? i with
  | none => exact ⟨h, fun _ _ => rfl⟩
  | some x =>
      obtain ⟨hcoherent, hgrows, hhas⟩ := hg.enter (n := .literal x) (by simp [Layer.parts])
      obtain ⟨hfolds, hretains, hliteral⟩ := h.enter hg (n := .literal x) (by simp [Layer.parts])
      have hi' := hi.trans_le hgrows.le
      have hj := hcoherent.lt_of_has hhas
      have hsame : (g.enter (.literal x)).2.value? i = (g.enter (.literal x)).2.value? (g.enter (.literal x)).1 := by
        rw [hretains i hi, hvalue, hliteral]
        rfl
      refine ⟨hfolds.union hcoherent hi' hj hsame, fun k hk => ?_⟩
      have hupTo : CoherentUpTo i (g.enter (.literal x)).1 (g.enter (.literal x)).2 := hcoherent.congr rfl
      exact (hupTo.value?_union hi' hj hsame k).trans (hretains k hk)

/-- What it is to add something of this value to a graph, in class `i`. -/
structure Gains (g : EGraph L) (i : Nat) (x : Option L) (g' : EGraph L) : Prop where
  wellFormed : WellFormed g'
  grows : Grows g g'
  lt : i < g'.leader.size
  folds : Folds g'
  retains : Retains g g'
  value : g'.value? i = x
  unknown_le : x.isSome = true → g'.unknown.card ≤ g.unknown.card

theorem Gains.trans {g'' : EGraph L} {x y : Option L} (h : Gains g i x g') (h' : Gains g' j y g'')
    (hvalue : y.isSome = true → x.isSome = true) : Gains g j y g'' where
  wellFormed := h'.wellFormed
  grows := h.grows.trans h'.grows
  lt := h'.lt
  folds := h'.folds
  retains := h.retains.trans h'.retains h.grows.le
  value := h'.value
  unknown_le hy := (h'.unknown_le hy).trans (h.unknown_le (hvalue hy))

theorem Folds.add (h : Folds g) (hg : WellFormed g) (hparts : ∀ k ∈ n.parts, k < g.leader.size) :
    Gains g (g.add n).1 (g.fold? n) (g.add n).2 := by
  obtain ⟨hcoherent, hgrows, hhas⟩ := hg.coherent.enter hparts
  obtain ⟨hfolds, hretains, hvalue⟩ := h.enter hg.coherent hparts
  have hlt := hcoherent.lt_of_has hhas
  obtain ⟨hfolds', hretains'⟩ := hfolds.settle hcoherent hlt
  have hsettles := hg.settle_enter hparts
  refine ⟨hsettles.wellFormed, hgrows.trans hsettles.grows, hlt.trans_le hsettles.grows.le, hfolds',
    hretains.trans hretains' hgrows.le, (hretains' _ hlt).trans hvalue, fun hsome => ?_⟩
  exact hsettles.unknown_le.trans (Finset.card_le_card (unknown_enter hg.coherent hsome))

theorem Gains.pair {g'' : EGraph L} {x y : Option L} (ha : Gains g i x g') (hb : Gains g' j y g'')
    (n : ∀ α : Type, α → α → Layer L α) (hmap : ∀ f, (n Nat i j).map f = n (Option L) (f i) (f j))
    (hparts : ∀ α a b, (n α a b).parts = [a, b]) :
    Gains g (g''.add (n Nat i j)).1 (n (Option L) x y).fold? (g''.add (n Nat i j)).2 := by
  have hi := ha.lt.trans_le hb.grows.le
  have hadd := hb.folds.add hb.wellFormed (n := n Nat i j) (by simpa [hparts] using ⟨hi, hb.lt⟩)
  rw [EGraph.fold?, hmap, hb.retains i ha.lt, ha.value, hb.value] at hadd
  have hsome (hfold : (n (Option L) x y).fold?.isSome = true) := Layer.isSome_of_fold? hfold
  simp only [hparts, List.forall_mem_cons] at hsome
  exact ha.trans (hb.trans hadd fun hfold => (hsome hfold).2.1) fun hfold => (hsome hfold).1

theorem Folds.addExpr (h : Folds g) (hg : WellFormed g) (e : Expr L) :
    Gains g (g.addExpr (fun _ => none) e).1 e.folded? (g.addExpr (fun _ => none) e).2 := by
  induction e generalizing g with
  | literal x | constant c | var v => exact h.add hg (by simp [Layer.parts])
  | call f a ih =>
      have ha := ih h hg
      have hadd := ha.folds.add ha.wellFormed (n := .call f _) (by simpa [Layer.parts] using ha.lt)
      rw [EGraph.fold?, Layer.map, ha.value] at hadd
      exact ha.trans hadd fun hfold => Layer.isSome_of_fold? hfold _ (by simp [Layer.parts])
  | call₂ f a b iha ihb =>
      have ha := iha h hg
      exact ha.pair (ihb ha.folds ha.wellFormed) (fun _ => .call₂ f) (fun _ => rfl) fun _ _ _ => rfl
  | op o a b iha ihb =>
      have ha := iha h hg
      exact ha.pair (ihb ha.folds ha.wellFormed) (fun _ => .op o) (fun _ => rfl) fun _ _ _ => rfl

end Enter

section Rebuild

variable [LawfulBEq L]

theorem Folds.relocate (h : Folds g) (hg : WellFormed g) {rest : List (Node L × Nat)} (hstale : g.stale = a :: rest) :
    Folds (relocate { g with stale := rest } a) ∧ Retains g (relocate { g with stale := rest } a) := by
  have hhas : g.Has a := hg.coherent.stale a (hstale ▸ List.mem_cons_self)
  have hi : a.2 < g.leader.size := hg.coherent.lt_of_has hhas
  obtain ⟨hj, hvalue⟩ : (g.table[g.canonical a.1]?).getD a.2 < g.leader.size ∧
      g.value? ((g.table[g.canonical a.1]?).getD a.2) = g.value? a.2 := by
    cases hk : g.table[g.canonical a.1]? with
    | none => exact ⟨hi, rfl⟩
    | some k =>
        have hk := hg.coherent.table _ k hk (hg.coherent.grows.canonical a.1)
        refine ⟨hg.coherent.lt_of_has hk, (h.has hg.coherent hk).trans ?_⟩
        rw [h.has hg.coherent hhas, hg.coherent.fold?_canonical]
  have hsame := (hg.coherent.reentered hstale).value?_union hj hi hvalue
  rw [relocate_eq]
  exact ⟨h.of_has hg.coherent (fun _ ha => has_of_mem (nodes_union (g.reentered a rest) _ _ ▸ ha)) hsame,
    fun k _ => hsame k⟩

theorem Folds.relocateAll (h : Folds g) (hg : WellFormed g) (fuel : Nat) :
    Folds (relocateAll fuel g) ∧ Retains g (relocateAll fuel g) := by
  induction fuel generalizing g with
  | zero => exact ⟨h, fun _ _ => rfl⟩
  | succ fuel ih =>
      unfold EGraph.relocateAll
      split
      · exact ⟨h, fun _ _ => rfl⟩
      · next entry rest hstale =>
        have hsettles := (hg.relocate hstale).1
        obtain ⟨hfolds, hretains⟩ := h.relocate hg hstale
        obtain ⟨hfolds', hretains'⟩ := ih hfolds hsettles.wellFormed
        exact ⟨hfolds', hretains.trans hretains' hsettles.grows.le⟩

theorem Folds.evaluate (h : Folds g) (hg : Coherent g) (ha : g.Has a) : g.evaluate a = g := by
  have hvalue := h.has hg ha
  unfold EGraph.evaluate
  dsimp only
  split
  · next hnone hsome =>
    rw [hnone, hsome] at hvalue
    cases hvalue
  · rfl

theorem Folds.evaluateEach (h : Folds g) (hg : Coherent g) {entries : List (Node L × Nat)}
    (hentries : ∀ a ∈ entries, g.Has a) : entries.foldl EGraph.evaluate g = g := by
  induction entries with
  | nil => rfl
  | cons entry entries ih =>
      rw [List.foldl_cons, h.evaluate hg (hentries entry List.mem_cons_self)]
      exact ih fun a ha => hentries a (List.mem_cons_of_mem _ ha)

theorem Folds.evaluateAll (h : Folds g) (hg : Coherent g) (fuel : Nat) :
    Folds (evaluateAll fuel g) ∧ Retains g (evaluateAll fuel g) := by
  induction fuel generalizing g with
  | zero => exact ⟨h, fun _ _ => rfl⟩
  | succ fuel ih =>
      unfold EGraph.evaluateAll
      split
      · exact ⟨h, fun _ _ => rfl⟩
      · have hquiet : Coherent { g with awaiting := #[] } := { hg with awaiting := by simp }
        have hfolds : Folds { g with awaiting := #[] } := h
        have hbatch : g.awaiting.toList.foldl EGraph.evaluate { g with awaiting := #[] } = { g with awaiting := #[] } :=
          hfolds.evaluateEach hquiet fun a ha => hg.awaiting a (by simpa using ha)
        rw [← Array.foldl_toList, hbatch]
        exact ih hfolds hquiet

theorem Folds.propagate (h : Folds g) (hg : WellFormed g) (fuel : Nat) :
    Folds (propagate fuel g) ∧ Retains g (propagate fuel g) := by
  induction fuel generalizing g with
  | zero => exact ⟨h, fun _ _ => rfl⟩
  | succ fuel ih =>
      unfold EGraph.propagate
      split
      · exact ⟨h, fun _ _ => rfl⟩
      · have hle := card_unknown_le g
        obtain ⟨hlookup, -⟩ := hg.relocateAll hg.coherent.backlog_le
        have hle' := hlookup.unknown_le
        obtain ⟨hevaluate, -, -⟩ := hlookup.wellFormed.evaluateAll (g.leader.size + 1) (by omega)
        obtain ⟨hfolds, hretains⟩ := h.relocateAll hg (g.stale.length + 2 * g.leader.size * g.leader.size + 1)
        obtain ⟨hfolds', hretains'⟩ := hfolds.evaluateAll hlookup.wellFormed.coherent (g.leader.size + 1)
        obtain ⟨hfolds'', hretains''⟩ := ih hfolds' hevaluate.wellFormed
        exact ⟨hfolds'', (hretains.trans hretains' hlookup.grows.le).trans hretains''
          (hlookup.grows.trans hevaluate.grows).le⟩

theorem Folds.rebuild (h : Folds g) (hg : WellFormed g) : Folds g.rebuild ∧ Retains g g.rebuild := by
  have hle := card_unknown_le g
  have hwell := (hg.propagate (2 * g.leader.size + 2) (.inl (by omega))).1.wellFormed
  obtain ⟨hfolds, hretains⟩ := h.propagate hg (2 * g.leader.size + 2)
  refine ⟨hfolds.of_has hwell.coherent (fun a ha => ?_) fun _ => rfl, hretains⟩
  obtain ⟨b, hb, rfl⟩ := mem_distinct ha
  exact (has_of_mem hb).congr (hwell.coherent.alike_current b).symm

end Rebuild

section Complete

/-- Every class has a value, and it is the one that all its nodes fold to. -/
structure Complete (g : EGraph L) : Prop extends WellFormed g where
  folds : Folds g
  unknown : g.unknown = ∅

theorem Complete.exists_value (h : Complete g) (hi : i < g.leader.size) : ∃ x, g.value? i = some x := by
  rw [← Option.ne_none_iff_exists']
  intro hnone
  have hmem : g.root i ∈ g.unknown :=
    mem_unknown.2 ⟨h.coherent.root_mem hi, (value?_congr (h.coherent.root_root i)).trans hnone⟩
  simp [h.unknown] at hmem

theorem Complete.isLeaf (h : Complete g) (ha : a ∈ g.entries) : a.1.isLeaf = true := by
  obtain ⟨hmem, hentry⟩ := Array.mem_filter.1 ha
  obtain ⟨x, hx⟩ := h.exists_value (h.coherent.nodes a hmem).1
  simpa [hx] using hentry

theorem Gains.complete {x : L} (h : Gains g i (some x) g') (hg : Complete g) : Complete g' := by
  have hcard := h.unknown_le rfl
  rw [hg.unknown, Finset.card_empty] at hcard
  exact ⟨h.wellFormed, h.folds, Finset.card_eq_zero.1 (Nat.le_zero.1 hcard)⟩

theorem lhs_not_leaf : ∀ r ∈ (Rule.all : List (Rule L)),
    (∃ f p, r.lhs = .call f p) ∨ (∃ f p q, r.lhs = .call₂ f p q) ∨ ∃ o p q, r.lhs = .op o p q := by
  simp [Rule.all, Rule.commutativity, Rule.identities, Rule.negation, Rule.collection, Rule.powers, Rule.association,
    Rule.trigonometry, Rule.plus, Rule.minus, Rule.times, Rule.quotient, Rule.power, Rule.opposite]

theorem Complete.not_matches (h : Complete g) {r : Rule L} (hr : r ∈ Rule.all) {σ σ' : Assignment} :
    ¬ Matches g g.members r.lhs i σ σ' := by
  intro hmatches
  obtain ⟨f, p, hlhs⟩ | ⟨f, p, q, hlhs⟩ | ⟨o, p, q, hlhs⟩ := lhs_not_leaf r hr <;> rw [hlhs] at hmatches
  · cases hmatches with
    | call hmem _ => cases h.isLeaf (mem_members hmem)
  · cases hmatches with
    | call₂ hmem _ _ => cases h.isLeaf (mem_members hmem)
  · cases hmatches with
    | op hmem _ _ => cases h.isLeaf (mem_members hmem)

variable [LawfulBEq L]

theorem Complete.empty : Complete ({} : EGraph L) := by
  refine ⟨.empty, fun a ha => ?_, ?_⟩
  · simp at ha
  · simp [EGraph.unknown, leaders]

theorem Complete.rebuild (h : Complete g) : Complete g.rebuild ∧ Retains g g.rebuild := by
  obtain ⟨hfolds, hretains⟩ := h.folds.rebuild h.toWellFormed
  have hcard := h.unknown_rebuild
  rw [h.unknown, Finset.card_empty] at hcard
  exact ⟨⟨h.toWellFormed.rebuild.1.toWellFormed, hfolds, Finset.card_eq_zero.1 (Nat.le_zero.1 hcard)⟩, hretains⟩

theorem Complete.explores (h : Complete g) (hg : Explores Rule.all g g') :
    Complete g' ∧ Retains g g' ∧ g.leader.size ≤ g'.leader.size := by
  induction hg with
  | start => exact ⟨h, fun _ _ => rfl, le_rfl⟩
  | @round g' chosen _ hchosen ih =>
      obtain ⟨hcomplete, hretains, hle⟩ := ih
      obtain rfl : chosen = [] := List.eq_nil_iff_forall_not_mem.2 fun m hm =>
        hcomplete.not_matches (hchosen m hm).1 (matches_of_mem_matchClass (hchosen m hm).2.2)
      obtain ⟨hcomplete', hretains'⟩ := hcomplete.rebuild
      exact ⟨hcomplete', hretains.trans hretains' hle, hle.trans hcomplete.toWellFormed.rebuild.2.le⟩

end Complete

end EGraph

end FlowShader
