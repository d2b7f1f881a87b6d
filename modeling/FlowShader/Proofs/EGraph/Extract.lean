import FlowShader.Simplify
import FlowShader.Proofs.EGraph.Sound

namespace FlowShader

namespace EGraph

variable {L : Type} [Literal L]

/-- Chosen nodes are entries of their classes. -/
def Choice.From (entries : Array (Node L × Nat)) (choice : Choice L) : Prop :=
  ∀ i p n, choice.getD i none = some (p, n) → (n, i) ∈ entries

variable {entries : Array (Node L × Nat)} {choice : Choice L}

omit [Literal L] in
theorem Choice.From.set (h : choice.From entries) {i p : Nat} {n : Node L} (hn : (n, i) ∈ entries) :
    Choice.From entries (choice.setIfInBounds i (some (p, n))) := by
  intro k q m hk
  rcases getD_setIfInBounds choice i k (some (p, n)) none with heq | ⟨rfl, heq⟩
  · exact h k q m (heq ▸ hk)
  · obtain ⟨rfl, rfl⟩ : p = q ∧ n = m := by simpa [heq] using hk
    exact hn

omit [Literal L] in
theorem Choice.From.improve {state : Choice L × Bool} {entry : Node L × Nat} (h : state.1.From entries)
    (he : entry ∈ entries) : (EGraph.improve state entry).1.From entries := by
  unfold EGraph.improve
  dsimp only
  split
  · exact h
  · split
    · split
      · exact h.set he
      · exact h
    · exact h.set he

omit [Literal L] in
theorem Choice.From.improveAll (h : choice.From entries) (fuel : Nat) :
    (EGraph.improveAll entries fuel choice).From entries := by
  induction fuel generalizing choice with
  | zero => exact h
  | succ fuel ih =>
      have hpass : (entries.foldl EGraph.improve (choice, false)).1.From entries :=
        Array.foldl_induction (fun _ (state : Choice L × Bool) => state.1.From entries) h fun i state hstate =>
          hstate.improve (Array.getElem_mem _)
      unfold EGraph.improveAll
      split
      · next heq =>
        rw [heq] at hpass
        exact ih hpass
      · next heq =>
        rw [heq] at hpass
        exact hpass

theorem choose_from (g : EGraph L) : g.choose.From g.entries := by
  refine Choice.From.improveAll (fun i p n hn => ?_) _
  have hnone : (Array.replicate g.leader.size (none : Option (Nat × Node L))).getD i none = none := by
    rw [Array.getD_eq_getD_getElem?, Array.getElem?_replicate]
    split <;> rfl
  cases hnone.symm.trans hn

omit [Literal L] in
/-- What holds of a formula as soon as it holds of its parts, for every entry, holds of a tree of chosen
nodes. -/
theorem Choice.From.tree? {P : Nat → Expr L → Prop} (h : choice.From entries)
    (hstep : ∀ n i m (tree : Nat → Option (Expr L)), (n, i) ∈ entries → (∀ k e, tree k = some e → P k e) →
      (n.map tree).sequence? = some m → P i m.toExpr)
    {fuel i : Nat} {e : Expr L} (he : EGraph.tree? choice fuel i = some e) : P i e := by
  induction fuel generalizing i e with
  | zero => cases he
  | succ fuel ih =>
      obtain ⟨⟨p, n⟩, hn, he⟩ := Option.bind_eq_some_iff.1 he
      obtain ⟨parts, hparts, he⟩ := Option.bind_eq_some_iff.1 he
      obtain rfl := Option.some.inj he
      exact hstep n i parts _ (h i p n hn) (fun k e hk => ih hk) hparts

theorem Choice.From.extract? {g : EGraph L} {P : Nat → Expr L → Prop} (h : choice.From g.entries)
    (hstep : ∀ n i m (tree : Nat → Option (Expr L)), (n, i) ∈ g.entries → (∀ k e, tree k = some e → P k e) →
      (n.map tree).sequence? = some m → P i m.toExpr)
    {i : Nat} {e : Expr L} (he : g.extract? choice i = some e) : P (g.root i) e :=
  h.tree? hstep he

end EGraph

namespace Expr

variable {L : Type} [Literal L]

def enterNext (state : EGraph L × List (Expr L × Nat)) (e : Expr L) : EGraph L × List (Expr L × Nat) :=
  ((state.1.addExpr (fun _ => none) e).2, (e, (state.1.addExpr (fun _ => none) e).1) :: state.2)

theorem enterAll_eq (es : List (Expr L)) :
    enterAll {} es = ((es.foldl enterNext ({}, [])).1, (es.foldl enterNext ({}, [])).2.reverse) := rfl

theorem map_fst_enterAll (es : List (Expr L)) : (enterAll {} es).2.map (·.1) = es := by
  have hfold (es : List (Expr L)) (state : EGraph L × List (Expr L × Nat)) :
      (es.foldl enterNext state).2.reverse.map (·.1) = state.2.reverse.map (·.1) ++ es := by
    induction es generalizing state with
    | nil => simp
    | cons e es ih => simpa [enterNext] using ih (enterNext state e)
  rw [enterAll_eq]
  exact hfold es ({}, [])

/-- The formulas that a choice of nodes gives for their classes. -/
def readBack (g : EGraph L) (choice : EGraph.Choice L) (entered : List (Expr L × Nat)) : List (Expr L) :=
  entered.map fun (e, i) => (g.extract? choice i).getD e

theorem simplifyAll_eq (es : List (Expr L)) (effort : Effort) :
    simplifyAll es effort = if es.any hasNaN then es
      else readBack ((enterAll {} es).1.saturate effort Rule.all) ((enterAll {} es).1.saturate effort Rule.all).choose
        (enterAll {} es).2 := rfl

theorem length_simplifyAll (es : List (Expr L)) (effort : Effort) :
    (simplifyAll es effort).length = es.length := by
  rw [simplifyAll_eq]
  split
  · rfl
  · have hlength := congrArg List.length (map_fst_enterAll es)
    rw [List.length_map] at hlength
    rw [readBack, List.length_map, hlength]

end Expr

end FlowShader
