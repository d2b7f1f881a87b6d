import FlowShader.Proofs.EGraph.Extract
import FlowShader.Proofs.EGraph.Saturate
import FlowShader.Proofs.Expr.Names

namespace FlowShader

variable {L : Type} {names : List String}

namespace Layer

variable {α β : Type}

def Over (names : List String) : Layer L α → Prop
  | var v => v ∈ names
  | _ => True

theorem over_map {f : α → β} {n : Layer L α} : (n.map f).Over names ↔ n.Over names := by
  cases n <;> rfl

end Layer

variable [Literal L]

namespace EGraph

variable {g : EGraph L}

/-- Variables among the nodes are among the given names. -/
def Over (names : List String) (g : EGraph L) : Prop := ∀ entry ∈ g.nodes, entry.1.Over names

theorem over_of_nodes_eq {g' : EGraph L} (h : g.Over names) (heq : g'.nodes = g.nodes) : g'.Over names :=
  fun entry he => h entry (heq ▸ he)

theorem nodes_union (g : EGraph L) (i j : Nat) : (g.union i j).nodes = g.nodes := by
  unfold union
  dsimp only
  split
  · rfl
  · split <;> rfl

theorem nodes_relocate (g : EGraph L) (entry : Node L × Nat) : (g.relocate entry).nodes = g.nodes := by
  unfold relocate
  dsimp only
  split
  · exact nodes_union _ _ _
  · rfl

theorem nodes_relocateAll (fuel : Nat) (g : EGraph L) : (relocateAll fuel g).nodes = g.nodes := by
  induction fuel generalizing g with
  | zero => rfl
  | succ fuel ih =>
      unfold relocateAll
      split
      · rfl
      · exact (ih _).trans (nodes_relocate _ _)

section Adding

variable {n : Node L}

theorem Over.enter (h : g.Over names) (hn : n.Over names) : (g.enter n).2.Over names := by
  unfold EGraph.enter
  split
  · exact h
  · intro entry he
    rcases Array.mem_push.1 he with he | rfl
    · exact h entry he
    · exact Layer.over_map.2 hn

theorem Over.settle (h : g.Over names) (i : Nat) : (g.settle i).Over names := by
  unfold EGraph.settle
  split
  · exact h
  · exact over_of_nodes_eq (h.enter (n := .literal _) trivial) (nodes_union _ _ _)

theorem Over.add (h : g.Over names) (hn : n.Over names) : (g.add n).2.Over names := (h.enter hn).settle _

/-- Variables of a formula that is added stand for classes or are among the names. -/
theorem Over.addExpr (h : g.Over names) {σ : String → Option Nat} {e : Expr L}
    (he : ∀ v ∈ e.names, v ∈ names ∨ (σ v).isSome) : (g.addExpr σ e).2.Over names := by
  induction e generalizing g with
  | literal | constant => exact h.add trivial
  | var v =>
      unfold EGraph.addExpr
      split
      · exact h
      · next hσ => exact h.add ((he v (by simp [Expr.names])).resolve_right (by simp [hσ]))
  | call f a ih => exact (ih h he).add trivial
  | call₂ f a b iha ihb | op o a b iha ihb =>
      have ha := iha h fun v hv => he v (by simp [Expr.names, hv])
      exact (ihb ha fun v hv => he v (by simp [Expr.names, hv])).add trivial

end Adding

section Rebuild

theorem Over.evaluate (h : g.Over names) (entry : Node L × Nat) : (g.evaluate entry).Over names := by
  unfold EGraph.evaluate
  dsimp only
  split
  · refine Over.settle ?_ _
    exact h
  · exact h

theorem Over.evaluateAll (h : g.Over names) (fuel : Nat) : (evaluateAll fuel g).Over names := by
  induction fuel generalizing g with
  | zero => exact h
  | succ fuel ih =>
      unfold EGraph.evaluateAll
      split
      · exact h
      · have hstart : Over names { g with awaiting := #[] } := h
        exact ih (Array.foldl_induction (fun _ (g : EGraph L) => g.Over names) hstart fun i g hg => hg.evaluate _)

theorem Over.propagate (h : g.Over names) (fuel : Nat) : (propagate fuel g).Over names := by
  induction fuel generalizing g with
  | zero => exact h
  | succ fuel ih =>
      unfold EGraph.propagate
      split
      · exact h
      · exact ih (Over.evaluateAll (over_of_nodes_eq h (nodes_relocateAll _ _)) _)

theorem Over.rebuild (h : g.Over names) : g.rebuild.Over names := by
  have hp := h.propagate (2 * g.leader.size + 2)
  intro entry he
  obtain ⟨b, hb, rfl⟩ := mem_distinct he
  exact Layer.over_map.2 (hp b hb)

end Rebuild

section Rules

/-- A match gives a class to every variable of the pattern. -/
theorem bound_of_mem_matchClass {members : Array (Array (Node L))} {p : Expr L} {i : Nat} {σ σ' : Assignment}
    (hmem : σ' ∈ g.matchClass members p i σ) :
    (∀ v, (σ.get? v).isSome → (σ'.get? v).isSome) ∧ ∀ v ∈ p.names, (σ'.get? v).isSome := by
  induction p generalizing i σ σ' with
  | literal x | constant c =>
      unfold matchClass instances at hmem
      split at hmem
      · obtain rfl : σ' = σ := by simpa using hmem
        exact ⟨fun _ hv => hv, fun _ hv => absurd hv List.not_mem_nil⟩
      · exact absurd hmem List.not_mem_nil
  | var v =>
      unfold matchClass instances at hmem
      split at hmem
      · next j hj =>
        split at hmem
        · obtain rfl : σ' = σ := by simpa using hmem
          exact ⟨fun _ hw => hw, by simp [Expr.names, hj]⟩
        · exact absurd hmem List.not_mem_nil
      · obtain rfl : σ' = (v, i) :: σ := by simpa using hmem
        refine ⟨fun w hw => ?_, by simp [Expr.names, Assignment.get?]⟩
        by_cases hvw : v = w <;> simp [Assignment.get?, hvw, hw]
  | call f p ih =>
      obtain ⟨n, -, hnode⟩ := List.mem_flatMap.1 hmem
      split at hnode
      · split at hnode
        · exact ih hnode
        · exact absurd hnode List.not_mem_nil
      · exact absurd hnode List.not_mem_nil
  | call₂ f p q ihp ihq | op o p q ihp ihq =>
      obtain ⟨n, -, hnode⟩ := List.mem_flatMap.1 hmem
      split at hnode
      · split at hnode
        · obtain ⟨τ, hτ, hrest⟩ := List.mem_flatMap.1 hnode
          obtain ⟨hold, hp⟩ := ihp hτ
          obtain ⟨hold', hq⟩ := ihq hrest
          refine ⟨fun v hv => hold' v (hold v hv), fun v hv => ?_⟩
          exact (List.mem_append.1 hv).elim (fun hv => hold' v (hp v hv)) (hq v)
        · exact absurd hnode List.not_mem_nil
      · exact absurd hnode List.not_mem_nil

theorem Over.applyMatch (h : g.Over names) {rule : Rule L} (hnames : ∀ v ∈ rule.rhs.names, v ∈ rule.lhs.names)
    {found : Nat × Assignment} (hfound : ∀ v ∈ rule.lhs.names, (found.2.get? v).isSome) (changed : Bool) :
    (applyMatch rule (g, changed) found).1.Over names := by
  unfold EGraph.applyMatch
  dsimp only
  split
  · have hadd := h.addExpr fun v hv => .inr (hfound v (hnames v hv))
    split
    · exact hadd
    · exact over_of_nodes_eq hadd (nodes_union _ _ _)
  · exact h

theorem Over.applyChosen (h : g.Over names) {chosen : List (Rule L × Nat × Assignment)}
    (hchosen : ∀ m ∈ chosen, (∀ v ∈ m.1.rhs.names, v ∈ m.1.lhs.names) ∧
      ∀ v ∈ m.1.lhs.names, (m.2.2.get? v).isSome) :
    Over names (chosen.foldl (fun g m => (EGraph.applyMatch m.1 (g, false) m.2).1) g) := by
  induction chosen generalizing g with
  | nil => exact h
  | cons m chosen ih =>
      obtain ⟨hnames, hbound⟩ := hchosen m (by simp)
      exact ih (h.applyMatch hnames hbound false) fun m' hm' => hchosen m' (by simp [hm'])

theorem Explores.over {rules : List (Rule L)} {g' : EGraph L} (hg : Explores rules g g') (h : g.Over names)
    (hnames : ∀ r ∈ rules, ∀ v ∈ r.rhs.names, v ∈ r.lhs.names) : g'.Over names := by
  induction hg with
  | start => exact h
  | round chosen _ hchosen ih =>
      refine (ih.applyChosen fun m hm => ⟨hnames _ (hchosen m hm).1, ?_⟩).rebuild
      exact (bound_of_mem_matchClass (hchosen m hm).2.2).2

end Rules

section Extract

omit [Literal L] in
theorem over_toExpr {n : Node L} {tree : Nat → Option (Expr L)} {m : Layer L (Expr L)} (hn : n.Over names)
    (htree : ∀ i e, tree i = some e → e.Over names) (hm : (n.map tree).sequence? = some m) :
    m.toExpr.Over names := by
  cases n with
  | literal x =>
      obtain rfl := Option.some.inj hm
      exact Expr.over_literal x
  | constant c =>
      obtain rfl := Option.some.inj hm
      exact Expr.over_constant c
  | var v =>
      obtain rfl := Option.some.inj hm
      exact Expr.over_var.2 hn
  | call f i =>
      obtain ⟨a, ha, rfl⟩ := Option.map_eq_some_iff.1 hm
      exact htree i a ha
  | call₂ f i j =>
      obtain ⟨a, ha, hm⟩ := Option.bind_eq_some_iff.1 hm
      obtain ⟨b, hb, rfl⟩ := Option.map_eq_some_iff.1 hm
      exact Expr.over_call₂.2 ⟨htree i a ha, htree j b hb⟩
  | op o i j =>
      obtain ⟨a, ha, hm⟩ := Option.bind_eq_some_iff.1 hm
      obtain ⟨b, hb, rfl⟩ := Option.map_eq_some_iff.1 hm
      exact Expr.over_op.2 ⟨htree i a ha, htree j b hb⟩

theorem Over.extract? (h : g.Over names) {i : Nat} {e : Expr L} (he : g.extract? g.choose i = some e) :
    e.Over names :=
  g.choose_from.extract? (P := fun _ e => e.Over names) (fun _ _ _ _ hn hparts hm =>
    over_toExpr (h _ (Array.mem_filter.1 hn).1) hparts hm) he

end Extract

end EGraph

namespace Expr

theorem enterAll_over {es : List (Expr L)} (hes : ∀ e ∈ es, e.Over names) : (enterAll {} es).1.Over names := by
  have hfold (es : List (Expr L)) (hes : ∀ e ∈ es, e.Over names) (state : EGraph L × List (Expr L × Nat))
      (hstate : state.1.Over names) : (es.foldl enterNext state).1.Over names := by
    induction es generalizing state with
    | nil => exact hstate
    | cons e es ih =>
        have hadd := hstate.addExpr (σ := fun _ => none) fun v hv => .inl (hes e (by simp) v hv)
        exact ih (fun e he => hes e (by simp [he])) _ hadd
  rw [enterAll_eq]
  exact hfold es hes ({}, []) (by simp [EGraph.Over])

theorem readBack_over {g : EGraph L} (hg : g.Over names) {entered : List (Expr L × Nat)}
    (hentered : ∀ e ∈ entered.map (·.1), e.Over names) : ∀ e ∈ readBack g g.choose entered, e.Over names := by
  intro e' he'
  obtain ⟨⟨e, i⟩, hmem, rfl⟩ := List.mem_map.1 he'
  dsimp only
  cases htree : g.extract? g.choose i with
  | none => exact hentered e (List.mem_map_of_mem hmem)
  | some e' => exact hg.extract? htree

/-- Simplified formulas have no variables that none of the formulas had. -/
theorem simplifyAll_over {es : List (Expr L)} (hes : ∀ e ∈ es, e.Over names) (effort : Effort) :
    ∀ e ∈ simplifyAll es effort, e.Over names := by
  have hg := (EGraph.explores_saturate effort Rule.all _).over (enterAll_over hes) Rule.names_subset
  rw [simplifyAll_eq]
  split
  · exact hes
  · refine readBack_over hg ?_
    rwa [map_fst_enterAll]

end Expr

end FlowShader
