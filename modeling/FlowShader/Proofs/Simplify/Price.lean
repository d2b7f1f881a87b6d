import FlowShader.Proofs.EGraph.Cheapest
import FlowShader.Proofs.Scalar.Double

namespace FlowShader.Expr

open EGraph (Explores Restored WellFormed Grows)

variable {L : Type}

theorem price_pos (e : Expr L) : 0 < e.price := by
  cases e <;> exact (Layer.ownPrice_pos _).trans_le (Nat.le_add_right _ _)

theorem leaf_of_price_le_one {e : Expr L} (h : e.price ≤ 1) : (∃ x, e = .literal x) ∨ ∃ c, e = .constant c := by
  have hparts (n : Layer L Nat) (a : Expr L) (hle : n.ownPrice + a.price ≤ 1) : False := by
    have hown := n.ownPrice_pos
    have ha := a.price_pos
    omega
  cases e with
  | literal x => exact .inl ⟨x, rfl⟩
  | constant c => exact .inr ⟨c, rfl⟩
  | var v => exact absurd h (Nat.not_succ_le_self 1)
  | call f a => exact (hparts (.call f a.price) a h).elim
  | call₂ f a b =>
      exact (hparts (.call₂ f a.price b.price) a (h.trans' (Nat.add_le_add_left (Nat.le_add_right _ _) _))).elim
  | op o a b =>
      exact (hparts (.op o a.price b.price) a (h.trans' (Nat.add_le_add_left (Nat.le_add_right _ _) _))).elim

variable [Literal L]

/-- What relates a formula to the tree of its class, in every graph that is reached, relates it to what
becomes of it. -/
theorem forall₂_simplifyAll {R : Expr L → Expr L → Prop} {es : List (Expr L)} (hnumbers : es.any hasNaN = false)
    (hR : ∀ g, Explores Rule.all (enterAll {} es).1.rebuild g → ∀ p ∈ (enterAll {} es).2,
      ∃ t, g.extract? g.choose p.2 = some t ∧ R p.1 t) (effort : Effort) :
    List.Forall₂ R es (simplifyAll es effort) := by
  have hread : List.Forall₂ R ((enterAll {} es).2.map (·.1))
      (readBack ((enterAll {} es).1.saturate effort Rule.all) ((enterAll {} es).1.saturate effort Rule.all).choose
        (enterAll {} es).2) := by
    rw [readBack, List.forall₂_map_left_iff, List.forall₂_map_right_iff, List.forall₂_same]
    intro p hp
    have hexplores : Explores Rule.all (enterAll {} es).1.rebuild ((enterAll {} es).1.saturate effort Rule.all) :=
      Explores.run .start _ _ _
    obtain ⟨t, ht, hpt⟩ := hR _ hexplores p hp
    simpa only [ht, Option.getD_some] using hpt
  rw [simplifyAll_eq, if_neg (by simp [hnumbers])]
  rwa [map_fst_enterAll] at hread

variable [PartialEquivBEq L] [LawfulHashable L]

theorem foldl_enterNext_affords (es : List (Expr L)) (state : EGraph L × List (Expr L × Nat)) (h : WellFormed state.1)
    (hstate : ∀ p ∈ state.2, state.1.Affords p.2 p.1.price) :
    WellFormed (es.foldl enterNext state).1 ∧
      ∀ p ∈ (es.foldl enterNext state).2, (es.foldl enterNext state).1.Affords p.2 p.1.price := by
  induction es generalizing state with
  | nil => exact ⟨h, hstate⟩
  | cons e es ih =>
      obtain ⟨hwell, hgrows, -⟩ := h.addExpr (σ := fun _ => none) (by simp) e
      refine ih (enterNext state e) hwell fun p hp => ?_
      rcases List.mem_cons.1 hp with rfl | hp
      · exact h.affords_addExpr e
      · exact (hstate p hp).mono hgrows hwell

theorem enterAll_affords (es : List (Expr L)) :
    WellFormed (enterAll {} es).1 ∧ ∀ p ∈ (enterAll {} es).2, (enterAll {} es).1.Affords p.2 p.1.price := by
  obtain ⟨hwell, haffords⟩ := foldl_enterNext_affords es ({}, []) .empty (by simp)
  exact ⟨hwell, fun p hp => haffords p (List.mem_reverse.1 hp)⟩

theorem exists_extract?_of_explores {es : List (Expr L)} {g : EGraph L}
    (hg : Explores Rule.all (enterAll {} es).1.rebuild g) {p : Expr L × Nat} (hp : p ∈ (enterAll {} es).2) :
    ∃ t, g.extract? g.choose p.2 = some t ∧ t.price ≤ p.1.price := by
  obtain ⟨hwell, haffords⟩ := enterAll_affords es
  obtain ⟨hrestored, hgrows⟩ := hwell.rebuild
  obtain ⟨hrestored', hgrows'⟩ := hg.restored hrestored
  exact hrestored'.exists_extract? ((haffords p hp).mono (hgrows.trans hgrows') hrestored'.toWellFormed)

theorem simplifyAll_price_le (es : List (Expr L)) (effort : Effort) :
    List.Forall₂ (fun e t => t.price ≤ e.price) es (simplifyAll es effort) := by
  cases hnumbers : es.any hasNaN with
  | true =>
      rw [simplifyAll_eq, if_pos hnumbers]
      exact List.forall₂_same.2 fun e _ => le_rfl
  | false => exact forall₂_simplifyAll hnumbers (fun _ hg _ hp => exists_extract?_of_explores hg hp) effort

/-- No formula gets dearer by simplification. In every graph that rounds of rule applications reach, every
class has a tree to extract, the class of a formula one at no more than the price of the formula, and later
graphs have a tree for the same class that costs no more. -/
theorem simplification_never_dearer (es : List (Expr L)) :
    (∀ effort, List.Forall₂ (fun e t => t.price ≤ e.price) es (simplifyAll es effort)) ∧
    ∀ g, Explores Rule.all (enterAll {} es).1.rebuild g →
      (∀ i < g.leader.size, ∃ t, g.extract? g.choose i = some t) ∧
      (∀ p ∈ (enterAll {} es).2, ∃ t, g.extract? g.choose p.2 = some t ∧ t.price ≤ p.1.price) ∧
      ∀ g', Explores Rule.all g g' → ∀ i t, g.extract? g.choose i = some t →
        ∃ t', g'.extract? g'.choose i = some t' ∧ t'.price ≤ t.price := by
  refine ⟨simplifyAll_price_le es, fun g hg => ?_⟩
  have hrestored := (hg.restored (enterAll_affords es).1.rebuild.1).1
  refine ⟨fun i hi => ?_, fun p hp => exists_extract?_of_explores hg hp, fun g' hg' i t ht => ?_⟩
  · obtain ⟨p, hp⟩ := hrestored.exists_affords hi
    obtain ⟨t, ht, -⟩ := hrestored.exists_extract? hp
    exact ⟨t, ht⟩
  · obtain ⟨hrestored', hgrows⟩ := hg'.restored hrestored
    have hprice := hrestored.coherent.affords_of_extract? ht
    exact hrestored'.exists_extract? (hprice.mono hgrows hrestored'.toWellFormed)

def sharedProduct : List (Expr Float) :=
  [.op .add (.op .mul (.literal 2.0) (.literal 3.0)) (.var "x"),
    .op .add (.op .mul (.var "x") (.literal 1.0)) (.op .mul (.literal 2.0) (.literal 3.0))]

theorem sharedProduct_never_dearer :
    List.Forall₂ (fun e t => t.price ≤ e.price) sharedProduct (simplifyAll sharedProduct) ∧
    (∀ p ∈ (enterAll {} sharedProduct).2, ∃ t, (enterAll {} sharedProduct).1.rebuild.extract?
      (enterAll {} sharedProduct).1.rebuild.choose p.2 = some t ∧ t.price ≤ p.1.price) :=
  ⟨(simplification_never_dearer sharedProduct).1 {}, ((simplification_never_dearer sharedProduct).2 _ .start).2.1⟩

end FlowShader.Expr
