import Mathlib.Data.List.Forall2
import FlowShader.Proofs.EGraph.Extract
import FlowShader.Proofs.EGraph.Saturate
import FlowShader.Proofs.Scalar.Elementary

namespace FlowShader

variable {L : Type} [Literal L] {ρ : Valuation L ℝ} {ν : Nat → ℝ}

namespace Expr

open EGraph (Sound Explores Choice)

/-- Both formulas are defined, with the same value. -/
def SameValue (ρ : Valuation L ℝ) (e e' : Expr L) : Prop := ∃ x, e.HasValue ρ x ∧ e'.HasValue ρ x

def Entered (ρ : Valuation L ℝ) (ν : Nat → ℝ) (size : Nat) (entered : List (Expr L × Nat)) : Prop :=
  ∀ p ∈ entered, p.2 < size ∧ p.1.HasValue ρ (ν p.2)

variable [LawfulBEq L]

theorem foldl_enterNext_sound (hexact : Literal.Exact ρ.literal) {es : List (Expr L)}
    (hes : ∀ e ∈ es, ∃ x, e.HasValue ρ x) (state : EGraph L × List (Expr L × Nat)) (h : Sound ρ ν state.1)
    (hentered : Entered ρ ν state.1.leader.size state.2) :
    ∃ ν', Sound ρ ν' (es.foldl enterNext state).1 ∧
      Entered ρ ν' (es.foldl enterNext state).1.leader.size (es.foldl enterNext state).2 := by
  induction es generalizing state ν with
  | nil => exact ⟨ν, h, hentered⟩
  | cons e es ih =>
      obtain ⟨x, hx⟩ := hes e (by simp)
      obtain ⟨ν', h', hext, hlt, rfl⟩ := h.addExpr hexact (σ := fun _ => none) (by simp) (e := e) hx
      refine ih (fun e he => hes e (by simp [he])) (enterNext state e) h' fun p hp => ?_
      rcases List.mem_cons.1 hp with rfl | hp
      · exact ⟨hlt, hx⟩
      · obtain ⟨hlt, hvalue⟩ := hentered p hp
        exact ⟨hlt.trans_le hext.le, by rwa [hext.agree _ hlt]⟩

theorem enterAll_sound (hexact : Literal.Exact ρ.literal) {es : List (Expr L)}
    (hes : ∀ e ∈ es, ∃ x, e.HasValue ρ x) :
    ∃ ν, Sound ρ ν (enterAll {} es).1 ∧ Entered ρ ν (enterAll {} es).1.leader.size (enterAll {} es).2 := by
  have hnone : Entered ρ (fun _ => 0) ({} : EGraph L).leader.size [] := by simp [Entered]
  obtain ⟨ν, h, hentered⟩ := foldl_enterNext_sound hexact hes ({}, []) (Sound.empty ρ _) hnone
  exact ⟨ν, h, fun p hp => hentered p (List.mem_reverse.1 hp)⟩

omit [LawfulBEq L] in
theorem readBack_sameValue {g : EGraph L} (h : Sound ρ ν g) {choice : Choice L} (hchoice : choice.From g.entries)
    {entered : List (Expr L × Nat)} (hentered : ∀ p ∈ entered, p.1.HasValue ρ (ν p.2)) :
    List.Forall₂ (SameValue ρ) (entered.map (·.1)) (readBack g choice entered) := by
  rw [readBack, List.forall₂_map_left_iff, List.forall₂_map_right_iff, List.forall₂_same]
  intro p hp
  refine ⟨ν p.2, hentered p hp, ?_⟩
  cases htree : g.extract? choice p.2 with
  | none => simpa [htree] using hentered p hp
  | some e =>
      have he : e.HasValue ρ (ν (g.root p.2)) :=
        hchoice.extract? (fun n i m tree hn hparts hm => (h.entries _ hn).value.toExpr hparts hm) htree
      rw [h.root] at he
      simpa [htree] using he

theorem explored_sameValue (hexact : Literal.Exact ρ.literal) {es : List (Expr L)}
    (hes : ∀ e ∈ es, ∃ x, e.HasValue ρ x) {g : EGraph L} (hg : Explores Rule.all (enterAll {} es).1 g)
    {choice : Choice L} (hchoice : choice.From g.entries) :
    List.Forall₂ (SameValue ρ) es (readBack g choice (enterAll {} es).2) := by
  obtain ⟨ν, h, hentered⟩ := enterAll_sound hexact hes
  obtain ⟨ν', h', hext⟩ := hg.sound h hexact (Rule.all_sound hexact) Rule.names_subset
  have hvalues : ∀ p ∈ (enterAll {} es).2, p.1.HasValue ρ (ν' p.2) := by
    intro p hp
    obtain ⟨hlt, hvalue⟩ := hentered p hp
    rwa [hext.agree _ hlt]
  have hread := readBack_sameValue h' hchoice hvalues
  rwa [map_fst_enterAll] at hread

theorem simplifyAll_sameValue (hexact : Literal.Exact ρ.literal) {es : List (Expr L)}
    (hes : ∀ e ∈ es, ∃ x, e.HasValue ρ x) (effort : Effort) :
    List.Forall₂ (SameValue ρ) es (simplifyAll es effort) := by
  rw [simplifyAll_eq]
  split
  · rw [List.forall₂_same]
    intro e he
    obtain ⟨x, hx⟩ := hes e he
    exact ⟨x, hx, hx⟩
  · exact explored_sameValue hexact hes (EGraph.explores_saturate effort Rule.all _) (EGraph.choose_from _)

/-- Simplifying formulas together preserves their exact values wherever all of them are defined, for any effort. So does
any choice of matches in any number of rounds, with any choice of nodes to read the classes by. -/
theorem simplifyAll_exact (ρ : Valuation L ℝ) (hexact : Literal.Exact ρ.literal) (es : List (Expr L))
    (hes : ∀ e ∈ es, ∃ x, e.HasValue ρ x) :
    (∀ effort, List.Forall₂ (SameValue ρ) es (simplifyAll es effort)) ∧
      ∀ g, Explores Rule.all (enterAll {} es).1 g → ∀ choice : Choice L, choice.From g.entries →
        List.Forall₂ (SameValue ρ) es (readBack g choice (enterAll {} es).2) :=
  ⟨simplifyAll_sameValue hexact hes, fun _ hg _ hchoice => explored_sameValue hexact hes hg hchoice⟩

/-- A quotient of equal numbers and the square of a root, at two. -/
theorem simplifyAll_exact_at_two :
    let x : Expr Elementary := .var "x"
    let es := [.op .div x x, .op .mul (.call .sqrt x) (.call .sqrt x)]
    let ρ : Valuation Elementary ℝ := ⟨Elementary.toReal, fun v => if v = "x" then some 2 else none⟩
    (∀ e ∈ es, ∃ y, e.HasValue ρ y) ∧ (∀ effort, List.Forall₂ (SameValue ρ) es (simplifyAll es effort)) ∧
      ∀ g, Explores Rule.all (enterAll {} es).1 g → ∀ choice : Choice Elementary, choice.From g.entries →
        List.Forall₂ (SameValue ρ) es (readBack g choice (enterAll {} es).2) := by
  intro x es ρ
  have hx : x.HasValue ρ 2 := .var rfl
  have hsqrt : (Expr.call .sqrt x).HasValue ρ _ := .call hx (by norm_num [Func.Defined])
  have hes : ∀ e ∈ es, ∃ y, e.HasValue ρ y := by
    simp only [es, List.forall_mem_cons, List.not_mem_nil, IsEmpty.forall_iff, implies_true, and_true]
    exact ⟨⟨_, .op hx hx (by norm_num [Operator.Defined])⟩, ⟨_, .op hsqrt hsqrt trivial⟩⟩
  exact ⟨hes, simplifyAll_exact ρ Elementary.exact_toReal es hes⟩

end Expr

end FlowShader
