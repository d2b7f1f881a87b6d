import FlowShader.Proofs.Shader.Inverse
import FlowShader.Scheme.Step

namespace FlowShader

open Shader

namespace Scheme

variable {L : Type} {fs : Signatures} {globals Γ : Types} {n : Nat}

/-- What the expressions of a step use: the position, the step size and the velocity field. -/
structure Moves (fs : Signatures) (n : Nat) (Γ : Types) : Prop where
  position : Γ.lookup "pos" = some (.vec n)
  stepSize : Γ.lookup "h" = some .float
  field : fs.lookup Names.getVelocity = some ⟨[.vec n], .vec n⟩

section Expressions

variable {s v w x : Term L}

theorem sum_vec (hv : v.ty? fs Γ = some (.vec n)) (hw : w.ty? fs Γ = some (.vec n)) :
    (v + w).ty? fs Γ = some (.vec n) :=
  Term.ty?_binary hv hw (if_pos rfl)

theorem difference_vec (hv : v.ty? fs Γ = some (.vec n)) (hw : w.ty? fs Γ = some (.vec n)) :
    (v - w).ty? fs Γ = some (.vec n) :=
  Term.ty?_binary hv hw (if_pos rfl)

theorem multiple_vec (hs : s.ty? fs Γ = some .float) (hv : v.ty? fs Γ = some (.vec n)) :
    (s * v).ty? fs Γ = some (.vec n) :=
  Term.ty?_binary hs hv rfl

variable (h : Moves fs n Γ)
include h

theorem Moves.velocity (hx : x.ty? fs Γ = some (.vec n)) : (velocity x).ty? fs Γ = some (.vec n) :=
  Term.ty?_call (by decide) h.field (.cons hx .nil)

theorem Moves.advance (hv : v.ty? fs Γ = some (.vec n)) : (advance v).ty? fs Γ = some (.vec n) :=
  sum_vec h.position (multiple_vec h.stepSize hv)

theorem Moves.advanceHalf [Literal L] (hv : v.ty? fs Γ = some (.vec n)) :
    (pos + halfStep * v).ty? fs Γ = some (.vec n) :=
  sum_vec h.position (multiple_vec (Term.ty?_binary h.stepSize rfl rfl) hv)

end Expressions

def start (n : Nat) (globals : Types) : Types := ("pos", .vec n) :: ("h", .float) :: globals

section Steps

variable [Literal L] (hclear : Names.Clear globals)
  (hfield : fs.lookup Names.getVelocity = some ⟨[.vec n], .vec n⟩)

include hfield in
omit [Literal L] in
theorem eulerStep_checks : Stmt.Checks ⟨fs, globals, .vec n⟩ false (start n globals) (eulerStep (L := L)) := by
  have h : Moves fs n (start n globals) := ⟨rfl, rfl, hfield⟩
  exact .cons (Stmt.check_result (h.advance (h.velocity rfl))) .nil

omit [Literal L] in
theorem refine_checks {guess : Term L} {round : List (Stmt L)} (rounds : Nat) (hx : Γ.lookup "x" = none)
    (hguess : guess.ty? fs Γ = some (.vec n))
    (hround : Stmt.Checks ⟨fs, globals, .vec n⟩ true (("x", .vec n) :: Γ) round) :
    Stmt.Checks ⟨fs, globals, .vec n⟩ false Γ (refine n rounds guess round) :=
  .cons (Stmt.check_declare hx hguess) (.cons (Stmt.check_loop rounds hround) (.cons (Stmt.check_result rfl) .nil))

include hclear hfield

theorem rk2Step_checks : Stmt.Checks ⟨fs, globals, .vec n⟩ false (start n globals) (rk2Step (L := L) n) := by
  have h : Moves fs n (start n globals) := ⟨rfl, rfl, hfield⟩
  have h₁ : Moves fs n (("k1", .vec n) :: start n globals) := ⟨rfl, rfl, hfield⟩
  have h₂ : Moves fs n (("k2", .vec n) :: ("k1", .vec n) :: start n globals) := ⟨rfl, rfl, hfield⟩
  refine .cons (Stmt.check_declare (hclear.locals "k1" (by decide)) (h.velocity rfl)) ?_
  refine .cons (Stmt.check_declare (hclear.locals "k2" (by decide)) (h₁.velocity (h₁.advanceHalf rfl))) ?_
  exact .cons (Stmt.check_result (h₂.advance rfl)) .nil

theorem rk4Step_checks : Stmt.Checks ⟨fs, globals, .vec n⟩ false (start n globals) (rk4Step (L := L) n) := by
  have h : Moves fs n (start n globals) := ⟨rfl, rfl, hfield⟩
  have h₁ : Moves fs n (("k1", .vec n) :: start n globals) := ⟨rfl, rfl, hfield⟩
  have h₂ : Moves fs n (("k2", .vec n) :: ("k1", .vec n) :: start n globals) := ⟨rfl, rfl, hfield⟩
  have h₃ : Moves fs n (("k3", .vec n) :: ("k2", .vec n) :: ("k1", .vec n) :: start n globals) := ⟨rfl, rfl, hfield⟩
  refine .cons (Stmt.check_declare (hclear.locals "k1" (by decide)) (h.velocity rfl)) ?_
  refine .cons (Stmt.check_declare (hclear.locals "k2" (by decide)) (h₁.velocity (h₁.advanceHalf rfl))) ?_
  refine .cons (Stmt.check_declare (hclear.locals "k3" (by decide)) (h₂.velocity (h₂.advanceHalf rfl))) ?_
  refine .cons (Stmt.check_declare (hclear.locals "k4" (by decide)) (h₃.velocity (h₃.advance rfl))) ?_
  refine .cons (Stmt.check_result ?_) .nil
  refine sum_vec rfl (multiple_vec (Term.ty?_binary rfl rfl rfl) ?_)
  -- the weighted sum of the slopes, from left to right
  exact sum_vec (sum_vec (sum_vec rfl (multiple_vec rfl rfl)) (multiple_vec rfl rfl)) rfl

omit [Literal L] in
theorem implicitEulerStep_checks (rounds : Nat) :
    Stmt.Checks ⟨fs, globals, .vec n⟩ false (start n globals) (implicitEulerStep (L := L) n rounds) := by
  have h : Moves fs n (start n globals) := ⟨rfl, rfl, hfield⟩
  have hx : Moves fs n (("x", .vec n) :: start n globals) := ⟨rfl, rfl, hfield⟩
  refine refine_checks rounds (hclear.locals "x" (by decide)) (h.advance (h.velocity rfl)) ?_
  exact .cons (Stmt.check_assign (hclear.locals "x" (by decide)) rfl (hx.advance (hx.velocity rfl))) .nil

theorem implicitMidpointStep_checks (rounds : Nat) :
    Stmt.Checks ⟨fs, globals, .vec n⟩ false (start n globals) (implicitMidpointStep (L := L) n rounds) := by
  have h : Moves fs n (start n globals) := ⟨rfl, rfl, hfield⟩
  have hx : Moves fs n (("x", .vec n) :: start n globals) := ⟨rfl, rfl, hfield⟩
  refine refine_checks rounds (hclear.locals "x" (by decide)) (h.advance (h.velocity rfl)) ?_
  refine .cons (Stmt.check_assign (hclear.locals "x" (by decide)) rfl ?_) .nil
  exact hx.advance (hx.velocity (multiple_vec rfl (sum_vec rfl rfl)))

theorem trapezoidalStep_checks (rounds : Nat) :
    Stmt.Checks ⟨fs, globals, .vec n⟩ false (start n globals) (trapezoidalStep (L := L) n rounds) := by
  have h : Moves fs n (start n globals) := ⟨rfl, rfl, hfield⟩
  have h₀ : Moves fs n (("f0", .vec n) :: start n globals) := ⟨rfl, rfl, hfield⟩
  have hx : Moves fs n (("x", .vec n) :: ("f0", .vec n) :: start n globals) := ⟨rfl, rfl, hfield⟩
  refine .cons (Stmt.check_declare (hclear.locals "f0" (by decide)) (h.velocity rfl)) ?_
  refine refine_checks rounds (hclear.locals "x" (by decide)) (h₀.advance rfl) ?_
  refine .cons (Stmt.check_assign (hclear.locals "x" (by decide)) rfl ?_) .nil
  exact hx.advanceHalf (sum_vec rfl (hx.velocity rfl))

theorem gaussLegendreStep_checks (rounds : Nat) :
    Stmt.Checks ⟨fs, globals, .vec n⟩ false (start n globals) (gaussLegendreStep (L := L) n rounds) := by
  have h : Moves fs n (start n globals) := ⟨rfl, rfl, hfield⟩
  let Γ₂ : Types := ("k2", .vec n) :: ("k1", .vec n) :: start n globals
  have h₂ : Moves fs n Γ₂ := ⟨rfl, rfl, hfield⟩
  have h₃ : Moves fs n (("n1", .vec n) :: Γ₂) := ⟨rfl, rfl, hfield⟩
  have hslopes {Γ : Types} (h₁ : Γ.lookup "k1" = some (.vec n)) (h₂ : Γ.lookup "k2" = some (.vec n)) (a b : L) :
      (Term.float a * .var "k1" + .float b * .var "k2").ty? fs Γ = some (.vec n) :=
    sum_vec (multiple_vec rfl h₁) (multiple_vec rfl h₂)
  refine .cons (Stmt.check_declare (hclear.locals "k1" (by decide)) (h.velocity rfl)) ?_
  refine .cons (Stmt.check_declare (hclear.locals "k2" (by decide)) rfl) ?_
  refine .cons (Stmt.check_loop rounds ?_) (.cons (Stmt.check_result (h₂.advanceHalf (sum_vec rfl rfl))) .nil)
  refine .cons
    (Stmt.check_declare (hclear.locals "n1" (by decide)) (h₂.velocity (h₂.advance (hslopes rfl rfl _ _)))) ?_
  refine .cons
    (Stmt.check_declare (hclear.locals "n2" (by decide)) (h₃.velocity (h₃.advance (hslopes rfl rfl _ _)))) ?_
  refine .cons (Stmt.check_assign (hclear.locals "k1" (by decide)) rfl rfl) ?_
  exact .cons (Stmt.check_assign (hclear.locals "k2" (by decide)) rfl rfl) .nil

theorem implicitEulerNewtonStep_checks (rounds : Nat)
    (hjacobian : fs.lookup Names.velocityJacobian = some ⟨[.vec n], .mat n⟩)
    (hname : Builtin.ofName? (Inverse.functionName n) = none)
    (hinverse : fs.lookup (Inverse.functionName n) = some ⟨[.mat n], .mat n⟩) :
    Stmt.Checks ⟨fs, globals, .vec n⟩ false (start n globals) (implicitEulerNewtonStep (L := L) n rounds) := by
  have h : Moves fs n (start n globals) := ⟨rfl, rfl, hfield⟩
  let Γ₁ : Types := ("x", .vec n) :: start n globals
  have hx : Moves fs n Γ₁ := ⟨rfl, rfl, hfield⟩
  refine refine_checks rounds (hclear.locals "x" (by decide)) (h.advance (h.velocity rfl)) ?_
  refine .cons (Stmt.check_declare (hclear.locals "residual" (by decide))
    (difference_vec (difference_vec rfl rfl) (multiple_vec rfl (hx.velocity rfl)))) ?_
  refine .cons (Stmt.check_declare (hclear.locals "jac" (by decide)) ?_) ?_
  · refine Term.ty?_binary (σ := .mat n) (τ := .mat n) ?_ ?_ (if_pos rfl)
    · exact Term.ty?_diagonal 1
    · exact Term.ty?_binary rfl (Term.ty?_call (by decide) hjacobian (.cons rfl .nil)) rfl
  · refine .cons (Stmt.check_assign (hclear.locals "x" (by decide)) rfl (difference_vec rfl ?_)) .nil
    exact Term.ty?_binary (Term.ty?_call hname hinverse (.cons rfl .nil)) rfl (if_pos rfl)

omit [Literal L] hfield in
/-- Moving one component of the next position. -/
theorem move_check {looping : Bool} {source : String} {i : Nat} (h : Γ.lookup "next" = some (.vec n))
    (hpos : Γ.lookup "pos" = some (.vec n)) (hstep : Γ.lookup "h" = some .float)
    (hsource : Γ.lookup source = some (.vec n)) (hi : i < n) :
    (Stmt.assign (.component "next" i) (.component (pos (L := L)) i + stepSize * .component (.var source) i)).check
      ⟨fs, globals, .vec n⟩ looping Γ = some Γ := by
  refine Stmt.check_assign (hclear.locals "next" (by decide)) (τ := .float) ?_ ?_
  · rw [Place.ty?, h]
    exact if_pos hi
  · have hmoved : (stepSize * Term.component (.var source) i : Term L).ty? fs Γ = some .float :=
      Term.ty?_binary hstep (Term.ty?_component hsource hi) rfl
    exact Term.ty?_binary (Term.ty?_component hpos hi) hmoved rfl

omit [Literal L] in
theorem symplecticEulerStep_checks :
    Stmt.Checks ⟨fs, globals, .vec n⟩ false (start n globals) (symplecticEulerStep (L := L) n) := by
  have h : Moves fs n (("next", .vec n) :: start n globals) := ⟨rfl, rfl, hfield⟩
  let Γ₁ : Types := ("v", .vec n) :: ("next", .vec n) :: start n globals
  have h₁ : Moves fs n Γ₁ := ⟨rfl, rfl, hfield⟩
  simp only [symplecticEulerStep, List.append_assoc, List.cons_append, List.nil_append]
  refine .cons (Stmt.check_declare (hclear.locals "next" (by decide)) rfl) ?_
  refine .cons (Stmt.check_declare (hclear.locals "v" (by decide)) (h.velocity rfl)) ?_
  -- the momenta, with the old slopes
  refine .append (Stmt.checkAll_of_forall (List.forall_mem_map.2 fun i hi => ?_)) ?_
  · have hi := List.mem_range.1 hi
    exact move_check hclear rfl rfl rfl rfl (by omega)
  refine .cons (Stmt.check_declare (hclear.locals "moved" (by decide)) (h₁.velocity rfl)) ?_
  -- the positions, with the new ones
  refine .append (Stmt.checkAll_of_forall (List.forall_mem_map.2 fun i hi => ?_)) ?_
  · have hi := List.mem_range.1 hi
    exact move_check hclear rfl rfl rfl rfl (by omega)
  refine .append (Stmt.checkAll_of_forall fun s hs => ?_) (.cons (Stmt.check_result rfl) .nil)
  split at hs
  · obtain rfl := List.mem_singleton.1 hs
    exact move_check hclear rfl rfl rfl rfl (by omega)
  · cases hs

end Steps

theorem anyReturns_step [Literal L] (s : Scheme) (rounds : Nat) (method : Method) :
    Stmt.anyReturns (s.step (L := L) n rounds method) = true := by
  cases s with
  | symplecticEuler => exact Stmt.anyReturns_result _ _
  | implicitEuler => cases method <;> rfl
  | euler | rk2 | rk4 | implicitMidpoint | trapezoidal | gaussLegendre => rfl

/-- What a step calls besides the velocity field: with Newton's method the velocity Jacobian and the
inverting function. -/
def Calls (fs : Signatures) (n : Nat) (s : Scheme) (method : Method) : Prop :=
  s = .implicitEuler → method = .newton →
    fs.lookup Names.velocityJacobian = some ⟨[.vec n], .mat n⟩ ∧
    Builtin.ofName? (Inverse.functionName n) = none ∧
    fs.lookup (Inverse.functionName n) = some ⟨[.mat n], .mat n⟩

theorem integrate_meets [Literal L] (hclear : Names.Clear globals)
    (hfield : fs.lookup Names.getVelocity = some ⟨[.vec n], .vec n⟩) (s : Scheme) (rounds : Nat) (method : Method)
    (hcalls : Calls fs n s method) :
    (s.integrate (L := L) n rounds method).Meets globals fs Names.integrate ⟨[.vec n, .float], .vec n⟩ := by
  have hbody : Stmt.Checks ⟨fs, globals, .vec n⟩ false (start n globals) (s.step (L := L) n rounds method) := by
    cases s with
    | euler => exact eulerStep_checks hfield
    | rk2 => exact rk2Step_checks hclear hfield
    | rk4 => exact rk4Step_checks hclear hfield
    | implicitEuler =>
        cases method with
        | newton =>
            obtain ⟨hjacobian, hname, hinverse⟩ := hcalls rfl rfl
            exact implicitEulerNewtonStep_checks hclear hfield rounds hjacobian hname hinverse
        | fixedPoint => exact implicitEulerStep_checks hclear hfield rounds
    | implicitMidpoint => exact implicitMidpointStep_checks hclear hfield rounds
    | trapezoidal => exact trapezoidalStep_checks hclear hfield rounds
    | gaussLegendre => exact gaussLegendreStep_checks hclear hfield rounds
    | symplecticEuler => exact symplecticEulerStep_checks hclear hfield
  have hnodup : ["pos", "h"].Nodup := by decide
  have hlocals : ∀ v ∈ ["pos", "h"], v ∈ Names.locals := by decide
  exact hclear.meets [(.vec n, "pos"), (.float, "h")] (by decide) hnodup hlocals hbody (anyReturns_step s rounds method)

end Scheme

end FlowShader
