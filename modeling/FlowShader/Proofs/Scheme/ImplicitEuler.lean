import Mathlib.LinearAlgebra.Matrix.InvariantBasisNumber
import FlowShader.Proofs.Scheme.Step

namespace FlowShader.Scheme

open Shader (Term Stmt Context Env Value)
open Shader.Stmt (Takes)
open Shader.Value (ofMatrix)

variable {L : Type} {ctx : Context L ℝ} {n : Nat} {A B N : Fin n → Fin n → ℝ} {b pos q : Fin n → ℝ} {h : ℝ}

/-- The matrix `I - h A` of the equation for a step. -/
def stepMatrix (h : ℝ) (A : Fin n → Fin n → ℝ) : Fin n → Fin n → ℝ := fun i j => (if i = j then 1 else 0) - h * A i j

theorem of_stepMatrix (h : ℝ) (A : Fin n → Fin n → ℝ) : Matrix.of (stepMatrix h A) = 1 - h • Matrix.of A := by
  ext i j
  simp [stepMatrix, Matrix.one_apply]

def newtonRound (A N : Fin n → Fin n → ℝ) (b pos : Fin n → ℝ) (h : ℝ) (q : Fin n → ℝ) : Fin n → ℝ :=
  q - (Matrix.of N).mulVec (q - pos - h • ((Matrix.of A).mulVec q + b))

section Solution

variable (hinverse : Matrix.of N * Matrix.of (stepMatrix h A) = 1)
include hinverse

theorem newtonRound_eq (q : Fin n → ℝ) : newtonRound A N b pos h q = (Matrix.of N).mulVec (pos + h • b) := by
  -- The inverse takes the guess back out of the residual.
  have hresidual : q - pos - h • ((Matrix.of A).mulVec q + b) =
      (Matrix.of (stepMatrix h A)).mulVec q - (pos + h • b) := by
    rw [of_stepMatrix, Matrix.sub_mulVec, Matrix.one_mulVec, Matrix.smul_mulVec, smul_add]
    abel
  rw [newtonRound, hresidual, Matrix.mulVec_sub, Matrix.mulVec_mulVec, hinverse, Matrix.one_mulVec]
  abel

theorem iterate_newtonRound_solves {rounds : Nat} (hrounds : 0 < rounds) {x : Fin n → ℝ}
    (hx : x = (newtonRound A N b pos h)^[rounds] q) : x = pos + h • ((Matrix.of A).mulVec x + b) := by
  obtain ⟨k, rfl⟩ := Nat.exists_eq_add_of_lt hrounds
  rw [Nat.zero_add, Function.iterate_succ_apply', newtonRound_eq hinverse] at hx
  have hsolved : (Matrix.of (stepMatrix h A)).mulVec x = pos + h • b := by
    rw [hx, Matrix.mulVec_mulVec, mul_eq_one_comm.1 hinverse, Matrix.one_mulVec]
  rw [of_stepMatrix, Matrix.sub_mulVec, Matrix.one_mulVec, Matrix.smul_mulVec, sub_eq_iff_eq_add] at hsolved
  rw [smul_add, ← add_assoc, add_right_comm]
  exact hsolved

end Solution

/-- What a Newton step calls: an affine field, a constant Jacobian and the inverse of the matrix of the step. -/
structure AffineCalls (ctx : Context L ℝ) (A : Fin n → Fin n → ℝ) (b : Fin n → ℝ) (B : Fin n → Fin n → ℝ) (h : ℝ)
    (N : Fin n → Fin n → ℝ) : Prop where
  velocity (q : Fin n → ℝ) : ctx.apply Names.getVelocity [.vec (List.ofFn q)] =
    .ok (.vec (List.ofFn ((Matrix.of A).mulVec q + b)))
  jacobian (q : Fin n → ℝ) : ctx.apply Names.velocityJacobian [.vec (List.ofFn q)] = .ok (ofMatrix B)
  inverse : ctx.apply (Shader.Inverse.functionName n) [ofMatrix (stepMatrix h B)] = .ok (ofMatrix N)

structure Guesses (pos : Fin n → ℝ) (h : ℝ) (q : Fin n → ℝ) (env : Env ℝ) : Prop where
  position : env.get? "pos" = some (.vec (List.ofFn pos))
  stepSize : env.get? "h" = some (.float h)
  guess : env.get? "x" = some (.vec (List.ofFn q))

theorem Guesses.set {env : Env ℝ} (hq : Guesses pos h q env) {name : String} (hname : name ∉ ["pos", "h", "x"])
    (v : Value ℝ) : Guesses pos h q (env.set name v) := by
  have hne : ∀ w ∈ ["pos", "h", "x"], name ≠ w := by
    rintro w hw rfl
    exact hname hw
  exact ⟨(Env.get?_set_ne _ (hne _ (by decide)) _).trans hq.position,
    (Env.get?_set_ne _ (hne _ (by decide)) _).trans hq.stepSize,
    (Env.get?_set_ne _ (hne _ (by decide)) _).trans hq.guess⟩

theorem Guesses.update {env : Env ℝ} (hq : Guesses pos h q env) (q' : Fin n → ℝ) :
    Guesses pos h q' (env.set "x" (.vec (List.ofFn q'))) :=
  ⟨(Env.get?_set_ne _ (by decide) _).trans hq.position, (Env.get?_set_ne _ (by decide) _).trans hq.stepSize,
    Env.get?_set_self _ _ _⟩

def newtonCode (n : Nat) [Literal L] : List (Stmt L) :=
  [.declare (.vec n) "residual" ((.var "x" - Scheme.pos) - stepSize * Scheme.velocity (.var "x")),
    .declare (.mat n) "jac" (.construct (.mat n) [.float 1] - stepSize * .call Names.velocityJacobian [.var "x"]),
    setVar "x" (.var "x" - .call (Shader.Inverse.functionName n) [.var "jac"] * .var "residual")]

section Code

variable [Literal L] (hone : ctx.literal 1 = 1) (hcalls : AffineCalls ctx A b B h N)
include hone hcalls

theorem AffineCalls.takes_round (q : Fin n → ℝ) :
    Takes (L := L) ctx (Guesses pos h q) (newtonCode n) (Guesses pos h (newtonRound A N b pos h q)) := by
  let r := q - pos - h • ((Matrix.of A).mulVec q + b)
  let P₁ (env : Env ℝ) : Prop := Guesses pos h q env ∧ env.get? "residual" = some (.vec (List.ofFn r))
  let P₂ (env : Env ℝ) : Prop := P₁ env ∧ env.get? "jac" = some (ofMatrix (stepMatrix h B))
  have hx {env : Env ℝ} (hq : Guesses pos h q env) : (Term.var "x" : Term L).eval ctx env = .ok (.vec (List.ofFn q)) :=
    Term.eval_var hq.guess
  refine Takes.cons (Q := P₁) (.declare fun env hq => ?_) (Takes.cons (Q := P₂) (.declare fun env hq => ?_)
    (.assign fun env hq => ?_))
  · refine ⟨_, ?_, hq.set (by decide) _, Env.get?_set_self _ _ _⟩
    exact Term.eval_sub_vec (Term.eval_sub_vec (hx hq) (Term.eval_var hq.position)) (Term.eval_smul_vec
      (Term.eval_var hq.stepSize) ((Term.eval_call (hx hq)).trans (hcalls.velocity q)))
  · obtain ⟨hq, hr⟩ := hq
    refine ⟨_, ?_, ⟨hq.set (by decide) _, (Env.get?_set_ne _ (by decide) _).trans hr⟩, Env.get?_set_self _ _ _⟩
    have hmultiple := (Term.eval_binary_of .mul (Term.eval_var hq.stepSize)
      ((Term.eval_call (hx hq)).trans (hcalls.jacobian q))).trans (Value.mul_float_ofMatrix h B)
    refine (Term.eval_binary_of .sub (Term.eval_identity hone n) hmultiple).trans
      ((Value.zip_ofMatrix _ _ _ _).trans ?_)
    refine congrArg (fun a => Except.ok (ofMatrix a)) (funext fun i => funext fun j => ?_)
    rw [stepMatrix, Pi.single_apply]
    simp only [eq_comm]
  · obtain ⟨⟨hq, hr⟩, hjac⟩ := hq
    refine ⟨_, _, hq.guess, ?_, hq.update _⟩
    exact Term.eval_sub_vec (hx hq) (Term.eval_mulVec
      ((Term.eval_call (Term.eval_var hjac)).trans hcalls.inverse) (Term.eval_var hr))

theorem AffineCalls.integrate_run (rounds : Nat) :
    (integrate .implicitEuler n rounds .newton : Shader.Function L).run ctx [.vec (List.ofFn pos), .float h] =
      .ok (.vec (List.ofFn ((newtonRound A N b pos h)^[rounds] (pos + h • ((Matrix.of A).mulVec pos + b))))) := by
  have hguess : Takes (L := L) ctx (· = arguments pos h) [.declare (.vec n) "x" (advance (Scheme.velocity Scheme.pos))]
      (Guesses pos h (pos + h • ((Matrix.of A).mulVec pos + b))) := by
    refine .declare ?_
    rintro _ rfl
    exact ⟨_, Drives.eval_eulerStep hcalls.velocity pos h, rfl, rfl, Env.get?_set_self _ _ _⟩
  exact Scheme.integrate_run rfl (hguess.cons (Takes.iterate (hcalls.takes_round hone) rounds _))
    fun env hq => Term.eval_var hq.guess

end Code

end FlowShader.Scheme
