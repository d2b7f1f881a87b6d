import FlowShader.Proofs.Compile.VelocityField
import FlowShader.Proofs.Coordinates.Preset
import FlowShader.Proofs.Scheme.Step

namespace FlowShader

open Shader (Function Module Env Value)

variable {L K : Type}

namespace Scheme

variable [CommRing K] (k m h : K) (q : Fin 2 → K)

def oscillation : Fin 2 → K := ![k * q 1, -(m * q 0)]

def modifiedEnergy : K := m * q 0 ^ 2 - h * k * m * q 0 * q 1 + k * q 1 ^ 2

theorem symplecticStep_oscillation : symplecticStep (oscillation k m) q h =
    ![q 0 + h * (k * (q 1 - h * (m * q 0))), q 1 - h * (m * q 0)] := by
  have hmomentum : q 1 + h * -(m * q 0) = q 1 - h * (m * q 0) := by ring
  rw [← hmomentum]
  ext i
  fin_cases i <;> rfl

theorem modifiedEnergy_symplecticStep :
    modifiedEnergy k m h (symplecticStep (oscillation k m) q h) = modifiedEnergy k m h q := by
  rw [symplecticStep_oscillation]
  simp only [modifiedEnergy, Matrix.cons_val_zero, Matrix.cons_val_one]
  ring

theorem modifiedEnergy_iterate (steps : Nat) :
    modifiedEnergy k m h ((symplecticStep (oscillation k m) · h)^[steps] q) = modifiedEnergy k m h q := by
  induction steps with
  | zero => rfl
  | succ steps ih => rw [Function.iterate_succ_apply', modifiedEnergy_symplecticStep, ih]

end Scheme

def Shader.Module.trajectory [Scalar K] (m : Module L) (literal : L → K) (globals : Env K) (h : K) (start : Value K) :
    Nat → Except Shader.Fault (Value K)
  | 0 => .ok start
  | steps + 1 => do
    m.call literal globals Names.integrate [← m.trajectory literal globals h start steps, .float h]

theorem Shader.Module.trajectory_eq_iterate [Scalar K] {m : Module L} {literal : L → K} {globals : Env K} {h : K}
    {n : Nat} {step : (Fin n → K) → Fin n → K} (hstep : ∀ q, m.call literal globals Names.integrate
      [.vec (List.ofFn q), .float h] = .ok (.vec (List.ofFn (step q)))) (q : Fin n → K) (steps : Nat) :
    m.trajectory literal globals h (.vec (List.ofFn q)) steps = .ok (.vec (List.ofFn (step^[steps] q))) := by
  induction steps with
  | zero => rfl
  | succ steps ih =>
      rw [trajectory, Function.iterate_succ_apply']
      exact bind_eq_ok_of ih (hstep _)

variable [Literal L] [RingScalar K]

theorem Scheme.oscillation_meaning {literal : L → K} (hzero : literal 0 = 0) {a b : Expr L} {k m z : K}
    (ha : ∀ x y, a.meaning true (.ofPoint literal ["x", "y", "a"] [x, y, z]) = .ok k)
    (hb : ∀ x y, b.meaning true (.ofPoint literal ["x", "y", "a"] [x, y, z]) = .ok m) (q : Fin 2 → K) :
    List.Forall₂ (fun e y => e.meaning true (.ofPoint literal ["x", "y", "a"] [q 0, q 1, z]) = .ok y)
      [.op .mul a (.var "y"), Parser.negate (.op .mul b (.var "x"))] (List.ofFn (oscillation k m q)) := by
  have hx : (.op .mul b (.var "x") : Expr L).meaning true (.ofPoint literal ["x", "y", "a"] [q 0, q 1, z]) =
      .ok (m * q 0) := bind_eq_ok_of (hb _ _) rfl
  refine .cons (bind_eq_ok_of (ha _ _) rfl) (.cons ?_ .nil)
  refine bind_eq_ok_of rfl (bind_eq_ok_of hx ?_)
  change Except.ok (literal 0 - m * q 0) = _
  rw [hzero, zero_sub]
  rfl

variable [Literal.Legible L]

theorem Config.integrate_symplecticEuler {literal : L → K} (hliterals : Literal.Interprets literal) {c : Config L}
    {p : Problem L} (hvalidate : c.validate = .ok p) (hcartesian : p.frame.isCartesian = true)
    (hscheme : c.scheme = .symplecticEuler) (hlegible : ∀ e ∈ p.derivatives, e.Legible) {n : Nat}
    (hn : p.frame.dimensions = n) {f : (Fin n → K) → Fin n → K} {x : K}
    (hf : ∀ q, List.Forall₂ (fun e y =>
      e.meaning true (.ofPoint literal (Names.axes n ++ [Names.alpha]) (List.ofFn q ++ [x])) = .ok y)
      p.derivatives (List.ofFn (f q))) :
    ∃ out globals, c.compile = .ok out ∧ out.module.globals literal = .ok globals ∧
      ∀ q h, out.module.call literal (globals.set c.alphaName (.float x)) Names.integrate
        [.vec (List.ofFn q), .float h] = .ok (.vec (List.ofFn (Scheme.symplecticStep f q h))) := by
  subst hn
  have hp := (checked_of_validate hvalidate).1
  obtain ⟨out, hout, hmodule⟩ := exists_compile_of_validate hvalidate
  have hm := hmodule.checked
  obtain ⟨globals, hglobals, -⟩ := hm.exists_globals literal
  refine ⟨out, globals, hout, hglobals, fun q h => ?_⟩
  let globals' := globals.set c.alphaName (.float x)
  obtain ⟨getVelocity, hgetMem, hget⟩ := hmodule.getVelocity
  obtain ⟨method, hintegrateMem⟩ := hmodule.integrate
  have hdrives : Scheme.Drives (out.module.context literal globals' 64) f := by
    intro q
    obtain ⟨_, rfl⟩ := Problem.exists_of_getVelocity hget
    exact (hm.apply_eq_run literal globals' hgetMem 63 _).trans (hp.getVelocity_run_cartesian
      (hm.plain_context literal globals' 63) hliterals (exists_validate_iff.1 ⟨p, hvalidate⟩).free
      (Env.get?_set_self _ _ _) hcartesian hget (hf q) hlegible)
  rw [hscheme] at hintegrateMem
  exact (hm.callAt_eq_run literal globals' hintegrateMem 64 _).trans (Scheme.symplecticEuler_run hdrives _ method)

/-- A compiled oscillator moves its momentum with its position and then its position with the new momentum, and after
any number of steps the quadratic form for their size has the value that it had at the start. -/
theorem Config.trajectory_conserves_modifiedEnergy (literal : L → K) (hliterals : Literal.Interprets literal)
    (hzero : literal 0 = 0) (c : Config L) (p : Problem L) (hvalidate : c.validate = .ok p)
    (hcartesian : p.frame.isCartesian = true) (hscheme : c.scheme = .symplecticEuler) (a b : Expr L)
    (hderivatives : p.derivatives = [.op .mul a (.var "y"), Parser.negate (.op .mul b (.var "x"))])
    (hlegible : ∀ e ∈ p.derivatives, e.Legible) (k m z : K)
    (ha : ∀ x y, a.meaning true (.ofPoint literal ["x", "y", "a"] [x, y, z]) = .ok k)
    (hb : ∀ x y, b.meaning true (.ofPoint literal ["x", "y", "a"] [x, y, z]) = .ok m) :
    ∃ out globals, c.compile = .ok out ∧ out.module.globals literal = .ok globals ∧
      ∀ h x₀ y₀ : K, ∃ x y : Nat → K, x 0 = x₀ ∧ y 0 = y₀ ∧
        ∀ steps, out.module.trajectory literal (globals.set c.alphaName (.float z)) h (.vec [x₀, y₀]) steps =
            .ok (.vec [x steps, y steps]) ∧
          y (steps + 1) = y steps - h * (m * x steps) ∧ x (steps + 1) = x steps + h * (k * y (steps + 1)) ∧
          m * x steps ^ 2 - h * k * m * x steps * y steps + k * y steps ^ 2 =
            m * x₀ ^ 2 - h * k * m * x₀ * y₀ + k * y₀ ^ 2 := by
  have hdimensions : p.frame.dimensions = 2 := by
    rw [← (checked_of_validate hvalidate).1.count, hderivatives]
    rfl
  obtain ⟨out, globals, hout, hglobals, hstep⟩ := integrate_symplecticEuler hliterals hvalidate hcartesian hscheme
    hlegible hdimensions (x := z) fun q => hderivatives ▸ Scheme.oscillation_meaning hzero ha hb q
  refine ⟨out, globals, hout, hglobals, fun h x₀ y₀ => ?_⟩
  let q (steps : Nat) : Fin 2 → K := (Scheme.symplecticStep (Scheme.oscillation k m) · h)^[steps] ![x₀, y₀]
  have hsucc (steps : Nat) : q (steps + 1) = ![q steps 0 + h * (k * (q steps 1 - h * (m * q steps 0))),
      q steps 1 - h * (m * q steps 0)] :=
    (Function.iterate_succ_apply' _ _ _).trans (Scheme.symplecticStep_oscillation k m h _)
  refine ⟨fun steps => q steps 0, fun steps => q steps 1, rfl, rfl, fun steps => ⟨?_, ?_, ?_, ?_⟩⟩
  · exact Module.trajectory_eq_iterate (fun q => hstep q h) ![x₀, y₀] steps
  · exact congrFun (hsucc steps) 1
  · dsimp only
    rw [hsucc]
    rfl
  · exact Scheme.modifiedEnergy_iterate k m h ![x₀, y₀] steps

namespace Config

section Example

def oscillator : Config L := { ofDerivatives 2 ["2 * y", "-(a * x)"] with scheme := .symplecticEuler }

def oscillatorProblem : Problem L where
  frame := Coordinates.Preset.cartesian2d.frame
  derivatives :=
    [.op .mul (.literal (Literal.ofDecimal ⟨2, 0⟩)) (.var "y"), Parser.negate (.op .mul (.var "a") (.var "x"))]
  newtonExpressions := none
  color := none

omit [Literal.Legible L] in
theorem readDerivatives_oscillator :
    (oscillator (L := L)).readDerivatives ["x", "y"] = .ok oscillatorProblem.derivatives := by cbv

theorem validate_oscillator : (oscillator (L := Elementary)).validate = .ok oscillatorProblem := by
  refine validate_eq_ok_iff.2 ⟨(by decide : 2 ≤ 2 ∧ 2 ≤ 4), ?_, ?_, readDerivatives_oscillator, rfl, rfl⟩
  · exact settingErrors_eq_nil_of_defaults rfl rfl rfl rfl
  · exact readFrame_eq_ok_iff.2 ⟨Coordinates.Preset.cartesian2d.ofRecord_record, rfl⟩

/-- Two steps of one half. -/
theorem trajectory_conserves_modifiedEnergy_oscillator : ∃ (out : Output Elementary) (globals : Env ℝ),
    oscillator.validate = .ok (oscillatorProblem (L := Elementary)) ∧ oscillator.compile = .ok out ∧
    out.module.globals Elementary.toReal = .ok globals ∧
    out.module.trajectory Elementary.toReal (globals.set "u_alpha" (.float 3)) (1 / 2) (.vec [1, 0]) 2 =
      .ok (.vec [-5 / 4, -3 / 4]) ∧
    3 * (-5 / 4) ^ 2 - 1 / 2 * 2 * 3 * (-5 / 4) * (-3 / 4) + 2 * (-3 / 4) ^ 2 =
      (3 * 1 ^ 2 - 1 / 2 * 2 * 3 * 1 * 0 + 2 * 0 ^ 2 : ℝ) := by
  have hp := (checked_of_validate validate_oscillator).1
  have hlegible : ∀ e ∈ (oscillatorProblem (L := Elementary)).derivatives, e.Legible := fun e he =>
    Coordinates.Frame.legible_of_over Elementary.faithful_toReal.finite (hp.derivatives_over_cartesian rfl e he)
  have htwo : Elementary.toReal (Literal.ofDecimal ⟨2, 0⟩) = 2 :=
    (Elementary.faithful_toReal.decimal ⟨2, 0⟩).trans (by norm_num)
  obtain ⟨out, globals, hout, hglobals, hsteps⟩ := trajectory_conserves_modifiedEnergy Elementary.toReal
    Elementary.faithful_toReal.interprets Elementary.faithful_toReal.zero oscillator oscillatorProblem
    validate_oscillator rfl rfl _ _ rfl hlegible 2 3 3 (fun _ _ => congrArg Except.ok htwo) (fun _ _ => rfl)
  obtain ⟨x, y, hx, hy, hrun⟩ := hsteps (1 / 2) 1 0
  obtain ⟨-, hy₁, hx₁, -⟩ := hrun 0
  obtain ⟨-, hy₂, hx₂, -⟩ := hrun 1
  obtain ⟨hcall, -, -, henergy⟩ := hrun 2
  have hy₂' : y 2 = -3 / 4 := by
    rw [hy₂, hx₁, hy₁, hx, hy]
    norm_num
  have hx₂' : x 2 = -5 / 4 := by
    rw [hx₂, hy₂', hx₁, hy₁, hx, hy]
    norm_num
  rw [hx₂', hy₂'] at hcall henergy
  exact ⟨out, globals, validate_oscillator, hout, hglobals, hcall, henergy⟩

end Example

end Config

end FlowShader
