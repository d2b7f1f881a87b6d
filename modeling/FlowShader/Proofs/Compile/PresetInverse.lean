import FlowShader.Proofs.Compile.VelocityField
import FlowShader.Proofs.Coordinates.Preset

namespace FlowShader

open Shader (Function Env Value)
open Coordinates (Frame Preset)
open scoped Real

variable {L : Type} [Literal L]

namespace Coordinates.Frame

variable {s : Frame L}

theorem exists_of_toCartesian {solver : Solver L} {f : Function L} (h : s.toCartesian solver = .ok f) :
    ∃ body, f = ⟨Names.toCartesian, [(.vec s.dimensions, "native")], .vec s.dimensions, body⟩ := by
  unfold toCartesian at h
  dsimp only at h
  split at h
  · exact ⟨_, (Except.ok.inj h).symm⟩
  · obtain ⟨_, -, h⟩ := exists_of_bind_eq_ok h
    exact ⟨_, (Except.ok.inj h).symm⟩
  · obtain ⟨_, -, h⟩ := exists_of_bind_eq_ok h
    exact ⟨_, (Except.ok.inj h).symm⟩
  · exact ⟨_, (Except.ok.inj h).symm⟩

theorem isCartesian_of_strategy (h : s.strategy = .explicit) : s.isCartesian = false := by
  unfold strategy at h
  split at h
  · cases h
  · next hcartesian => exact Bool.eq_false_iff.2 hcartesian

end Coordinates.Frame

variable [LawfulBEq L] [Literal.Legible L]

theorem Config.call_transforms {literal : L → ℝ} (hfaithful : Literal.Faithful literal) {c : Config L} {p : Problem L}
    {out : Output L} (hmodule : p.Compiles c out.module) (hp : p.Checked) (hstrategy : p.frame.strategy = .explicit)
    {es : List (Expr L)} (hes : p.frame.inverse = some es) (globals : Env ℝ) {native pos : List ℝ}
    (hpos : List.Forall₂ (Expr.HasValue (.ofPoint literal p.frame.labels native)) es pos)
    (hnative : List.Forall₂ (Expr.HasValue (.ofPoint literal p.frame.axes pos)) p.frame.forward native) :
    out.module.call literal globals Names.toCartesian [.vec native] = .ok (.vec pos) ∧
      out.module.call literal globals Names.toNative [.vec pos] = .ok (.vec native) := by
  have hm := hmodule.checked
  have hplain := hm.plain_context literal globals 64
  have hofFn {xs : List ℝ} (h : xs.length = p.frame.dimensions) : ∃ q : Fin p.frame.dimensions → ℝ, xs = List.ofFn q :=
    h ▸ ⟨xs.get, (List.ofFn_get xs).symm⟩
  obtain ⟨q, rfl⟩ := hofFn hnative.length_eq.symm
  obtain ⟨x, rfl⟩ := hofFn (hpos.length_eq.symm.trans (hp.frame.inverse es hes).1)
  obtain ⟨toCartesian, hcartesianMem, hcartesian⟩ := hmodule.toCartesian
  obtain ⟨toNative, hnativeMem, htoNative⟩ := hmodule.toNative
  have hcartesianRun := hp.frame.toCartesian_run hplain hfaithful hstrategy hes hcartesian hpos
  have hnativeRun := hp.frame.toNative_run hplain hfaithful (Frame.isCartesian_of_strategy hstrategy) htoNative hnative
  obtain ⟨_, rfl⟩ := Frame.exists_of_toCartesian hcartesian
  obtain ⟨_, rfl⟩ := Frame.exists_of_toNative htoNative
  exact ⟨(hm.callAt_eq_run literal globals hcartesianMem 64 _).trans hcartesianRun,
    (hm.callAt_eq_run literal globals hnativeMem 64 _).trans hnativeRun⟩

/-- In the preset systems with angles, compiled transforms take every regular point to its position and that back to the
point, whatever the global variables are. -/
theorem Config.toNative_toCartesian_preset (literal : L → ℝ) (hfaithful : Literal.Faithful literal) (c : Config L)
    (p : Problem L) (hvalidate : c.validate = .ok p) (preset : Preset)
    (hframe : c.frame = some (.preset preset.name)) :
    ∃ out, c.compile = .ok out ∧ ∀ (globals : Env ℝ) (native : List ℝ), preset.Regular native →
      out.module.call literal globals Names.toCartesian [.vec native] = .ok (.vec (preset.position native)) ∧
        out.module.call literal globals Names.toNative [.vec (preset.position native)] = .ok (.vec native) := by
  have hp := (checked_of_validate hvalidate).1
  obtain ⟨out, hout, hmodule⟩ := exists_compile_of_validate hvalidate
  have hpreset : p.frame = preset.frame := by
    obtain ⟨-, -, hread, -⟩ := validate_eq_ok_iff.1 hvalidate
    obtain ⟨hfind, -⟩ := readFrame_eq_ok_iff.1 hread
    unfold findFrame at hfind
    rw [hframe] at hfind
    exact Except.ok.inj (hfind.symm.trans preset.ofPreset_name)
  refine ⟨out, hout, fun globals native h => ?_⟩
  have hstrategy : p.frame.strategy = .explicit := by rw [hpreset, Preset.strategy_frame h]
  have hes : p.frame.inverse = some preset.inverse := by rw [hpreset]; rfl
  refine call_transforms hfaithful hmodule hp hstrategy hes globals ?_ ?_
  · rw [hpreset]
    exact Preset.inverse_hasValue h
  · rw [hpreset]
    exact Preset.forward_hasValue h hfaithful

namespace Config

section Example

def hyperspherical : Config L :=
  { ofDerivatives 4 ["r", "psi", "theta", "phi"] with frame := some (.preset "hyperspherical4d") }

def hypersphericalProblem : Problem L :=
  ⟨Preset.hyperspherical4d.frame, [.var "r", .var "psi", .var "theta", .var "phi"], none, none⟩

omit [LawfulBEq L] [Literal.Legible L] in
theorem readDerivatives_hyperspherical : (hyperspherical (L := L)).readDerivatives ["r", "psi", "theta", "phi"] =
    .ok hypersphericalProblem.derivatives := by cbv

theorem validate_hyperspherical : (hyperspherical (L := Elementary)).validate = .ok hypersphericalProblem := by
  refine validate_eq_ok_iff.2 ⟨(by decide : 2 ≤ 4 ∧ 4 ≤ 4), ?_, ?_, readDerivatives_hyperspherical, rfl, rfl⟩
  · exact settingErrors_eq_nil_of_defaults rfl rfl rfl rfl
  · exact readFrame_eq_ok_iff.2 ⟨Preset.ofPreset_name .hyperspherical4d, rfl⟩

/-- A point behind the plane where the azimuth is a right angle. -/
theorem toNative_toCartesian_preset_hyperspherical : ∃ out : Output Elementary,
    hyperspherical.validate = .ok (hypersphericalProblem (L := Elementary)) ∧ hyperspherical.compile = .ok out ∧
    Preset.hyperspherical4d.Regular [2, π / 6, π / 3, 5 * π / 6] ∧
    ∀ globals : Env ℝ,
      out.module.call Elementary.toReal globals Names.toCartesian [.vec [2, π / 6, π / 3, 5 * π / 6]] =
        .ok (.vec [-3 / 4, √3 / 4, 1 / 2, √3]) ∧
      out.module.call Elementary.toReal globals Names.toNative [.vec [-3 / 4, √3 / 4, 1 / 2, √3]] =
        .ok (.vec [2, π / 6, π / 3, 5 * π / 6]) := by
  have hπ := Real.pi_pos
  have hregular : Preset.hyperspherical4d.Regular [2, π / 6, π / 3, 5 * π / 6] :=
    ⟨two_pos, ⟨by linarith, by linarith⟩, ⟨by linarith, by linarith⟩, by linarith, by linarith⟩
  have hangle : 5 * π / 6 = π - π / 6 := by ring
  have hthree : √3 * √3 = 3 := Real.mul_self_sqrt (by norm_num)
  have hposition : Preset.hyperspherical4d.position [2, π / 6, π / 3, 5 * π / 6] =
      [-3 / 4, √3 / 4, 1 / 2, √3] := by
    simp only [Preset.position, hangle, Real.cos_pi_sub, Real.sin_pi_sub, Real.cos_pi_div_six, Real.sin_pi_div_six,
      Real.cos_pi_div_three, Real.sin_pi_div_three, List.cons.injEq, and_true]
    refine ⟨?_, ?_, ?_, ?_⟩
    · linear_combination (-1 / 4 : ℝ) * hthree
    · ring
    · ring
    · ring
  obtain ⟨out, hout, hcalls⟩ := toNative_toCartesian_preset Elementary.toReal Elementary.faithful_toReal hyperspherical
    hypersphericalProblem validate_hyperspherical .hyperspherical4d rfl
  refine ⟨out, validate_hyperspherical, hout, hregular, fun globals => ?_⟩
  rw [← hposition]
  exact hcalls globals _ hregular

end Example

end Config

end FlowShader
