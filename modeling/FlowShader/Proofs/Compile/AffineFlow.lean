import FlowShader.Proofs.Scalar.Real
import FlowShader.Proofs.Compile.NewtonChoice
import FlowShader.Proofs.Compile.VelocityField
import FlowShader.Proofs.Expr.Affine
import FlowShader.Proofs.Scheme.ImplicitEuler
import FlowShader.Proofs.Shader.Inversion

namespace FlowShader

open Shader (Term Stmt Function Module Env Value Context)
open Shader.Value (columns ofMatrix)
open Coordinates (Frame)

variable {L : Type} [Literal L]

theorem Literal.Faithful.pos_of_lt {literal : L → ℝ} (hfaithful : Literal.Faithful literal) {y : L}
    (hy : Scalar.lt 0 y = true) : 0 < literal y := by
  have hsign := hfaithful.func .sign y (hfaithful.finite _) (hfaithful.finite _) trivial
  have hone : Func.sign.apply y = 1 := if_pos hy
  rw [hone, hfaithful.one] at hsign
  by_contra hle
  have hother : Func.sign.apply (literal y) = if Scalar.lt (literal y) 0 then -1 else 0 :=
    if_neg (mt of_decide_eq_true hle)
  rw [hother] at hsign
  split at hsign
  · norm_num at hsign
  · norm_num at hsign

theorem Coordinates.Frame.Checked.places {s : Frame L} (hs : s.Checked) (literal : L → ℝ)
    (pos : Fin s.dimensions → ℝ) (x : ℝ) :
    Expr.Places (.ofPoint literal [Names.alpha] [x]) s.axes pos (s.cartesianValuation literal pos x) := by
  have hunbound : ∀ v ∈ s.axes, (Valuation.ofPoint literal [Names.alpha] [x]).binding v = none := by
    intro v hv
    refine Valuation.binding_ofPoint_of_not_mem ?_
    rw [List.mem_singleton]
    rintro rfl
    exact absurd (List.mem_of_mem_take hv) (by decide : Names.alpha ∉ ["x", "y", "z", "w", "u", "v"])
  refine ⟨rfl, hunbound, fun v z hv => ?_, fun i v hi => ?_⟩
  · have hnot : v ∉ s.axes := fun hmem => by
      rw [hunbound v hmem] at hv
      cases hv
    rw [Frame.cartesianValuation, Valuation.binding_ofPoint_append (by rw [hs.length_axes, List.length_ofFn]),
      Valuation.binding_ofPoint_of_not_mem hnot, hv]
    rfl
  · exact hs.binding_cartesian (Valuation.binding_ofPoint _ (Frame.nodup_axes _) hi (by simp))

namespace Problem

variable {p : Problem L} (hp : p.Checked) {alpha : String}
include hp

section Code

variable [LawfulBEq L] [Literal.Legible L] {ctx : Context L ℝ} {x : ℝ} (hplain : ctx.Plain)
  (hfaithful : Literal.Faithful ctx.literal) (hfree : Names.isTaken alpha = false)
  (halpha : ctx.globals.get? alpha = some (.float x)) {pos : Fin p.frame.dimensions → ℝ}
include hplain hfaithful hfree halpha

theorem Checked.velocityJacobian_run {m : Matrix L} {f : Function L} (hf : Scheme.velocityJacobian m alpha = .ok f)
    (hover : Matrix.RowsOver (p.frame.axes ++ [Names.alpha]) m.rows)
    {e : Fin p.frame.dimensions → Fin p.frame.dimensions → Expr L} (hrows : m.rows = Matrix.grid e)
    {J : Fin p.frame.dimensions → Fin p.frame.dimensions → ℝ}
    (he : ∀ i j, (e i j).HasValue (p.frame.cartesianValuation ctx.literal pos x) (J i j)) :
    f.run ctx [.vec (List.ofFn pos)] = .ok (ofMatrix J) := by
  obtain rfl : m = ⟨Matrix.grid e⟩ := congrArg Matrix.mk hrows
  have hentries : ∀ a ∈ columns e, a.Over (p.frame.axes ++ [Names.alpha]) := by
    intro a ha
    rw [← Matrix.columnEntries_grid] at ha
    obtain ⟨row, hrow, ha⟩ := Matrix.mem_of_mem_columnEntries ha
    exact hover row hrow a ha
  -- The entries are written column by column, as matrices are stored.
  have hvalues : List.Forall₂ (fun e y => e.meaning true (p.frame.cartesianValuation ctx.literal pos x) = .ok y)
      (columns e) (columns J) :=
    Matrix.forall₂_ofFn.2 fun i => (he _ _).meaning hfaithful true
  obtain ⟨declarations, ts, env', hlower, hexec, hts⟩ :=
    hp.lowerAll_position hplain hfaithful.interprets hfree halpha (Matrix.entries ⟨Matrix.grid e⟩) hvalues
      (fun a ha => Frame.legible_of_over hfaithful.finite (hentries a ha)) hentries
  let n := p.frame.dimensions
  have hbody : Scheme.velocityJacobian ⟨Matrix.grid e⟩ alpha = .ok ⟨Names.velocityJacobian, [(.vec n, "pos")], .mat n,
      declarations ++ [.result (.construct (.mat n) ts)]⟩ := by
    unfold Scheme.velocityJacobian
    rw [Matrix.height_grid, Matrix.columnEntries_grid]
    exact bind_eq_ok_of hlower rfl
  obtain rfl := Except.ok.inj (hf.symm.trans hbody)
  refine Function.run_vector env' (Stmt.execAll_result hexec ?_)
  rw [Term.eval]
  exact bind_eq_ok_of hts (Value.construct_mat hp.frame.two_le J)

theorem Checked.velocityJacobian_affine {es : List (Expr L)} (hes : p.newtonVelocity = some es)
    {A : Fin p.frame.dimensions → Fin p.frame.dimensions → ℝ} {b : Fin p.frame.dimensions → ℝ}
    (hfield : Expr.AffineField (.ofPoint ctx.literal [Names.alpha] [x]) p.frame.axes es A b) {f : Function L}
    (hf : Scheme.velocityJacobian (.jacobian es p.frame.axes) alpha = .ok f) (q : Fin p.frame.dimensions → ℝ) :
    f.run ctx [.vec (List.ofFn q)] = .ok (ofMatrix A) := by
  obtain ⟨hlength, hover⟩ := hp.newtonVelocity_over hes
  have hplaces := hp.frame.places ctx.literal q x
  have hexact : Literal.Exact (p.frame.cartesianValuation ctx.literal q x).literal := hfaithful.toExact
  obtain ⟨e, hrows, he⟩ := Matrix.jacobian_hasValue hexact (Nat.lt_of_lt_of_le Nat.two_pos hp.frame.two_le) hlength
    hp.frame.length_axes fun i j g v hg hv =>
      (hfield.affine hg).derivative_hasValue hplaces hfaithful (Frame.nodup_axes _) hv
  exact hp.velocityJacobian_run hplain hfaithful hfree halpha hf (Matrix.jacobian_over hover) hrows he

end Code

theorem Checked.exists_newtonJacobian (hfree : Names.isTaken alpha = false) {es : List (Expr L)}
    (hes : p.newtonVelocity = some es)
    (hderivatives : ∀ e ∈ p.derivatives, ∀ v ∈ p.frame.axes ++ p.frame.labels, e.Smooth v)
    (hsmooth : ∀ e ∈ es, ∀ v ∈ p.frame.axes, e.Smooth v) :
    ∃ f, Scheme.velocityJacobian (.jacobian es p.frame.axes) alpha = .ok f ∧
      p.newtonJacobian .implicitEuler .newton alpha = .ok (some f, []) := by
  have hsort : Expr.sortNames [] = [] := by simp [Expr.sortNames]
  have hrough : p.roughDerivatives = [] := roughDerivatives_eq_nil_iff.2 hderivatives
  have hcalls : es.flatMap (fun e => p.frame.axes.flatMap fun v => e.roughCalls v) = [] :=
    List.flatMap_eq_nil_iff.2 fun e he => Expr.flatMap_roughCalls_eq_nil_iff.2 (hsmooth e he)
  have hcode : p.newtonJacobian .implicitEuler .newton alpha = (do
      let f ← Scheme.velocityJacobian (.jacobian es p.frame.axes) alpha
      return (some f, [])) := by
    unfold newtonJacobian
    simp only [hrough, hes, hcalls, hsort]
    rfl
  -- That the entries can be lowered is known from the types of the code.
  obtain ⟨_, _, hjacobian, -⟩ := hp.newtonJacobian_meets (clear_globalTypes false hfree) List.lookup_cons_self
    .implicitEuler .newton
  obtain ⟨f, hf, -⟩ := exists_of_bind_eq_ok (hcode.symm.trans hjacobian)
  exact ⟨f, hf, hcode.trans (bind_eq_ok_of hf rfl)⟩

end Problem

omit [Literal L] in
theorem Shader.Module.exists_globals_constant {m : Module L} {name : String} {y : L}
    (h : m.constants = [⟨name, .float, .float y⟩]) (literal : L → ℝ) :
    ∃ globals, m.globals literal = .ok globals ∧ globals.get? name = some (.float (literal y)) := by
  rw [Module.globals, h]
  exact ⟨_, rfl, Env.get?_set_self _ _ _⟩

section Step

variable [LawfulBEq L] [Literal.Legible L] {literal : L → ℝ} (hfaithful : Literal.Faithful literal) {c : Config L}
  {p : Problem L} (hvalidate : c.validate = .ok p) (hcartesian : p.frame.isCartesian = true)
  (hscheme : c.scheme = .implicitEuler) (hmethod : c.method = .newton) {x : ℝ}
  {A B : Fin p.frame.dimensions → Fin p.frame.dimensions → ℝ} {b b' : Fin p.frame.dimensions → ℝ}
  (hfield : Expr.AffineField (.ofPoint literal [Names.alpha] [x]) p.frame.axes p.derivatives A b)
  {es : List (Expr L)} (hes : p.newtonVelocity = some es)
  (hnewton : Expr.AffineField (.ofPoint literal [Names.alpha] [x]) p.frame.axes es B b')
include hfaithful hvalidate hcartesian hscheme hmethod hfield hes hnewton

/-- The compiled step is Newton iteration with the matrix of the Newton expressions. -/
theorem Config.integrate_newton : ∃ out globals, c.compile = .ok out ∧ out.module.globals literal = .ok globals ∧
    ∀ (pos : Fin p.frame.dimensions → ℝ) (h : ℝ),
      Shader.Inverse.Unclamped (literal c.pivotEpsilon) (Scheme.stepMatrix h B) →
      ∃ N, Matrix.of N * Matrix.of (Scheme.stepMatrix h B) = 1 ∧
        out.module.call literal (globals.set c.alphaName (.float x)) Names.integrate
          [.vec (List.ofFn pos), .float h] = .ok (.vec (List.ofFn
            ((Scheme.newtonRound A N b pos h)^[c.rounds.getD c.scheme.defaultRounds]
              (pos + h • ((Matrix.of A).mulVec pos + b))))) := by
  have hp := (checked_of_validate hvalidate).1
  have hvalid : c.Valid := exists_validate_iff.1 ⟨p, hvalidate⟩
  have hplaces := fun pos => hp.frame.places literal pos x
  obtain ⟨out, hout, hmodule⟩ := exists_compile_of_validate hvalidate
  have hm := hmodule.checked
  have hunbound := (hplaces 0).unbound
  obtain ⟨jacobian, hjacobian, hcode⟩ := hp.exists_newtonJacobian hvalid.free hes
    (by simpa [hp.frame.labels_of_isCartesian hcartesian] using hfield.smooth hunbound) (hnewton.smooth hunbound)
  obtain ⟨hjacobianMem, ⟨inverse, hinverseMem, hinverse⟩, hintegrateMem, hconstants⟩ :=
    hmodule.newton jacobian [] (by rw [hscheme, hmethod, hcode])
  obtain ⟨getVelocity, hgetMem, hget⟩ := hmodule.getVelocity
  obtain ⟨globals, hglobals, hepsilon⟩ := Module.exists_globals_constant hconstants literal
  refine ⟨out, globals, hout, hglobals, fun pos h hunclamped => ?_⟩
  let globals' := globals.set c.alphaName (.float x)
  have halpha : globals'.get? c.alphaName = some (.float x) := Env.get?_set_self _ _ _
  have hepsilon' : globals'.get? Shader.Inverse.epsilonName = some (.float (literal c.pivotEpsilon)) :=
    (Env.get?_set_ne _ (ne_of_isTaken hvalid.free (by decide)).symm _).trans hepsilon
  have hplain := hm.plain_context literal globals'
  have happly {f : Function L} (hf : f ∈ out.module.functions) := hm.apply_eq_run literal globals' hf 63
  obtain ⟨N, hrun, hN⟩ := Shader.Inverse.function_run (hplain 63 (.func .abs)) hfaithful.one hepsilon'
    (hfaithful.pos_of_lt hvalid.epsilon.2) (Scheme.stepMatrix h B) hp.frame.two_le hp.frame.le_four hinverse
  -- The step runs one level below its call, and what it calls one level further down.
  have hcalls : Scheme.AffineCalls (out.module.context literal globals' 64) A b B h N := by
    refine ⟨fun q => ?_, fun q => ?_, ?_⟩
    · obtain ⟨_, rfl⟩ := Problem.exists_of_getVelocity hget
      have hmeanings := (hfield.hasValue (hplaces q)).imp fun _ _ hy => hy.meaning hfaithful true
      exact (happly hgetMem _).trans (hp.getVelocity_run_cartesian (hplain 63) hfaithful.interprets hvalid.free halpha
        hcartesian hget hmeanings fun e he =>
          Frame.legible_of_over hfaithful.finite (hp.derivatives_over_cartesian hcartesian e he))
    · have hjacobianRun := hp.velocityJacobian_affine (hplain 63) hfaithful hvalid.free halpha hes hnewton hjacobian q
      obtain ⟨_, -, hf⟩ := exists_of_bind_eq_ok hjacobian
      obtain rfl := Except.ok.inj hf
      exact (happly hjacobianMem _).trans hjacobianRun
    · rw [← Shader.Inverse.name_of_function hp.frame.two_le hp.frame.le_four hinverse]
      exact (happly hinverseMem _).trans hrun
  rw [hscheme] at hintegrateMem ⊢
  exact ⟨N, hN hunclamped, (hm.callAt_eq_run literal globals' hintegrateMem 64 _).trans (hcalls.integrate_run hfaithful.one _)⟩

end Step

/-- Implicit Euler steps through an affine field by Newton iteration are exact, if the Newton expressions that are
supplied, if any, have the matrix of the field, and no pivot is clamped. -/
theorem Config.integrate_solves_implicitEuler [LawfulBEq L] [Literal.Legible L] (literal : L → ℝ)
    (hfaithful : Literal.Faithful literal) (c : Config L) (p : Problem L) (hvalidate : c.validate = .ok p)
    (hcartesian : p.frame.isCartesian = true) (hscheme : c.scheme = .implicitEuler) (hmethod : c.method = .newton)
    (hrounds : 0 < c.rounds.getD c.scheme.defaultRounds) (x : ℝ)
    (A : Fin p.frame.dimensions → Fin p.frame.dimensions → ℝ) (b : Fin p.frame.dimensions → ℝ)
    (hfield : Expr.AffineField (.ofPoint literal [Names.alpha] [x]) p.frame.axes p.derivatives A b)
    (hnewton : ∀ es, p.newtonExpressions = some es →
      ∃ b', Expr.AffineField (.ofPoint literal [Names.alpha] [x]) p.frame.axes es A b') :
    ∃ out globals, c.compile = .ok out ∧ out.module.globals literal = .ok globals ∧
      ∀ (pos : Fin p.frame.dimensions → ℝ) (h : ℝ),
        Shader.Inverse.Unclamped (literal c.pivotEpsilon) (Scheme.stepMatrix h A) →
        ∃ q : Fin p.frame.dimensions → ℝ, out.module.call literal (globals.set c.alphaName (.float x)) Names.integrate
            [.vec (List.ofFn pos), .float h] = .ok (.vec (List.ofFn q)) ∧
          q = pos + h • ((Matrix.of A).mulVec q + b) := by
  obtain ⟨es, b', hes, hmatrix⟩ : ∃ es b', p.newtonVelocity = some es ∧
      Expr.AffineField (.ofPoint literal [Names.alpha] [x]) p.frame.axes es A b' := by
    unfold Problem.newtonVelocity
    cases hsupplied : p.newtonExpressions with
    | some es =>
        obtain ⟨b', hes⟩ := hnewton es hsupplied
        exact ⟨es, b', rfl, hes⟩
    | none => exact ⟨p.derivatives, b, if_pos hcartesian, hfield⟩
  obtain ⟨out, globals, hout, hglobals, hstep⟩ :=
    integrate_newton hfaithful hvalidate hcartesian hscheme hmethod hfield hes hmatrix
  refine ⟨out, globals, hout, hglobals, fun pos h hunclamped => ?_⟩
  obtain ⟨N, hN, hcall⟩ := hstep pos h hunclamped
  exact ⟨_, hcall, Scheme.iterate_newtonRound_solves hN hrounds rfl⟩

namespace Config

section Swirl

open Shader.Inverse (Rows)

def numeral (n : Nat) : Expr L := .literal (Literal.ofDecimal ⟨n, 0⟩)

def swirlFormulas (third : Expr L) : List (Expr L) :=
  [.op .mul (numeral 2) (.op .add (.var "x") (.var "y")), .op .mul (numeral 2) (.op .sub (.var "y") (.var "x")), third]

def damping (constant : Expr L) : Expr L := .op .sub constant (.op .mul (.var "z") (numeral 2))

def swirl (third : String) : Config L :=
  { ofDerivatives 3 ["2 * (x + y)", "2 * (y - x)", "a - z * 2"] with
    scheme := .implicitEuler, method := .newton, newtonExpressions := some ["2 * (x + y)", "2 * (y - x)", third] }

theorem readDerivatives_swirl (third : String) :
    (swirl (L := L) third).readDerivatives ["x", "y", "z"] = .ok (swirlFormulas (damping (.var "a"))) := by cbv

theorem readNewtonExpressions_damped : (swirl (L := L) "1 - z * 2").readNewtonExpressions =
    .ok (some (swirlFormulas (damping (numeral 1)))) := by cbv

theorem readNewtonExpressions_undamped :
    (swirl (L := L) "a").readNewtonExpressions = .ok (some (swirlFormulas (.var "a"))) := by cbv

def space : List (Expr L) := [.var "x", .var "y", .var "z"]

def spaceFrame : Frame L :=
  ⟨"cartesian3d", [⟨"x", "x"⟩, ⟨"y", "y"⟩, ⟨"z", "z"⟩], space, some space, false, .generate ["x", "y", "z"] space⟩

theorem cartesian_space : Frame.cartesian 3 = .ok (spaceFrame (L := L)) := by
  have hread (part : Coordinates.Part) :
      Frame.readFormulas part ["x", "y", "z"] ["x", "y", "z"] = .ok (space (L := L)) := by
    cases part <;> cbv
  unfold Frame.cartesian Frame.ofRecord
  change (Frame.readFormulas .forward ["x", "y", "z"] ["x", "y", "z"] >>= _) = _
  refine bind_eq_ok_of (hread _) ?_
  change ((some <$> Frame.readFormulas .inverse ["x", "y", "z"] ["x", "y", "z"]) >>= _) = _
  rw [hread]
  rfl

def swirlProblem (third : Expr L) : Problem L where
  frame := spaceFrame
  derivatives := swirlFormulas (damping (.var "a"))
  newtonExpressions := some (swirlFormulas third)
  color := none

theorem validate_swirl {third : String} {e : Expr Elementary}
    (h : (swirl third).readNewtonExpressions = .ok (some (swirlFormulas e))) :
    (swirl third).validate = .ok (swirlProblem e) := by
  refine validate_eq_ok_iff.2 ⟨(by decide : 2 ≤ 3 ∧ 3 ≤ 4), ?_, ?_, readDerivatives_swirl third, h, rfl⟩
  · exact settingErrors_eq_nil_of_defaults rfl rfl rfl rfl
  · exact readFrame_eq_ok_iff.2 ⟨cartesian_space, rfl⟩

theorem pivotEpsilon_swirl (third : String) : Elementary.toReal (swirl third).pivotEpsilon ≤ 1 := by
  change Elementary.toReal (Literal.ofDecimal ⟨1, -4⟩) ≤ 1
  rw [Elementary.faithful_toReal.decimal ⟨1, -4⟩]
  norm_num

def swirlMatrix (s t : ℝ) : Fin 3 → Fin 3 → ℝ := ![![s, s, 0], ![-s, s, 0], ![0, 0, t]]

section Field

variable {ρ : Valuation Elementary ℝ} (hρ : ρ.literal = Elementary.toReal)
include hρ

theorem numeral_hasValue (n : Nat) : (numeral n).HasValue ρ n := by
  have hfaithful : Literal.Faithful ρ.literal := hρ ▸ Elementary.faithful_toReal
  exact .ofLiteral hfaithful ((hfaithful.decimal ⟨n, 0⟩).trans (by norm_num))

theorem affineField_swirl {third : Expr Elementary} {t c : ℝ}
    (h : Expr.Affine ρ ["x", "y", "z"] third ![0, 0, t] c) :
    Expr.AffineField ρ ["x", "y", "z"] (swirlFormulas third) (swirlMatrix 2 t) ![0, 0, c] := by
  have hx : Expr.Affine (n := 3) ρ ["x", "y", "z"] (.var "x") (Pi.single 0 1) 0 := .coordinate rfl
  have hy : Expr.Affine (n := 3) ρ ["x", "y", "z"] (.var "y") (Pi.single 1 1) 0 := .coordinate rfl
  have hsum : ((2 : ℕ) : ℝ) • (Pi.single 0 1 + Pi.single 1 1 : Fin 3 → ℝ) = swirlMatrix 2 t 0 := by
    ext j
    fin_cases j <;> simp [swirlMatrix]
  have hdifference : ((2 : ℕ) : ℝ) • (Pi.single 1 1 - Pi.single 0 1 : Fin 3 → ℝ) = swirlMatrix 2 t 1 := by
    ext j
    fin_cases j <;> simp [swirlMatrix]
  refine .cons (hsum ▸ ?_) (.cons (hdifference ▸ ?_) (.cons h .nil))
  · simpa using Expr.Affine.mul (numeral_hasValue hρ 2) (hx.add hy)
  · simpa using Expr.Affine.mul (numeral_hasValue hρ 2) (hy.sub hx)

theorem affine_damping {constant : Expr Elementary} {c : ℝ} (h : constant.HasValue ρ c) :
    Expr.Affine (n := 3) ρ ["x", "y", "z"] (damping constant) ![0, 0, -2] c := by
  have hz : Expr.Affine (n := 3) ρ ["x", "y", "z"] (.var "z") (Pi.single 2 1) 0 := .coordinate rfl
  have hrow : (0 - ((2 : ℕ) : ℝ) • Pi.single 2 1 : Fin 3 → ℝ) = ![0, 0, -2] := by
    ext j
    fin_cases j <;> simp
  rw [← hrow]
  simpa [damping] using (Expr.Affine.number h).sub (hz.mul_number (numeral_hasValue hρ 2))

end Field

theorem stepMatrix_swirl (t : ℝ) :
    Scheme.stepMatrix (1 / 2) (swirlMatrix 2 t) = ![![0, -1, 0], ![1, 0, 0], ![0, 0, 1 - 1 / 2 * t]] := by
  ext i j
  fin_cases i <;> fin_cases j <;> norm_num [Scheme.stepMatrix, swirlMatrix]

theorem unclamped_swirl {ε t : ℝ} (hε : ε ≤ 1) (ht : t ≤ 0) :
    Shader.Inverse.Unclamped ε (Scheme.stepMatrix (1 / 2) (swirlMatrix 2 t)) := by
  let S₀ : Rows ℝ 3 := Rows.start ![![0, -1, 0], ![1, 0, 0], ![0, 0, 1 - 1 / 2 * t]]
  let S : Rows ℝ 3 := S₀ ∘ Equiv.swap 0 1
  have hlast : Equiv.swap (0 : Fin 3) 1 2 = 2 := rfl
  -- The first pivot would be zero, so that rows are exchanged.
  have hfirst : Rows.pivot 0 S₀ = S := by
    change Rows.exchange 0 (Rows.exchange 0 S₀ 1) 2 = S
    simp [S, S₀, Rows.start, Rows.exchange, hlast]
  have hstep : Rows.step 0 S₀ = S := by
    rw [Rows.step, hfirst]
    funext i
    fin_cases i <;> simp [S, S₀, Rows.start, Rows.clear, Rows.scale, hlast]
  have hsecond : Rows.pivot 1 S = S := by
    change Rows.exchange 1 S 2 = S
    simp [S, S₀, Rows.start, Rows.exchange, hlast]
  have hthird : ((Rows.step 1 S) 2).1 2 = 1 - 1 / 2 * t := by
    rw [Rows.step, hsecond]
    simp [S, S₀, Rows.start, Rows.clear, Rows.scale, hlast]
  have hpivots : ε ≤ |(Rows.pivot 0 S₀ 0).1 0| ∧ ε ≤ |(Rows.pivot 1 (Rows.step 0 S₀) 1).1 1| ∧
      ε ≤ |(Rows.step 1 (Rows.step 0 S₀) 2).1 2| ∧ True := by
    rw [hstep, hfirst, hsecond, hthird]
    refine ⟨?_, ?_, (by linarith : ε ≤ 1 - 1 / 2 * t).trans (le_abs_self _), trivial⟩
    · simpa [S, S₀, Rows.start] using hε
    · simpa [S, S₀, Rows.start] using hε
  rw [stepMatrix_swirl, Shader.Inverse.Unclamped, if_neg (by decide)]
  exact hpivots

theorem swirl_step (t c : ℝ) (q : Fin 3 → ℝ) :
    ![1, 2, 4] + (1 / 2 : ℝ) • ((Matrix.of (swirlMatrix 2 t)).mulVec q + ![0, 0, c]) =
      ![1 + q 0 + q 1, 2 - q 0 + q 1, 4 + (t * q 2 + c) / 2] := by
  ext i
  fin_cases i <;> simp [swirlMatrix, dotProduct, Fin.sum_univ_three] <;> ring

theorem swirl_solution {q : Fin 3 → ℝ}
    (hq : q = ![1, 2, 4] + (1 / 2 : ℝ) • ((Matrix.of (swirlMatrix 2 (-2))).mulVec q + ![0, 0, 4])) :
    q = ![2, -1, 3] := by
  rw [swirl_step] at hq
  have h₀ : q 0 = 1 + q 0 + q 1 := congrFun hq 0
  have h₁ : q 1 = 2 - q 0 + q 1 := congrFun hq 1
  have h₂ : q 2 = 4 + (-2 * q 2 + 4) / 2 := congrFun hq 2
  ext i
  fin_cases i
  · change q 0 = 2
    linarith
  · change q 1 = -1
    linarith
  · change q 2 = 3
    linarith

/-- A constant is left out of the Newton expressions, which changes nothing. -/
theorem integrate_solves_implicitEuler_swirl :
    ∃ (out : Output Elementary) (globals : Env ℝ),
      (swirl (L := Elementary) "1 - z * 2").validate = .ok (swirlProblem (damping (numeral 1))) ∧
      (swirl "1 - z * 2").compile = .ok out ∧ out.module.globals Elementary.toReal = .ok globals ∧
      out.module.call Elementary.toReal (globals.set "u_alpha" (.float 4)) "integrate"
        [.vec [1, 2, 4], .float (1 / 2)] = .ok (.vec [2, -1, 3]) := by
  let ρ : Valuation Elementary ℝ := .ofPoint Elementary.toReal [Names.alpha] [4]
  have hvalidate := validate_swirl readNewtonExpressions_damped
  have hfield : Expr.AffineField ρ ["x", "y", "z"] (swirlFormulas (damping (.var "a"))) (swirlMatrix 2 (-2))
      ![0, 0, 4] := affineField_swirl rfl (affine_damping rfl (.var rfl))
  have hnewton := affineField_swirl (ρ := ρ) rfl (affine_damping rfl (numeral_hasValue rfl 1))
  obtain ⟨out, globals, hout, hglobals, hstep⟩ := integrate_solves_implicitEuler Elementary.toReal
    Elementary.faithful_toReal _ _ hvalidate rfl rfl rfl (by decide) 4 (swirlMatrix 2 (-2)) ![0, 0, 4] hfield
    fun es hes => ⟨_, Option.some.inj hes ▸ hnewton⟩
  obtain ⟨q, hcall, hq⟩ := hstep ![1, 2, 4] (1 / 2) (unclamped_swirl (pivotEpsilon_swirl _) (by norm_num))
  obtain rfl : q = ![2, -1, 3] := swirl_solution hq
  exact ⟨out, globals, hvalidate, hout, hglobals, hcall⟩

/-- Without the damping in its matrix, a round misses the solution in the third direction. -/
theorem newtonRound_swirl {N : Fin 3 → Fin 3 → ℝ}
    (hN : Matrix.of N * Matrix.of (Scheme.stepMatrix (1 / 2) (swirlMatrix 2 0)) = 1) (q : Fin 3 → ℝ) :
    Scheme.newtonRound (swirlMatrix 2 (-2)) N ![0, 0, 4] ![1, 2, 4] (1 / 2) q = ![2, -1, 6 - q 2] := by
  have hresidual : q - ![1, 2, 4] - (1 / 2 : ℝ) • ((Matrix.of (swirlMatrix 2 (-2))).mulVec q + ![0, 0, 4]) =
      (Matrix.of (Scheme.stepMatrix (1 / 2) (swirlMatrix 2 0))).mulVec ![q 0 - 2, q 1 + 1, 2 * q 2 - 6] := by
    rw [sub_sub, swirl_step, stepMatrix_swirl]
    ext i
    fin_cases i <;> simp <;> ring
  rw [Scheme.newtonRound, hresidual, Matrix.mulVec_mulVec, hN, Matrix.one_mulVec]
  ext i
  fin_cases i
  · simp
  · simp
  · change q 2 - (2 * q 2 - 6) = 6 - q 2
    ring

theorem iterate_newtonRound_swirl {N : Fin 3 → Fin 3 → ℝ}
    (hN : Matrix.of N * Matrix.of (Scheme.stepMatrix (1 / 2) (swirlMatrix 2 0)) = 1) :
    (Scheme.newtonRound (swirlMatrix 2 (-2)) N ![0, 0, 4] ![1, 2, 4] (1 / 2))^[3]
      (![1, 2, 4] + (1 / 2 : ℝ) • ((Matrix.of (swirlMatrix 2 (-2))).mulVec ![1, 2, 4] + ![0, 0, 4])) =
      ![2, -1, 4] := by
  have hvalue : (6 - (6 - (6 - (4 + (-2 * 4 + 4) / 2))) : ℝ) = 4 := by norm_num
  simp only [Function.iterate_succ_apply', Function.iterate_zero, id, newtonRound_swirl hN, swirl_step]
  exact congrArg (fun z => ![2, -1, z]) hvalue

/-- The supplied Newton expressions leave out the damping, and the step does not solve its equation. -/
theorem integrate_swirl_undamped :
    ∃ (out : Output Elementary) (globals : Env ℝ),
      (swirl "a").validate = .ok (swirlProblem (L := Elementary) (.var "a")) ∧
      (swirlProblem (L := Elementary) (.var "a")).frame.isCartesian = true ∧
      Expr.AffineField (.ofPoint Elementary.toReal [Names.alpha] [4]) ["x", "y", "z"]
        (swirlProblem (.var "a")).derivatives (swirlMatrix 2 (-2)) ![0, 0, 4] ∧
      Shader.Inverse.Unclamped (Elementary.toReal (swirl "a").pivotEpsilon)
        (Scheme.stepMatrix (1 / 2) (swirlMatrix 2 (-2))) ∧
      (swirl "a").compile = .ok out ∧ out.module.globals Elementary.toReal = .ok globals ∧
      out.module.call Elementary.toReal (globals.set "u_alpha" (.float 4)) "integrate"
        [.vec [1, 2, 4], .float (1 / 2)] = .ok (.vec [2, -1, 4]) ∧
      (![2, -1, 4] : Fin 3 → ℝ) ≠
        ![1, 2, 4] + (1 / 2 : ℝ) • ((Matrix.of (swirlMatrix 2 (-2))).mulVec ![2, -1, 4] + ![0, 0, 4]) := by
  let ρ : Valuation Elementary ℝ := .ofPoint Elementary.toReal [Names.alpha] [4]
  have hvalidate := validate_swirl readNewtonExpressions_undamped
  have hfield : Expr.AffineField ρ ["x", "y", "z"] (swirlFormulas (damping (.var "a"))) (swirlMatrix 2 (-2))
      ![0, 0, 4] := affineField_swirl rfl (affine_damping rfl (.var rfl))
  have hrow : (![0, 0, 0] : Fin 3 → ℝ) = 0 := by simp
  have hnewton : Expr.AffineField ρ ["x", "y", "z"] (swirlFormulas (.var "a")) (swirlMatrix 2 0) ![0, 0, 4] :=
    affineField_swirl rfl (hrow ▸ .number (.var rfl))
  obtain ⟨out, globals, hout, hglobals, hstep⟩ :=
    integrate_newton Elementary.faithful_toReal hvalidate rfl rfl rfl hfield rfl hnewton
  obtain ⟨N, hN, hcall⟩ := hstep ![1, 2, 4] (1 / 2) (unclamped_swirl (pivotEpsilon_swirl _) le_rfl)
  refine ⟨out, globals, hvalidate, rfl, hfield, unclamped_swirl (pivotEpsilon_swirl _) (by norm_num), hout, hglobals,
    hcall.trans (congrArg (fun q : Fin 3 → ℝ => Except.ok (Value.vec (List.ofFn q))) (iterate_newtonRound_swirl hN)),
    fun heq => ?_⟩
  have hthird : (4 : ℝ) = 3 := congrFun (swirl_solution heq) 2
  norm_num at hthird

end Swirl

end Config

end FlowShader
