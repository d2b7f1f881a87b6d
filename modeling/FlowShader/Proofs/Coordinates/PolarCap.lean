import FlowShader.Proofs.Scalar.Real
import FlowShader.Coordinates.Preset
import FlowShader.Proofs.Coordinates.Velocity

namespace FlowShader

variable {L : Type} [Literal L]

theorem Expr.HasValue.exists_eval {literal : L → ℝ} (hfaithful : Literal.Faithful literal)
    {binding : String → Option L} {e : Expr L} {y : ℝ}
    (h : e.HasValue ⟨literal, fun v => (binding v).map literal⟩ y) :
    ∃ z, e.eval ⟨id, binding⟩ = .ok z ∧ literal z = y := by
  have hfinite := hfaithful.finite
  induction h with
  | @literal z _ => exact ⟨z, rfl, rfl⟩
  | @constant c => exact ⟨c.value, rfl, hfaithful.constant c⟩
  | var hv =>
      obtain ⟨z, hz, hvalue⟩ := Option.map_eq_some_iff.1 hv
      exact ⟨z, by simp only [Expr.eval, hz], hvalue⟩
  | @call f _ _ _ hdefined ih =>
      obtain ⟨z, hz, rfl⟩ := ih
      exact ⟨f.apply z, by rw [Expr.eval, hz]; rfl, hfaithful.func f z (hfinite _) (hfinite _) hdefined⟩
  | @call₂ f _ _ _ _ _ _ iha ihb =>
      obtain ⟨z, hz, rfl⟩ := iha
      obtain ⟨w, hw, rfl⟩ := ihb
      exact ⟨f.apply z w, by rw [Expr.eval, hz, hw]; rfl, hfaithful.biFunc f z w (hfinite _) (hfinite _) (hfinite _)⟩
  | @op o _ _ _ _ _ _ hdefined iha ihb =>
      obtain ⟨z, hz, rfl⟩ := iha
      obtain ⟨w, hw, rfl⟩ := ihb
      exact ⟨o.apply z w, by rw [Expr.eval, hz, hw]; rfl,
        hfaithful.operator o z w (hfinite _) (hfinite _) (hfinite _) hdefined⟩

namespace Coordinates

open Shader (Stmt Env Module Builtin)

theorem Atlas.capAxis_eq_zero {literal : L → ℝ} (hfaithful : Literal.Faithful literal)
    (horder : ∀ x y : L, Scalar.lt x y = decide (literal x < literal y)) {axis : String} {axes : List String}
    {arg : Expr L} {x : L} (harg : arg.eval (unitPoint (axis :: axes) axis) = .ok x) (hx : literal x = 0) :
    capAxis (axis :: axes) arg = 0 := by
  have hsize (y : L) : literal (Scalar.abs y) = |literal y| :=
    hfaithful.func .abs y (hfaithful.finite _) (hfaithful.finite _) trivial
  have hle (y : L) : Scalar.lt (Scalar.abs y) (Scalar.abs x) = false := by
    rw [horder, hsize, hsize, hx, abs_zero, decide_eq_false_iff_not, not_lt]
    exact abs_nonneg _
  unfold capAxis
  rw [List.zipIdx_cons, List.foldl_cons]
  simp only [harg, hfaithful.finite, Bool.not_true, Bool.false_eq_true, if_false]
  generalize (axes.zipIdx (0 + 1)) = later
  induction later with
  | nil => rfl
  | cons p later ih =>
      obtain ⟨name, i⟩ := p
      rw [List.foldl_cons]
      dsimp only
      cases arg.eval (unitPoint (axis :: axes) name) with
      | error => exact ih
      | ok y =>
          simp only [hle, Bool.false_eq_true, if_false]
          exact ih

namespace Frame

section Formulas

def sphericalRadius : Expr L :=
  .call .sqrt (.op .add (.op .add (Expr.square (.var "x")) (Expr.square (.var "y"))) (Expr.square (.var "z")))

def polarCosine : Expr L := .op .div (.var "z") sphericalRadius

def sphericalForward : List (Expr L) :=
  [sphericalRadius, .call .acos polarCosine, .call₂ .atan2 (.var "y") (.var "x")]

def sphericalInverse : List (Expr L) :=
  let planar : Expr L := .op .mul (.var "r") (.call .sin (.var "theta"))
  [.op .mul planar (.call .cos (.var "phi")), .op .mul planar (.call .sin (.var "phi")),
    .op .mul (.var "r") (.call .cos (.var "theta"))]

def sphericalFrame : Frame L :=
  ⟨"spherical3d", [⟨"r", "r"⟩, ⟨"theta", "θ"⟩, ⟨"phi", "φ"⟩], sphericalForward, some sphericalInverse, false,
    .generate ["x", "y", "z"] sphericalForward⟩

theorem readFormulas_spherical :
    readFormulas .forward (Names.axes 3) Preset.spherical3d.record.forward = .ok (sphericalForward (L := L)) := by cbv

theorem readFormulas_sphericalInverse :
    readFormulas .inverse ["r", "theta", "phi"]
        ["r * sin(theta) * cos(phi)", "r * sin(theta) * sin(phi)", "r * cos(theta)"] =
      .ok (sphericalInverse (L := L)) := by cbv

theorem ofPreset_spherical : ofPreset "spherical3d" = .ok (sphericalFrame (L := L)) := by
  have hname : Preset.ofName? "spherical3d" = some .spherical3d := by decide
  have hlabels : checkLabels [] ["r", "theta", "phi"] = .ok () := rfl
  unfold ofPreset
  rw [hname]
  change ofRecord Preset.spherical3d.record = _
  unfold ofRecord
  change (checkLabels [] ["r", "theta", "phi"] >>= fun _ =>
    readFormulas .forward (Names.axes 3) Preset.spherical3d.record.forward >>= _) = _
  refine bind_eq_ok_of hlabels (bind_eq_ok_of readFormulas_spherical ?_)
  exact bind_eq_ok_of (congrArg (some <$> ·) readFormulas_sphericalInverse) rfl

end Formulas

section Values

noncomputable def sphericalChange (q d : Fin 3 → ℝ) : Fin 3 → ℝ :=
  let r := √(q 0 ^ 2 + q 1 ^ 2 + q 2 ^ 2)
  let s := √(q 0 ^ 2 + q 1 ^ 2)
  let along := q 0 * d 0 + q 1 * d 1 + q 2 * d 2
  ![along / r, (q 2 * along / r ^ 2 - d 2) / s, (q 0 * d 1 - q 1 * d 0) / s ^ 2]

noncomputable def sphericalJacobian (q : Fin 3 → ℝ) : Fin 3 → Fin 3 → ℝ :=
  fun i j => sphericalChange q (Pi.single j 1) i

theorem det_sphericalJacobian {q : Fin 3 → ℝ} (hq : 0 < q 0 ^ 2 + q 1 ^ 2) :
    (Matrix.of (sphericalJacobian q)).det ≠ 0 := by
  have hs := Real.sqrt_pos.2 hq
  have hr : 0 < √(q 0 ^ 2 + q 1 ^ 2 + q 2 ^ 2) := Real.sqrt_pos.2 (by positivity)
  have hs2 := Real.sq_sqrt hq.le
  have hr2 := Real.sq_sqrt (show 0 ≤ q 0 ^ 2 + q 1 ^ 2 + q 2 ^ 2 by positivity)
  have hdet : (Matrix.of (sphericalJacobian q)).det =
      1 / (√(q 0 ^ 2 + q 1 ^ 2 + q 2 ^ 2) * √(q 0 ^ 2 + q 1 ^ 2)) := by
    rw [Matrix.det_fin_three]
    simp only [Matrix.of_apply, sphericalJacobian, sphericalChange, Matrix.cons_val, Pi.single_eq_same,
      Pi.single_eq_of_ne, ne_eq, Fin.reduceEq, not_false_eq_true]
    generalize √(q 0 ^ 2 + q 1 ^ 2 + q 2 ^ 2) = r at *
    generalize √(q 0 ^ 2 + q 1 ^ 2) = s at *
    field_simp
    linear_combination -r ^ 2 * hs2
  rw [hdet]
  positivity

structure Placed (ρ : Valuation L ℝ) (q : Fin 3 → ℝ) : Prop where
  x : (Expr.var "x").HasValue ρ (q 0)
  y : (Expr.var "y").HasValue ρ (q 1)
  z : (Expr.var "z").HasValue ρ (q 2)

namespace Placed

variable {ρ : Valuation L ℝ} (hfaithful : Literal.Faithful ρ.literal) {q : Fin 3 → ℝ} (h : Placed ρ q)
include hfaithful h

theorem hasValue_squares :
    (Expr.op .add (.op .add (Expr.square (.var "x")) (Expr.square (.var "y"))) (Expr.square (.var "z"))).HasValue ρ
      (q 0 ^ 2 + q 1 ^ 2 + q 2 ^ 2) :=
  .op (o := .add) (.op (o := .add) (h.x.square hfaithful) (h.y.square hfaithful) trivial) (h.z.square hfaithful)
    trivial

theorem hasValue_radius : sphericalRadius.HasValue ρ √(q 0 ^ 2 + q 1 ^ 2 + q 2 ^ 2) :=
  .call (h.hasValue_squares hfaithful) (show 0 ≤ q 0 ^ 2 + q 1 ^ 2 + q 2 ^ 2 by positivity)

theorem hasValue_cosine (hpos : 0 < q 0 ^ 2 + q 1 ^ 2 + q 2 ^ 2) :
    polarCosine.HasValue ρ (q 2 / √(q 0 ^ 2 + q 1 ^ 2 + q 2 ^ 2)) :=
  .op h.z (h.hasValue_radius hfaithful) (Real.sqrt_pos.2 hpos).ne'

end Placed

/-- A point whose Cartesian coordinates have the derivatives `d` in a variable. -/
structure Varies (ρ : Valuation L ℝ) (v : String) (q d : Fin 3 → ℝ) : Prop extends Placed ρ q where
  dx : ((Expr.var "x").derivative v).HasValue ρ (d 0)
  dy : ((Expr.var "y").derivative v).HasValue ρ (d 1)
  dz : ((Expr.var "z").derivative v).HasValue ρ (d 2)

namespace Varies

variable [LawfulBEq L] {ρ : Valuation L ℝ} (hfaithful : Literal.Faithful ρ.literal) {v : String} {q d : Fin 3 → ℝ}
  (h : Varies ρ v q d)
include hfaithful h

theorem derivative_radius (hpos : 0 < q 0 ^ 2 + q 1 ^ 2 + q 2 ^ 2) :
    (sphericalRadius.derivative v).HasValue ρ (sphericalChange q d 0) := by
  have hvalue := (h.hasValue_squares hfaithful).derivative_call (f := .sqrt) hfaithful
    (((h.x.derivative_square hfaithful h.dx).add hfaithful (h.y.derivative_square hfaithful h.dy)).add hfaithful
      (h.z.derivative_square hfaithful h.dz)) hpos rfl (Real.hasDerivAt_sqrt hpos.ne')
  refine (congrArg _ ?_).mp hvalue
  change _ = (q 0 * d 0 + q 1 * d 1 + q 2 * d 2) / √(q 0 ^ 2 + q 1 ^ 2 + q 2 ^ 2)
  ring

theorem derivative_polarAngle (hpos : 0 < q 0 ^ 2 + q 1 ^ 2) :
    ((Expr.call .acos polarCosine).derivative v).HasValue ρ (sphericalChange q d 1) := by
  have hall : 0 < q 0 ^ 2 + q 1 ^ 2 + q 2 ^ 2 := by positivity
  have hr := Real.sqrt_pos.2 hall
  have hs := Real.sqrt_pos.2 hpos
  have hsine : 1 - (q 2 / √(q 0 ^ 2 + q 1 ^ 2 + q 2 ^ 2)) ^ 2 =
      (√(q 0 ^ 2 + q 1 ^ 2) / √(q 0 ^ 2 + q 1 ^ 2 + q 2 ^ 2)) ^ 2 := by
    rw [div_pow, div_pow, Real.sq_sqrt hpos.le, Real.sq_sqrt hall.le]
    field_simp
    ring
  have hregular : Func.acos.Regular (q 2 / √(q 0 ^ 2 + q 1 ^ 2 + q 2 ^ 2)) := by
    have hsquare := pow_pos (div_pos hs hr) 2
    rw [Func.Regular, ← abs_lt, ← sq_lt_one_iff_abs_lt_one]
    linarith
  have hquotient : (polarCosine.derivative v).HasValue ρ _ :=
    ((h.dz.mul hfaithful (h.hasValue_radius hfaithful)).sub hfaithful
      (h.z.mul hfaithful (h.derivative_radius hfaithful hall))).div hfaithful
      ((h.hasValue_radius hfaithful).square hfaithful) (pow_ne_zero 2 hr.ne')
  have hvalue := (h.hasValue_cosine hfaithful hall).derivative_call (f := .acos) hfaithful hquotient hregular rfl
    (Real.hasDerivAt_arccos hregular.1.ne' hregular.2.ne)
  refine (congrArg _ ?_).mp hvalue
  rw [hsine, Real.sqrt_sq (div_pos hs hr).le]
  simp only [sphericalChange, Matrix.cons_val]
  field_simp
  ring

theorem derivative_azimuth (hpos : 0 < q 0 ^ 2 + q 1 ^ 2) :
    ((Expr.call₂ .atan2 (.var "y") (.var "x")).derivative v).HasValue ρ (sphericalChange q d 2) := by
  change Expr.HasValue ρ _ ((q 0 * d 1 - q 1 * d 0) / √(q 0 ^ 2 + q 1 ^ 2) ^ 2)
  rw [Real.sq_sqrt hpos.le]
  exact h.y.derivative_atan2 hfaithful h.dy h.x h.dx hpos.ne'

end Varies

section Chart

variable {literal : L → ℝ} (hfaithful : Literal.Faithful literal)
include hfaithful

theorem varies_axes (q : Fin 3 → ℝ) {j : Fin 3} {v : String} (hv : ["x", "y", "z"][j.val]? = some v) :
    Varies (.ofPoint literal ["x", "y", "z"] (List.ofFn q)) v q (Pi.single j 1) := by
  let ρ : Valuation L ℝ := .ofPoint literal ["x", "y", "z"] (List.ofFn q)
  have hplaced : Placed ρ q := ⟨.var rfl, .var rfl, .var rfl⟩
  have hzero : (Expr.zero : Expr L).HasValue ρ 0 := Expr.hasValue_zero hfaithful
  have hone : (Expr.one : Expr L).HasValue ρ 1 := Expr.hasValue_one hfaithful
  fin_cases j <;> cases hv
  · exact ⟨hplaced, hone, hzero, hzero⟩
  · exact ⟨hplaced, hzero, hone, hzero⟩
  · exact ⟨hplaced, hzero, hzero, hone⟩

variable [LawfulBEq L]

theorem derivative_azimuth_eq : (Expr.call₂ .atan2 (.var "y") (.var "x") : Expr L).derivative "y" =
    .op .div (.var "x") (.op .add (Expr.square (.var "x")) (Expr.square (.var "y"))) := by
  have hne : ((1 : L) == 0) = false := by
    rw [beq_eq_false_iff_ne]
    intro heq
    have hvalue := congrArg literal heq
    rw [hfaithful.one, hfaithful.zero] at hvalue
    exact one_ne_zero hvalue
  have hleft : Expr.mul (.var "x") (Expr.one : Expr L) = .var "x" := by
    simp [Expr.mul, Expr.one, Expr.isZero, Expr.isOne, hne]
  have hright : Expr.mul (.var "y") (Expr.zero : Expr L) = .zero := by simp [Expr.mul, Expr.zero, Expr.isZero]
  have hsub : Expr.sub (.var "x") (Expr.zero : Expr L) = .var "x" := by simp [Expr.sub, Expr.zero, Expr.isZero]
  change Expr.div (Expr.sub (Expr.mul (.var "x") .one) (Expr.mul (.var "y") .zero)) _ = _
  rw [hleft, hright, hsub]
  rfl

variable {q : Fin 3 → ℝ} {c : Chart L} (hc : c.forward = sphericalForward)
include hc

theorem hasJacobian_spherical (hq : 0 < q 0 ^ 2 + q 1 ^ 2) :
    HasJacobian literal ["x", "y", "z"] c q (sphericalJacobian q) := by
  have hpos : 0 < q 0 ^ 2 + q 1 ^ 2 + q 2 ^ 2 := by positivity
  intro i j f v hf hv
  have hvaries := varies_axes hfaithful q hv
  rw [hc] at hf
  fin_cases i <;> cases hf
  · exact hvaries.derivative_radius hfaithful hpos
  · exact hvaries.derivative_polarAngle hfaithful hq
  · exact hvaries.derivative_azimuth hfaithful hq

theorem pos_of_hasJacobian_spherical {J : Fin 3 → Fin 3 → ℝ} (hJ : HasJacobian literal ["x", "y", "z"] c q J) :
    0 < q 0 ^ 2 + q 1 ^ 2 := by
  have hplaced := (varies_axes hfaithful q (j := 1) (v := "y") rfl).toPlaced
  have hentry := hJ 2 1 _ "y" (by rw [hc]; rfl) rfl
  rw [derivative_azimuth_eq hfaithful] at hentry
  generalize J 2 1 = w at hentry
  cases hentry with
  | op _ hsum hne =>
      have hvalue := hsum.unique
        (.op (o := .add) (hplaced.x.square hfaithful) (hplaced.y.square hfaithful) trivial)
      rw [hvalue] at hne
      exact lt_of_le_of_ne (add_nonneg (sq_nonneg _) (sq_nonneg _)) (Ne.symm hne)

theorem exists_hasJacobian_spherical_iff :
    (∃ J, HasJacobian literal ["x", "y", "z"] c q J) ↔ 0 < q 0 ^ 2 + q 1 ^ 2 :=
  ⟨fun ⟨_, hJ⟩ => pos_of_hasJacobian_spherical hfaithful hc hJ,
    fun hq => ⟨_, hasJacobian_spherical hfaithful hc hq⟩⟩

end Chart

end Values

section Cap

def sphericalCap : Chart L := ⟨.above polarCosine Atlas.capLimit, sphericalForward, .polarCap 0⟩

/-- The probe is on the polar axis only if the position is as far behind the axis as the probe is displaced. -/
theorem sample_sphericalCap (pos : Fin 3 → ℝ) :
    0 < (sphericalCap (L := L)).kind.sample pos 0 ^ 2 + (sphericalCap (L := L)).kind.sample pos 1 ^ 2 ↔
      ¬ (pos 0 = -(1e-3 * √(∑ j, pos j ^ 2) + 1e-6) ∧ pos 1 = 0) := by
  change 0 < (pos 0 + (1e-3 * √(∑ j, pos j ^ 2) + 1e-6)) ^ 2 + pos 1 ^ 2 ↔ _
  generalize 1e-3 * √(∑ j, pos j ^ 2) + 1e-6 = δ
  rw [eq_neg_iff_add_eq_zero]
  constructor
  · rintro hpos ⟨hx, hy⟩
    rw [hx, hy] at hpos
    norm_num at hpos
  · intro hoff
    rcases not_and_or.1 hoff with hx | hy
    · positivity
    · positivity

variable {literal : L → ℝ} (hfaithful : Literal.Faithful literal)

include hfaithful in
theorem literal_capLimit : literal Atlas.capLimit = 1 - 1e-6 := by
  have hsix : literal (Literal.ofPlaces 1 6) = 1e-6 := by
    rw [Literal.ofPlaces, hfaithful.decimal]
    norm_num
  have hsub := hfaithful.operator .sub 1 (Literal.ofPlaces 1 6) (hfaithful.finite _) (hfaithful.finite _)
    (hfaithful.finite _) trivial
  rw [hfaithful.one, hsix] at hsub
  exact hsub

variable (horder : ∀ x y : L, Scalar.lt x y = decide (literal x < literal y))
include hfaithful horder

theorem capAxis_polarCosine : Atlas.capAxis ["x", "y", "z"] (polarCosine : Expr L) = 0 := by
  let unit : Valuation L L := Atlas.unitPoint ["x", "y", "z"] "x"
  have hplaced : Placed ⟨literal, fun v => (unit.binding v).map literal⟩ ![1, 0, 0] :=
    ⟨.var (congrArg some hfaithful.one), .var (congrArg some hfaithful.zero), .var (congrArg some hfaithful.zero)⟩
  obtain ⟨x, hx, hvalue⟩ := (hplaced.hasValue_cosine hfaithful (by simp)).exists_eval hfaithful
  exact Atlas.capAxis_eq_zero hfaithful horder hx (hvalue.trans (zero_div _))

theorem charts_spherical : (sphericalFrame (L := L)).atlas.charts =
    [sphericalCap, ⟨.atLeast (.var "x") (.var "y"), sphericalForward, .primary⟩,
      ⟨.below (.var "x") (.var "y"), sphericalForward.map (Expr.replace (.call₂ .atan2 (.var "y") (.var "x"))
        (Atlas.swapAzimuth (.var "y") (.var "x"))), .swapped⟩] := by
  rw [sphericalCap, ← capAxis_polarCosine hfaithful horder]
  rfl

theorem eq_sphericalCap {i : Nat} {c : Chart L} {axis : Nat} (hc : (sphericalFrame (L := L)).atlas.charts[i]? = some c)
    (hkind : c.kind = .polarCap axis) : c = sphericalCap := by
  have hmem := List.mem_of_getElem? hc
  rw [charts_spherical hfaithful horder] at hmem
  simp only [List.mem_cons, List.not_mem_nil, or_false] at hmem
  rcases hmem with rfl | rfl | rfl
  · rfl
  · cases hkind
  · cases hkind

theorem select_sphericalCap {pos : Fin 3 → ℝ} (hsquares : pos 0 ^ 2 + pos 1 ^ 2 + pos 2 ^ 2 = 1)
    (hcap : 1 - 1e-6 < |pos 2|) :
    sphericalFrame.atlas.select (.ofPoint literal (sphericalFrame (L := L)).axes (List.ofFn pos)) = .ok 0 := by
  let ρ : Valuation L ℝ := .ofPoint literal ["x", "y", "z"] (List.ofFn pos)
  have hplaced : Placed ρ pos := (varies_axes hfaithful pos (j := 0) (v := "x") rfl).toPlaced
  have hcosine := hplaced.hasValue_cosine hfaithful (hsquares ▸ one_pos)
  rw [hsquares, Real.sqrt_one, div_one] at hcosine
  have hholds : sphericalCap.region.holds ρ = .ok true := by
    refine bind_eq_ok_of hcosine.eval (congrArg _ ?_)
    change decide (literal Atlas.capLimit < |pos 2|) = true
    rw [literal_capLimit hfaithful]
    exact decide_eq_true hcap
  change sphericalFrame.atlas.select ρ = _
  rw [Atlas.select, charts_spherical hfaithful horder, Atlas.owner?, hholds]
  rfl

end Cap

/-- Near the poles of spherical coordinates the Jacobian is taken off the polar axis, at every position but one for
each distance from the origin: the one as far behind the axis as the probe is displaced. Off the axis the Jacobian
is defined and regular, and takes the velocity that the transform gives back to the native one; on it, the Jacobian
is not defined. -/
theorem velocityToCartesian_polarCap [LawfulBEq L] [Literal.Legible L] (literal : L → ℝ)
    (hfaithful : Literal.Faithful literal) (horder : ∀ x y : L, Scalar.lt x y = decide (literal x < literal y)) :
    ∃ (s : Frame L) (body : List (Stmt L)) (diagnostics : List Diagnostic),
      ofPreset "spherical3d" = .ok s ∧ s.velocityToCartesian = .ok (velocityFunction s body, diagnostics) ∧
      ∀ (pos : Fin 3 → ℝ) (i : Nat) (c : Chart L) (axis : Nat),
        s.atlas.select (.ofPoint literal s.axes (List.ofFn pos)) = .ok i → s.atlas.charts[i]? = some c →
        c.kind = .polarCap axis →
        let probe := c.kind.sample pos
        (0 < probe 0 ^ 2 + probe 1 ^ 2 ↔ ¬ (pos 0 = -(1e-3 * √(∑ j, pos j ^ 2) + 1e-6) ∧ pos 1 = 0)) ∧
        ((∃ J, HasJacobian literal s.axes c probe J) ↔ 0 < probe 0 ^ 2 + probe 1 ^ 2) ∧
        ∀ J, HasJacobian literal s.axes c probe J → (Matrix.of J).det ≠ 0 ∧
          ∀ (m : Module L) (globals : Env ℝ) (v : Fin 3 → ℝ),
            m.function? Names.velocityToCartesian = some (velocityFunction s body) →
            (∀ b : Builtin, m.defines b.name = false) →
            ∃ w, m.call literal globals Names.velocityToCartesian [.vec (List.ofFn v), .vec (List.ofFn pos)] =
                .ok (.vec (List.ofFn w)) ∧
              (Matrix.of J).mulVec w = v := by
  have hs := checked_of_ofRecord (r := Preset.spherical3d.record) (s := sphericalFrame (L := L)) ofPreset_spherical
  obtain ⟨body, diagnostics, hfunction, hrun⟩ := hs.exists_velocityToCartesian hfaithful
  refine ⟨sphericalFrame, body, diagnostics, ofPreset_spherical, hfunction, fun pos i c axis hselect hi hkind => ?_⟩
  obtain rfl := eq_sphericalCap hfaithful horder hi hkind
  refine ⟨sample_sphericalCap pos, exists_hasJacobian_spherical_iff hfaithful rfl, fun J hJ => ?_⟩
  have hoff := pos_of_hasJacobian_spherical hfaithful rfl hJ
  have hdet : (Matrix.of J).det ≠ 0 := by
    rw [hJ.unique rfl rfl (hasJacobian_spherical hfaithful rfl hoff)]
    exact det_sphericalJacobian hoff
  refine ⟨hdet, fun m globals v hm hbuiltins => ?_⟩
  obtain ⟨ctx, hplain, hliteral, hcall⟩ := call_eq_run hm hbuiltins literal globals
  obtain ⟨i', c', hselect', hc', ⟨-, htransforms⟩, -⟩ := hrun ctx hplain hliteral pos v
  obtain rfl := Except.ok.inj (hselect.symm.trans hselect')
  obtain rfl := Option.some.inj (hi.symm.trans hc')
  obtain ⟨w, hw, hgives⟩ := htransforms J hJ hdet
  exact ⟨w, (hcall _).trans hgives, hw⟩

/-- On the polar axis itself, at height one. -/
theorem velocityToCartesian_polarCap_pole :
    ∃ (s : Frame Elementary) (body : List (Stmt Elementary)) (diagnostics : List Diagnostic) (c : Chart Elementary)
      (J : Fin 3 → Fin 3 → ℝ) (w : Fin 3 → ℝ),
      ofPreset "spherical3d" = .ok s ∧ s.velocityToCartesian = .ok (velocityFunction s body, diagnostics) ∧
      s.atlas.select (.ofPoint Elementary.toReal s.axes [0, 0, 1]) = .ok 0 ∧ s.atlas.charts[0]? = some c ∧
      c.kind = .polarCap 0 ∧ HasJacobian Elementary.toReal s.axes c (c.kind.sample ![0, 0, 1]) J ∧
      Module.call ⟨[], [], [velocityFunction s body]⟩ Elementary.toReal [] Names.velocityToCartesian
        [.vec [1, 2, 3], .vec [0, 0, 1]] = .ok (.vec (List.ofFn w)) ∧
      (Matrix.of J).mulVec w = ![1, 2, 3] := by
  have hfaithful := Elementary.faithful_toReal
  have horder (x y : Elementary) : Scalar.lt x y = decide (x.toReal < y.toReal) := rfl
  obtain ⟨s, body, diagnostics, hs, hfunction, hcap⟩ := velocityToCartesian_polarCap Elementary.toReal hfaithful horder
  obtain rfl := Except.ok.inj (ofPreset_spherical.symm.trans hs)
  let pos : Fin 3 → ℝ := ![0, 0, 1]
  have hheight : pos 2 = 1 := rfl
  have hsquares : pos 0 ^ 2 + pos 1 ^ 2 + pos 2 ^ 2 = 1 := by
    rw [hheight]
    norm_num [pos]
  have hselect := select_sphericalCap hfaithful horder hsquares (by norm_num [hheight])
  have hchart : (sphericalFrame (L := Elementary)).atlas.charts[0]? = some sphericalCap := by
    rw [charts_spherical hfaithful horder]
    rfl
  obtain ⟨hoff, hdefined, hcalls⟩ := hcap _ _ _ _ hselect hchart rfl
  have haway : ¬ (pos 0 = -(1e-3 * √(∑ j, pos j ^ 2) + 1e-6) ∧ pos 1 = 0) := by
    rw [Fin.sum_univ_three, hsquares, Real.sqrt_one]
    norm_num [pos]
  obtain ⟨J, hJ⟩ := hdefined.2 (hoff.2 haway)
  obtain ⟨-, hcall⟩ := hcalls J hJ
  obtain ⟨w, hw, hmulVec⟩ := hcall ⟨[], [], [velocityFunction sphericalFrame body]⟩ [] ![1, 2, 3] rfl
    (fun b => by rcases b with ⟨⟨⟩⟩ | _ <;> rfl)
  exact ⟨_, body, diagnostics, _, J, w, ofPreset_spherical, hfunction, hselect, hchart, rfl, hJ, hw, hmulVec⟩

/-- From a position behind the axis, the probe is on it. -/
theorem polarCap_probe_on_axis :
    ∃ (s : Frame Elementary) (c : Chart Elementary) (pos : Fin 3 → ℝ), ofPreset "spherical3d" = .ok s ∧
      s.atlas.select (.ofPoint Elementary.toReal s.axes (List.ofFn pos)) = .ok 0 ∧ s.atlas.charts[0]? = some c ∧
      c.kind = .polarCap 0 ∧ c.kind.sample pos 0 ^ 2 + c.kind.sample pos 1 ^ 2 = 0 ∧
      ¬ ∃ J, HasJacobian Elementary.toReal s.axes c (c.kind.sample pos) J := by
  have hfaithful := Elementary.faithful_toReal
  have horder (x y : Elementary) : Scalar.lt x y = decide (x.toReal < y.toReal) := rfl
  let pos : Fin 3 → ℝ := ![-0.001001, 0, √(1 - 0.001001 ^ 2)]
  have hheight : pos 2 ^ 2 = 1 - 0.001001 ^ 2 := Real.sq_sqrt (by norm_num)
  have hsquares : pos 0 ^ 2 + pos 1 ^ 2 + pos 2 ^ 2 = 1 := by
    rw [hheight]
    norm_num [pos]
  have hcap : 1 - 1e-6 < |pos 2| := by
    rw [← Real.sqrt_sq_eq_abs, hheight]
    exact Real.lt_sqrt_of_sq_lt (by norm_num)
  have hselect := select_sphericalCap hfaithful horder hsquares hcap
  have hon : ¬ 0 < (sphericalCap (L := Elementary)).kind.sample pos 0 ^ 2 +
      (sphericalCap (L := Elementary)).kind.sample pos 1 ^ 2 := by
    rw [sample_sphericalCap, not_not, Fin.sum_univ_three, hsquares, Real.sqrt_one]
    norm_num [pos]
  refine ⟨sphericalFrame, sphericalCap, pos, ofPreset_spherical, hselect, ?_, rfl, ?_, fun hJ => ?_⟩
  · rw [charts_spherical hfaithful horder]
    rfl
  · exact le_antisymm (not_lt.1 hon) (add_nonneg (sq_nonneg _) (sq_nonneg _))
  · exact hon ((exists_hasJacobian_spherical_iff hfaithful rfl).1 hJ)

end Frame

end Coordinates

end FlowShader
