import FlowShader.Proofs.Coordinates.PolarCap

namespace FlowShader

open Coordinates (Frame Preset)
open Real (sin cos)
open scoped Real

variable {L : Type} [Literal L]

section Polar

variable {ρ : Valuation L ℝ} {a b e : Expr L} {r t : ℝ}

theorem Expr.HasValue.sqrt_sq (he : e.HasValue ρ (r ^ 2)) (hr : 0 ≤ r) : (Expr.call .sqrt e).HasValue ρ r := by
  have hvalue := HasValue.call (f := .sqrt) he (sq_nonneg r)
  rwa [show Func.sqrt.apply (r ^ 2) = r from Real.sqrt_sq hr] at hvalue

theorem Expr.HasValue.acos_div (ha : a.HasValue ρ (r * cos t)) (he : e.HasValue ρ r) (hr : 0 < r)
    (ht : t ∈ Set.Icc 0 π) : (Expr.call .acos (.op .div a e)).HasValue ρ t := by
  have hquotient : r * cos t / r = cos t := mul_div_cancel_left₀ _ hr.ne'
  have hcosine : (Expr.op .div a e).HasValue ρ (r * cos t / r) := .op ha he hr.ne'
  rw [hquotient] at hcosine
  have hvalue := HasValue.call (f := .acos) hcosine ⟨Real.neg_one_le_cos t, Real.cos_le_one t⟩
  rwa [show Func.acos.apply (cos t) = t from Real.arccos_cos ht.1 ht.2] at hvalue

theorem Expr.HasValue.atan2_polar (ha : a.HasValue ρ (r * cos t)) (hb : b.HasValue ρ (r * sin t)) (hr : 0 < r)
    (ht : t ∈ Set.Ioc (-π) π) : (Expr.call₂ .atan2 b a).HasValue ρ t := by
  have hpoint : (⟨r * cos t, r * sin t⟩ : ℂ) = r * (Complex.cos t + Complex.sin t * Complex.I) := by
    apply Complex.ext <;> simp [Complex.cos_ofReal_re, Complex.sin_ofReal_re]
  have hangle : BiFunc.atan2.apply (r * sin t) (r * cos t) = t := by
    change Complex.arg ⟨r * cos t, r * sin t⟩ = t
    rw [hpoint, Complex.arg_mul_cos_add_sin_mul_I hr ht]
  have hvalue := HasValue.call₂ (f := .atan2) hb ha
  rwa [hangle] at hvalue

variable (hfaithful : Literal.Faithful ρ.literal)
include hfaithful

theorem Expr.HasValue.add_squares (ha : a.HasValue ρ (r * cos t)) (hb : b.HasValue ρ (r * sin t)) :
    (Expr.op .add a.square b.square).HasValue ρ (r ^ 2) := by
  have hvalue := HasValue.op (o := .add) (ha.square hfaithful) (hb.square hfaithful) trivial
  refine (congrArg _ ?_).mp hvalue
  change (r * cos t) ^ 2 + (r * sin t) ^ 2 = r ^ 2
  rw [mul_pow, mul_pow, ← mul_add, Real.cos_sq_add_sin_sq, mul_one]

theorem Expr.HasValue.add_square (he : e.HasValue ρ ((r * sin t) ^ 2)) (ha : a.HasValue ρ (r * cos t)) :
    (Expr.op .add e a.square).HasValue ρ (r ^ 2) := by
  have hvalue := HasValue.op (o := .add) he (ha.square hfaithful) trivial
  refine (congrArg _ ?_).mp hvalue
  change (r * sin t) ^ 2 + (r * cos t) ^ 2 = r ^ 2
  rw [mul_pow, mul_pow, ← mul_add, Real.sin_sq_add_cos_sq, mul_one]

end Polar

namespace Coordinates.Preset

section Formulas

def planarSquares : Expr L := .op .add (Expr.square (.var "x")) (Expr.square (.var "y"))

def azimuth : Expr L := .call₂ .atan2 (.var "y") (.var "x")

def spatialSquares : Expr L := .op .add planarSquares (Expr.square (.var "z"))

def hypersphericalRadius : Expr L := .call .sqrt (.op .add spatialSquares (Expr.square (.var "w")))

def forward : Preset → List (Expr L)
  | cartesian2d => [.var "x", .var "y"]
  | cartesian3d => [.var "x", .var "y", .var "z"]
  | cartesian4d => [.var "x", .var "y", .var "z", .var "w"]
  | polar2d => [.call .sqrt planarSquares, azimuth]
  | cylindrical3d => [.call .sqrt planarSquares, azimuth, .var "z"]
  | spherical3d => Frame.sphericalForward
  | hyperspherical4d =>
    [hypersphericalRadius, .call .acos (.op .div (.var "w") hypersphericalRadius), .call .acos Frame.polarCosine,
      azimuth]

def inverse : Preset → List (Expr L)
  | cartesian2d => [.var "x", .var "y"]
  | cartesian3d => [.var "x", .var "y", .var "z"]
  | cartesian4d => [.var "x", .var "y", .var "z", .var "w"]
  | polar2d => [part (.var "r") .cos "theta", part (.var "r") .sin "theta"]
  | cylindrical3d => [part (.var "r") .cos "theta", part (.var "r") .sin "theta", .var "z"]
  | spherical3d => Frame.sphericalInverse
  | hyperspherical4d =>
    let inner : Expr L := part (.var "r") .sin "psi"
    let planar : Expr L := part inner .sin "theta"
    [part planar .cos "phi", part planar .sin "phi", part inner .cos "theta", part (.var "r") .cos "psi"]
where
  part (radius : Expr L) (f : Func) (angle : String) : Expr L := .op .mul radius (.call f (.var angle))

/-- What a preset is read as. -/
def frame (p : Preset) : Frame L :=
  ⟨p.name, p.record.coordinates, p.forward, some p.inverse, false, .generate (Names.axes p.record.dimensions) p.forward⟩

theorem readFormulas_forward (p : Preset) :
    Frame.readFormulas .forward (Names.axes p.record.dimensions) p.record.forward = .ok (p.forward (L := L)) := by
  cases p <;> cbv

theorem readFormulas_inverse (p : Preset) :
    Frame.readFormulas .inverse (p.record.coordinates.map (·.label)) p.parts.2.2 = .ok (p.inverse (L := L)) := by
  cases p <;> cbv

theorem ofRecord_record (p : Preset) : Frame.ofRecord p.record = .ok (p.frame (L := L)) := by
  have hlabels : Frame.checkLabels [] (p.record.coordinates.map (·.label)) = .ok () := by cases p <;> rfl
  have hrecord : Frame.ofRecord (L := L) p.record = (do
      Frame.checkLabels [] (p.record.coordinates.map (·.label))
      let forward ← Frame.readFormulas .forward (Names.axes p.record.dimensions) p.record.forward
      let inverse ← some <$> Frame.readFormulas .inverse (p.record.coordinates.map (·.label)) p.parts.2.2
      return ⟨p.name, p.record.coordinates, forward, inverse, false,
        .generate (Names.axes p.record.dimensions) forward⟩) := by
    cases p <;> rfl
  exact hrecord.trans (bind_eq_ok_of hlabels (bind_eq_ok_of p.readFormulas_forward
    (bind_eq_ok_of (congrArg (some <$> ·) p.readFormulas_inverse) rfl)))

theorem ofPreset_name (p : Preset) : Frame.ofPreset p.name = .ok (p.frame (L := L)) := by
  have hname : ofName? p.name = some p := by cases p <;> decide
  unfold Frame.ofPreset
  rw [hname]
  exact p.ofRecord_record

end Formulas

section Values

/-- The Cartesian coordinates of a point. -/
noncomputable def position : Preset → List ℝ → List ℝ
  | polar2d, [r, θ] => [r * cos θ, r * sin θ]
  | cylindrical3d, [r, θ, z] => [r * cos θ, r * sin θ, z]
  | spherical3d, [r, θ, φ] => [r * sin θ * cos φ, r * sin θ * sin φ, r * cos θ]
  | hyperspherical4d, [r, ψ, θ, φ] =>
    [r * sin ψ * sin θ * cos φ, r * sin ψ * sin θ * sin φ, r * sin ψ * cos θ, r * cos ψ]
  | _, native => native

/-- The points with a positive radius, off the poles, whose azimuth is the principal one. -/
def Regular : Preset → List ℝ → Prop
  | polar2d, [r, θ] | cylindrical3d, [r, θ, _] => 0 < r ∧ θ ∈ Set.Ioc (-π) π
  | spherical3d, [r, θ, φ] => 0 < r ∧ θ ∈ Set.Ioo 0 π ∧ φ ∈ Set.Ioc (-π) π
  | hyperspherical4d, [r, ψ, θ, φ] => 0 < r ∧ ψ ∈ Set.Ioo 0 π ∧ θ ∈ Set.Ioo 0 π ∧ φ ∈ Set.Ioc (-π) π
  | _, _ => False

section Angles

variable {ρ : Valuation L ℝ} (hfaithful : Literal.Faithful ρ.literal) {r θ φ : ℝ}
include hfaithful

theorem planar_hasValue (hx : (Expr.var "x").HasValue ρ (r * cos φ)) (hy : (Expr.var "y").HasValue ρ (r * sin φ))
    (hr : 0 < r) (hφ : φ ∈ Set.Ioc (-π) π) : planarSquares.HasValue ρ (r ^ 2) ∧ azimuth.HasValue ρ φ :=
  ⟨hx.add_squares hfaithful hy, hx.atan2_polar hy hr hφ⟩

theorem spatial_hasValue (hx : (Expr.var "x").HasValue ρ (r * sin θ * cos φ))
    (hy : (Expr.var "y").HasValue ρ (r * sin θ * sin φ)) (hz : (Expr.var "z").HasValue ρ (r * cos θ)) (hr : 0 < r)
    (hθ : θ ∈ Set.Ioo 0 π) (hφ : φ ∈ Set.Ioc (-π) π) : spatialSquares.HasValue ρ (r ^ 2) ∧
      (Expr.call .acos Frame.polarCosine).HasValue ρ θ ∧ azimuth.HasValue ρ φ := by
  obtain ⟨hplanar, hazimuth⟩ := planar_hasValue hfaithful hx hy (mul_pos hr (Real.sin_pos_of_mem_Ioo hθ)) hφ
  have hsquares := hplanar.add_square hfaithful hz
  exact ⟨hsquares, hz.acos_div (hsquares.sqrt_sq hr.le) hr (Set.Ioo_subset_Icc_self hθ), hazimuth⟩

end Angles

variable {p : Preset} {native : List ℝ} (h : p.Regular native)
include h

theorem strategy_frame : (p.frame (L := L)).strategy = .explicit := by
  unfold Regular at h
  split at h <;> first | rfl | exact h.elim

variable {literal : L → ℝ}

theorem inverse_hasValue :
    List.Forall₂ (Expr.HasValue (.ofPoint literal (p.frame (L := L)).labels native)) p.inverse (p.position native) := by
  have hcos {ρ : Valuation L ℝ} {radius : Expr L} {angle : String} {r t : ℝ} (hr : radius.HasValue ρ r)
      (ht : ρ.binding angle = some t) : (inverse.part radius .cos angle).HasValue ρ (r * cos t) :=
    .op hr (.call (.var ht) trivial) trivial
  have hsin {ρ : Valuation L ℝ} {radius : Expr L} {angle : String} {r t : ℝ} (hr : radius.HasValue ρ r)
      (ht : ρ.binding angle = some t) : (inverse.part radius .sin angle).HasValue ρ (r * sin t) :=
    .op hr (.call (.var ht) trivial) trivial
  unfold Regular at h
  split at h
  · exact .cons (hcos (.var rfl) rfl) (.cons (hsin (.var rfl) rfl) .nil)
  · exact .cons (hcos (.var rfl) rfl) (.cons (hsin (.var rfl) rfl) (.cons (.var rfl) .nil))
  · exact .cons (hcos (hsin (.var rfl) rfl) rfl) (.cons (hsin (hsin (.var rfl) rfl) rfl)
      (.cons (hcos (.var rfl) rfl) .nil))
  · exact .cons (hcos (hsin (hsin (.var rfl) rfl) rfl) rfl) (.cons (hsin (hsin (hsin (.var rfl) rfl) rfl) rfl)
      (.cons (hcos (hsin (.var rfl) rfl) rfl) (.cons (hcos (.var rfl) rfl) .nil)))
  · exact h.elim

theorem forward_hasValue (hfaithful : Literal.Faithful literal) :
    List.Forall₂ (Expr.HasValue (.ofPoint literal (p.frame (L := L)).axes (p.position native))) p.forward native := by
  unfold Regular at h
  split at h
  · next r θ =>
    obtain ⟨hr, hθ⟩ := h
    let ρ : Valuation L ℝ := .ofPoint literal ["x", "y"] [r * cos θ, r * sin θ]
    obtain ⟨hsquares, hazimuth⟩ := planar_hasValue (ρ := ρ) hfaithful (.var rfl) (.var rfl) hr hθ
    exact .cons (hsquares.sqrt_sq hr.le) (.cons hazimuth .nil)
  · next r θ z =>
    obtain ⟨hr, hθ⟩ := h
    let ρ : Valuation L ℝ := .ofPoint literal ["x", "y", "z"] [r * cos θ, r * sin θ, z]
    obtain ⟨hsquares, hazimuth⟩ := planar_hasValue (ρ := ρ) hfaithful (.var rfl) (.var rfl) hr hθ
    exact .cons (hsquares.sqrt_sq hr.le) (.cons hazimuth (.cons (.var rfl) .nil))
  · next r θ φ =>
    obtain ⟨hr, hθ, hφ⟩ := h
    let ρ : Valuation L ℝ := .ofPoint literal ["x", "y", "z"] [r * sin θ * cos φ, r * sin θ * sin φ, r * cos θ]
    obtain ⟨hsquares, hpolar, hazimuth⟩ :=
      spatial_hasValue (ρ := ρ) hfaithful (.var rfl) (.var rfl) (.var rfl) hr hθ hφ
    exact .cons (hsquares.sqrt_sq hr.le) (.cons hpolar (.cons hazimuth .nil))
  · next r ψ θ φ =>
    obtain ⟨hr, hψ, hθ, hφ⟩ := h
    let ρ : Valuation L ℝ := .ofPoint literal ["x", "y", "z", "w"]
      [r * sin ψ * sin θ * cos φ, r * sin ψ * sin θ * sin φ, r * sin ψ * cos θ, r * cos ψ]
    have hw : (Expr.var "w").HasValue ρ (r * cos ψ) := .var rfl
    -- What is left of the radius after the first angle is the radius of a spherical system.
    have hinner : 0 < r * sin ψ := mul_pos hr (Real.sin_pos_of_mem_Ioo hψ)
    obtain ⟨hsquares, hpolar, hazimuth⟩ :=
      spatial_hasValue (ρ := ρ) hfaithful (.var rfl) (.var rfl) (.var rfl) hinner hθ hφ
    have hradius := (hsquares.add_square hfaithful hw).sqrt_sq hr.le
    exact .cons hradius (.cons (hw.acos_div hradius hr (Set.Ioo_subset_Icc_self hψ))
      (.cons hpolar (.cons hazimuth .nil)))
  · exact h.elim

end Values

end Coordinates.Preset

end FlowShader
