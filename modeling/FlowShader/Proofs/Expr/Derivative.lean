import Mathlib
import FlowShader.Expr.Derivative
import FlowShader.Proofs.Expr.Replace
import FlowShader.Proofs.Scalar.Elementary

namespace FlowShader

open Filter Topology

variable {L : Type} [Literal L]

/-- Points around which a function is smooth, if it has a derivative at all. -/
def Func.Regular : Func → ℝ → Prop
  | .tan, u => Real.cos u ≠ 0
  | .sqrt, u | .log, u | .log2, u => 0 < u
  | .asin, u | .acos, u => -1 < u ∧ u < 1
  | _, _ => True

def BiFunc.Regular : BiFunc → ℝ → ℝ → Prop
  | .atan2, u, v => 0 < v ∨ u ≠ 0
  | _, _, _ => True

def Operator.Regular (fixed : Prop) : Operator → ℝ → ℝ → Prop
  | .div, _, v => v ≠ 0
  | .mod, u, v => v ≠ 0 ∧ ∀ n : ℤ, u / v ≠ n
  | .pow, u, v => 0 < u ∨ fixed ∧ u ≠ 0 ∧ ∃ n : ℤ, v = n
  | _, _, _ => True

def Valuation.update {K : Type} (ρ : Valuation L K) (x : String) (t : K) : Valuation L K :=
  ⟨ρ.literal, Function.update ρ.binding x (some t)⟩

omit [Literal L] in
theorem Valuation.binding_update_self {K : Type} (ρ : Valuation L K) (x : String) (t : K) :
    (ρ.update x t).binding x = some t :=
  Function.update_self ..

namespace Func

theorem Regular.eventually_defined {f : Func} {u : ℝ} (h : f.Regular u) : ∀ᶠ v in 𝓝 u, f.Defined v := by
  cases f with
  | sqrt => exact (eventually_gt_nhds h).mono fun v hv => le_of_lt hv
  | log | log2 => exact eventually_gt_nhds h
  | asin | acos => exact ((eventually_gt_nhds h.1).and (eventually_lt_nhds h.2)).mono fun v hv => ⟨hv.1.le, hv.2.le⟩
  | _ => exact .of_forall fun _ => trivial

theorem Regular.defined {f : Func} {u : ℝ} (h : f.Regular u) : f.Defined u := h.eventually_defined.self_of_nhds

end Func

section Curves

variable {p q : ℝ → ℝ} {t du dv : ℝ}

theorem BiFunc.Regular.hasDerivAt (h : BiFunc.atan2.Regular (p t) (q t)) (hp : HasDerivAt p du t)
    (hq : HasDerivAt q dv t) :
    HasDerivAt (fun s => BiFunc.atan2.apply (p s) (q s))
      ((q t * du - p t * dv) / (q t ^ 2 + p t ^ 2)) t := by
  -- the angle is the imaginary part of the complex logarithm, which is smooth off the cut
  have hz : HasDerivAt (fun s => (⟨q s, p s⟩ : ℂ)) ⟨dv, du⟩ t := by
    have hsum := hq.ofReal_comp.fun_add (hp.ofReal_comp.mul_const Complex.I)
    simpa only [← Complex.mk_eq_add_mul_I] using hsum
  have hlog := hz.clog_real (show (⟨q t, p t⟩ : ℂ) ∈ Complex.slitPlane from h)
  have him := Complex.imCLM.hasFDerivAt.comp_hasDerivAt t hlog
  simp only [Function.comp_def, Complex.imCLM_apply, Complex.log_im, Complex.div_im, Complex.normSq_mk] at him
  exact him.congr_deriv (by ring)

theorem eventually_floor_eq {w : ℝ} (hw : ∀ n : ℤ, w ≠ n) : ∀ᶠ z in 𝓝 w, ⌊z⌋ = ⌊w⌋ := by
  have hlt : (⌊w⌋ : ℝ) < w := lt_of_le_of_ne (Int.floor_le w) (hw _).symm
  filter_upwards [eventually_gt_nhds hlt, eventually_lt_nhds (Int.lt_floor_add_one w)] with z hgt hlt
  exact Int.floor_eq_iff.2 ⟨hgt.le, hlt⟩

theorem hasDerivAt_mod (hv : q t ≠ 0) (hn : ∀ n : ℤ, p t / q t ≠ n) (hp : HasDerivAt p du t)
    (hq : HasDerivAt q dv t) :
    HasDerivAt (fun s => Operator.mod.apply (p s) (q s)) (du - dv * ⌊p t / q t⌋) t := by
  have hfloor : ∀ᶠ s in 𝓝 t, ⌊p s / q s⌋ = ⌊p t / q t⌋ :=
    (hp.continuousAt.div hq.continuousAt hv).eventually (eventually_floor_eq hn)
  refine (hp.fun_sub (hq.mul_const (⌊p t / q t⌋ : ℝ))).congr_of_eventuallyEq ?_
  filter_upwards [hfloor] with s hs
  change p s - q s * (⌊p s / q s⌋ : ℝ) = p s - q s * (⌊p t / q t⌋ : ℝ)
  rw [hs]

end Curves

namespace Expr

variable {ρ : Valuation L ℝ} {x : String} {t y u v d du dv : ℝ} {a b e : Expr L}

/-- The point is regular for the formula, whose value there is `y`; the exponent of a power is fixed if it
does not depend on `x`. -/
inductive Regular (ρ : Valuation L ℝ) (x : String) : Expr L → ℝ → Prop
  | literal {z : L} : Literal.isFinite z = true → Regular ρ x (literal z) (ρ.literal z)
  | constant {c : Constant} : Regular ρ x (constant c) c.value
  | var {w : String} {y : ℝ} : ρ.binding w = some y → Regular ρ x (var w) y
  | call {f : Func} {a : Expr L} {u : ℝ} : Regular ρ x a u → f.Regular u → Regular ρ x (call f a) (f.apply u)
  | call₂ {f : BiFunc} {a b : Expr L} {u v : ℝ} : Regular ρ x a u → Regular ρ x b v → f.Regular u v →
      Regular ρ x (call₂ f a b) (f.apply u v)
  | op {o : Operator} {a b : Expr L} {u v : ℝ} : Regular ρ x a u → Regular ρ x b v →
      o.Regular (b.contains x = false) u v → Regular ρ x (op o a b) (o.apply u v)

/-- Around `t` the formula is defined as a function of `x`; its value at `t` is `y` and its derivative `d`. -/
def HasTangent (ρ : Valuation L ℝ) (x : String) (t : ℝ) (e : Expr L) (y d : ℝ) : Prop :=
  ∃ f : ℝ → ℝ, (∀ᶠ s in 𝓝 t, e.HasValue (ρ.update x s) (f s)) ∧ f t = y ∧ HasDerivAt f d t

theorem Regular.hasValue (h : Regular ρ x e y) : e.HasValue ρ y := by
  induction h with
  | literal hz => exact .literal hz
  | constant => exact .constant
  | var hw => exact .var hw
  | call _ hf ih => exact .call ih hf.defined
  | call₂ _ _ _ iha ihb => exact .call₂ iha ihb
  | @op o _ _ u v _ _ ho iha ihb =>
      refine .op iha ihb ?_
      cases o with
      | add | sub | mul => exact trivial
      | div => exact ho
      | mod => exact ho.1
      | pow =>
          rcases ho with hu | ⟨_, hu, hv⟩
          · exact Operator.pow_defined_of_pos hu v
          · exact ⟨fun h => absurd h hu, fun _ => hv⟩

section Dependence

omit [Literal L] in
theorem contains_eq_false (h : e.contains x = false) : x ∉ e.names := by
  induction e with
  | literal | constant => exact List.not_mem_nil
  | var w =>
      intro hx
      rw [List.mem_singleton.1 hx, contains, beq_self_eq_true] at h
      cases h
  | call f a ih => exact ih h
  | call₂ f a b iha ihb | op o a b iha ihb =>
      obtain ⟨ha, hb⟩ := Bool.or_eq_false_iff.1 h
      exact fun hx => (List.mem_append.1 hx).elim (iha ha) (ihb hb)

theorem HasValue.update (h : e.HasValue ρ y) (hx : e.contains x = false) (s : ℝ) :
    e.HasValue (ρ.update x s) y := by
  refine h.mono rfl fun w hw z hz => ?_
  have hne : w ≠ x := fun hwx => contains_eq_false hx (hwx ▸ hw)
  rw [← hz]
  exact Function.update_of_ne hne _ _

theorem HasTangent.of_not_contains (h : e.HasValue ρ y) (hx : e.contains x = false) : HasTangent ρ x t e y 0 :=
  ⟨fun _ => y, .of_forall (h.update hx), rfl, hasDerivAt_const t y⟩

def Smooth (x : String) : Expr L → Prop
  | literal _ | constant _ | var _ => True
  | call f a => (f.differentiable = true ∨ a.contains x = false) ∧ a.Smooth x
  | call₂ f a b => (f.differentiable = true ∨ a.contains x = false ∧ b.contains x = false) ∧ a.Smooth x ∧ b.Smooth x
  | op _ a b => a.Smooth x ∧ b.Smooth x

omit [Literal L] in
theorem smooth_of_roughCalls (h : e.roughCalls x = []) : e.Smooth x := by
  simp only [roughCalls, List.eq_nil_iff_forall_not_mem, mem_sortNames] at h
  rw [← List.eq_nil_iff_forall_not_mem, List.filterMap_eq_nil_iff] at h
  induction e with
  | literal | constant | var => exact trivial
  | call f a ih =>
      simp only [subtrees, List.forall_mem_cons] at h
      exact ⟨by simpa [or_iff_not_imp_left] using h.1, ih h.2⟩
  | call₂ f a b iha ihb =>
      simp only [subtrees, List.forall_mem_cons, List.forall_mem_append] at h
      exact ⟨by simpa [or_iff_not_imp_left] using h.1, iha h.2.1, ihb h.2.2⟩
  | op o a b iha ihb =>
      simp only [subtrees, List.forall_mem_cons, List.forall_mem_append] at h
      exact ⟨iha h.2.1, ihb h.2.2⟩

end Dependence

section Rules

theorem HasTangent.var (hx : ρ.binding x = some t) {w : String} (hw : ρ.binding w = some y) :
    HasTangent ρ x t (.var w) y (if w == x then 1 else 0) := by
  by_cases hwx : w = x
  · subst hwx
    obtain rfl := Option.some.inj (hx.symm.trans hw)
    rw [if_pos (beq_self_eq_true w)]
    exact ⟨fun s => s, .of_forall fun s => .var (ρ.binding_update_self w s), rfl, hasDerivAt_id t⟩
  · rw [if_neg (by simpa using hwx)]
    exact .of_not_contains (.var hw) (by simpa [contains] using hwx)

theorem HasTangent.call {f : Func} (ha : HasTangent ρ x t a u du) (hu : f.Regular u)
    (hf : HasDerivAt f.apply d u) : HasTangent ρ x t (.call f a) (f.apply u) (d * du) := by
  obtain ⟨p, hvalue, rfl, hp⟩ := ha
  refine ⟨fun s => f.apply (p s), ?_, rfl, hf.comp t hp⟩
  filter_upwards [hvalue, hp.continuousAt.eventually hu.eventually_defined] with s hs hdefined
  exact .call hs hdefined

theorem HasTangent.call₂ {f : BiFunc} (ha : HasTangent ρ x t a u du) (hb : HasTangent ρ x t b v dv)
    (hf : ∀ p q : ℝ → ℝ, p t = u → q t = v → HasDerivAt p du t → HasDerivAt q dv t →
      HasDerivAt (fun s => f.apply (p s) (q s)) d t) :
    HasTangent ρ x t (.call₂ f a b) (f.apply u v) d := by
  obtain ⟨p, hpa, rfl, hp⟩ := ha
  obtain ⟨q, hqb, rfl, hq⟩ := hb
  refine ⟨fun s => f.apply (p s) (q s), ?_, rfl, hf p q rfl rfl hp hq⟩
  filter_upwards [hpa, hqb] with s hs hs'
  exact .call₂ hs hs'

theorem HasTangent.op {o : Operator} (ha : HasTangent ρ x t a u du) (hb : HasTangent ρ x t b v dv)
    (ho : ∀ p q : ℝ → ℝ, p t = u → q t = v → HasDerivAt p du t → HasDerivAt q dv t →
      HasDerivAt (fun s => o.apply (p s) (q s)) d t ∧ ∀ᶠ s in 𝓝 t, o.Defined (p s) (q s)) :
    HasTangent ρ x t (.op o a b) (o.apply u v) d := by
  obtain ⟨p, hpa, rfl, hp⟩ := ha
  obtain ⟨q, hqb, rfl, hq⟩ := hb
  obtain ⟨hd, hdefined⟩ := ho p q rfl rfl hp hq
  refine ⟨fun s => o.apply (p s) (q s), ?_, rfl, hd⟩
  filter_upwards [hpa, hqb, hdefined] with s hs hs' ho
  exact .op hs hs' ho

theorem HasTangent.rpow (ha : HasTangent ρ x t a u du) (hb : HasTangent ρ x t b v dv) (hu : 0 < u) :
    HasTangent ρ x t (.op .pow a b) (u ^ v) (u ^ v * (dv * Real.log u + v * du / u)) := by
  refine ha.op hb fun p q hpt hqt hp hq => ?_
  subst hpt hqt
  constructor
  · refine (hp.rpow hq hu).congr_deriv ?_
    rw [Real.rpow_sub_one hu.ne']
    ring
  · exact (hp.continuousAt.eventually (eventually_gt_nhds hu)).mono fun s hs => Operator.pow_defined_of_pos hs _

theorem HasTangent.rpow_const (ha : HasTangent ρ x t a u du) (hb : b.HasValue ρ v) (hx : b.contains x = false)
    (h : Operator.pow.Regular (b.contains x = false) u v) :
    HasTangent ρ x t (.op .pow a b) (u ^ v) (v * u ^ (v - 1) * du) := by
  obtain ⟨p, hpa, rfl, hp⟩ := ha
  have hu : p t ≠ 0 := h.elim ne_of_gt fun h => h.2.1
  have hdefined : ∀ᶠ s in 𝓝 t, Operator.pow.Defined (p s) v := by
    rcases h with hpos | ⟨_, _, hwhole⟩
    · exact (hp.continuousAt.eventually (eventually_gt_nhds hpos)).mono fun s hs =>
        Operator.pow_defined_of_pos hs _
    · exact (hp.continuousAt.eventually_ne hu).mono fun s hs => ⟨fun h => absurd h hs, fun _ => hwhole⟩
  refine ⟨fun s => p s ^ v, ?_, rfl, (hp.rpow_const (.inl hu)).congr_deriv (by ring)⟩
  filter_upwards [hpa, hdefined] with s hs hdefined
  exact .op hs (hb.update hx s) hdefined

end Rules

section Symbolic

variable [LawfulBEq L] (hfaithful : Literal.Faithful ρ.literal)
include hfaithful

theorem HasValue.outerDerivative {f : Func} (ha : a.HasValue ρ u) (hu : f.Regular u)
    (hf : f.differentiable = true) : ∃ d, (outerDerivative a f).HasValue ρ d ∧ HasDerivAt f.apply d u := by
  have hone := hasValue_one hfaithful
  have hroot (h : -1 < u ∧ u < 1) : (one / Expr.call .sqrt (one - a.square)).HasValue ρ (1 / √(1 - u ^ 2)) := by
    have hpos : 0 < 1 - u ^ 2 := by nlinarith
    exact hone.div hfaithful (.call (hone.sub hfaithful (ha.square hfaithful)) hpos.le) (Real.sqrt_pos.2 hpos).ne'
  cases f with
  | sin => exact ⟨Real.cos u, .call ha trivial, Real.hasDerivAt_sin u⟩
  | cos => exact ⟨-Real.sin u, HasValue.neg hfaithful (.call ha trivial), Real.hasDerivAt_cos u⟩
  | tan =>
      have hcos : (Expr.call .cos a).square.HasValue ρ (Real.cos u ^ 2) :=
        HasValue.square hfaithful (.call ha trivial)
      exact ⟨_, hone.div hfaithful hcos (pow_ne_zero 2 hu), Real.hasDerivAt_tan hu⟩
  | asin => exact ⟨_, hroot hu, Real.hasDerivAt_arcsin hu.1.ne' hu.2.ne⟩
  | acos => exact ⟨_, (hroot hu).neg hfaithful, Real.hasDerivAt_arccos hu.1.ne' hu.2.ne⟩
  | atan =>
      have hsum := hone.add hfaithful (ha.square hfaithful)
      exact ⟨_, hone.div hfaithful hsum (by positivity), Real.hasDerivAt_arctan u⟩
  | sinh => exact ⟨Real.cosh u, .call ha trivial, Real.hasDerivAt_sinh u⟩
  | cosh => exact ⟨Real.sinh u, .call ha trivial, Real.hasDerivAt_cosh u⟩
  | tanh =>
      have htanh : (Expr.call .tanh a).square.HasValue ρ (Real.tanh u ^ 2) :=
        HasValue.square hfaithful (.call ha trivial)
      refine ⟨_, hone.sub hfaithful htanh, ?_⟩
      have hne := (Real.cosh_pos u).ne'
      have hquot := (Real.hasDerivAt_sinh u).fun_div (Real.hasDerivAt_cosh u) hne
      simp only [← Real.tanh_eq_sinh_div_cosh] at hquot
      refine hquot.congr_deriv ?_
      rw [Real.tanh_eq_sinh_div_cosh]
      field_simp
  | exp => exact ⟨Real.exp u, .call ha trivial, Real.hasDerivAt_exp u⟩
  | log => exact ⟨_, hone.div hfaithful ha hu.ne', (Real.hasDerivAt_log hu.ne').congr_deriv (one_div u).symm⟩
  | log2 =>
      have hlog : (Expr.call .log (nat 2) : Expr L).HasValue ρ (Real.log 2) :=
        .call (hasValue_nat hfaithful 2) (by norm_num [Func.Defined])
      have hne : u * Real.log 2 ≠ 0 := mul_ne_zero hu.ne' (Real.log_pos one_lt_two).ne'
      refine ⟨_, hone.div hfaithful (ha.mul hfaithful hlog) hne, ?_⟩
      exact ((Real.hasDerivAt_log hu.ne').div_const (Real.log 2)).congr_deriv (by rw [inv_eq_one_div, div_div])
  | sqrt =>
      have hsqrt : (Expr.call .sqrt a).HasValue ρ √u := .call ha hu.le
      have htwo : (nat 2 : Expr L).HasValue ρ 2 := hasValue_nat hfaithful 2
      have hne : 2 * √u ≠ 0 := mul_ne_zero two_ne_zero (Real.sqrt_pos.2 hu).ne'
      exact ⟨_, hone.div hfaithful (htwo.mul hfaithful hsqrt) hne, Real.hasDerivAt_sqrt hu.ne'⟩
  | abs | floor | ceil | fract | sign | length | normalize => cases hf

theorem HasValue.derivative_call {f : Func} (ha : a.HasValue ρ u) (hda : (a.derivative x).HasValue ρ du)
    (hu : f.Regular u) (hf : f.differentiable = true) (hd : HasDerivAt f.apply d u) :
    ((Expr.call f a).derivative x).HasValue ρ (d * du) := by
  cases hx : a.contains x with
  | false =>
      rw [hda.derivative_eq_zero hfaithful hx, mul_zero, derivative, hx]
      exact hasValue_zero hfaithful
  | true =>
      obtain ⟨d', houter, hd'⟩ := ha.outerDerivative hfaithful hu hf
      rw [hd.unique hd', derivative, hx, hf]
      exact houter.mul hfaithful hda

theorem HasValue.derivative_atan2 (ha : a.HasValue ρ u) (hda : (a.derivative x).HasValue ρ du) (hb : b.HasValue ρ v)
    (hdb : (b.derivative x).HasValue ρ dv) (hne : v ^ 2 + u ^ 2 ≠ 0) :
    ((Expr.call₂ .atan2 a b).derivative x).HasValue ρ ((v * du - u * dv) / (v ^ 2 + u ^ 2)) := by
  rw [derivative]
  split
  · exact ((hb.mul hfaithful hda).sub hfaithful (ha.mul hfaithful hdb)).div hfaithful
      ((hb.square hfaithful).add hfaithful (ha.square hfaithful)) hne
  · rename_i hx
    obtain ⟨hax, hbx⟩ := Bool.or_eq_false_iff.1 (Bool.eq_false_of_not_eq_true hx)
    rw [hda.derivative_eq_zero hfaithful hax, hdb.derivative_eq_zero hfaithful hbx, mul_zero, mul_zero, sub_zero,
      zero_div]
    exact hasValue_zero hfaithful

theorem HasValue.lowered (hb : b.HasValue ρ v) : b.lowered.HasValue ρ (v - 1) := by
  fun_cases Expr.lowered b with
  | case1 z => exact hb.foldLiteral hfaithful (o := .sub) (hasValue_one hfaithful) trivial
  | case2 => exact hb.sub hfaithful (hasValue_one hfaithful)

theorem HasValue.derivative_square (ha : a.HasValue ρ u) (hda : (a.derivative x).HasValue ρ du) :
    (a.square.derivative x).HasValue ρ (2 * u * du) := by
  have htwo : (nat 2 : Expr L).HasValue ρ 2 := hasValue_nat hfaithful 2
  have hone : (Expr.lowered (nat 2)).HasValue ρ (1 : ℕ) := by
    have hlowered := htwo.lowered hfaithful
    norm_num at hlowered ⊢
    exact hlowered
  have hpow : (Expr.op .pow a (Expr.lowered (nat 2))).HasValue ρ u := by
    have happly : Operator.pow.apply u (1 : ℕ) = u := (Real.rpow_natCast u 1).trans (pow_one u)
    have hvalue := HasValue.op ha hone (Operator.pow_defined_natCast u 1)
    rwa [happly] at hvalue
  rw [Expr.square, derivative, powDerivative]
  cases hx : a.contains x with
  | false =>
      rw [hda.derivative_eq_zero hfaithful hx, mul_zero]
      exact hasValue_zero hfaithful
  | true => exact (htwo.mul hfaithful hpow).mul hfaithful hda

theorem HasTangent.powDerivative {da db : Expr L} (ha : HasTangent ρ x t a u du) (hau : a.HasValue ρ u)
    (hda : da.HasValue ρ du) (hb : HasTangent ρ x t b v dv) (hbv : b.HasValue ρ v) (hdb : db.HasValue ρ dv)
    (h : Operator.pow.Regular (b.contains x = false) u v) :
    ∃ d, (powDerivative x a b da db).HasValue ρ d ∧ HasTangent ρ x t (.op .pow a b) (u ^ v) d := by
  have hu : u ≠ 0 := h.elim ne_of_gt fun h => h.2.1
  have hdefined : Operator.pow.Defined u v := by
    rcases h with hpos | ⟨_, _, hwhole⟩
    · exact Operator.pow_defined_of_pos hpos v
    · exact ⟨fun h => absurd h hu, fun _ => hwhole⟩
  have hpow : (Expr.op .pow a b).HasValue ρ (u ^ v) := .op hau hbv hdefined
  -- a varying exponent has a positive base, which has a logarithm
  have hpos (hx : b.contains x = true) : 0 < u := h.elim id fun h => absurd (hx.symm.trans h.1) (by decide)
  have hlog (hu : 0 < u) : (Expr.call .log a).HasValue ρ (Real.log u) := .call hau hu
  fun_cases Expr.powDerivative x a b da db with
  | case1 hbx hax =>
      exact ⟨0, hasValue_zero hfaithful, .of_not_contains hpow (Bool.or_eq_false_iff.2 ⟨hax, hbx⟩)⟩
  | case2 hbx hax =>
      have hlow : (Expr.op .pow a b.lowered).HasValue ρ (u ^ (v - 1)) :=
        .op hau (hbv.lowered hfaithful) (Operator.pow_sub_one hu hdefined).1
      exact ⟨_, (hbv.mul hfaithful hlow).mul hfaithful hda, ha.rpow_const hbv hbx h⟩
  | case3 hbx hax =>
      have hconst : HasTangent ρ x t a u 0 := .of_not_contains hau hax
      refine ⟨_, (hpow.mul hfaithful (hlog (hpos hbx))).mul hfaithful hdb, ?_⟩
      have htangent := hconst.rpow hb (hpos hbx)
      rwa [mul_zero, zero_div, add_zero, mul_comm dv, ← mul_assoc] at htangent
  | case4 hbx hax =>
      have hsum := (hdb.mul hfaithful (hlog (hpos hbx))).add hfaithful ((hbv.mul hfaithful hda).div hfaithful hau hu)
      exact ⟨_, hpow.mul hfaithful hsum, ha.rpow hb (hpos hbx)⟩

theorem HasTangent.opDerivative {o : Operator} (ho : o.Regular (b.contains x = false) u v)
    (ha : HasTangent ρ x t a u du) (hau : a.HasValue ρ u) (hda : (a.derivative x).HasValue ρ du)
    (hb : HasTangent ρ x t b v dv) (hbv : b.HasValue ρ v) (hdb : (b.derivative x).HasValue ρ dv) :
    ∃ d, ((Expr.op o a b).derivative x).HasValue ρ d ∧ HasTangent ρ x t (.op o a b) (o.apply u v) d := by
  cases o with
  | add =>
      refine ⟨_, hda.add hfaithful hdb, ha.op hb fun p q _ _ hp hq => ?_⟩
      exact ⟨hp.fun_add hq, .of_forall fun _ => trivial⟩
  | sub =>
      refine ⟨_, hda.sub hfaithful hdb, ha.op hb fun p q _ _ hp hq => ?_⟩
      exact ⟨hp.fun_sub hq, .of_forall fun _ => trivial⟩
  | mul =>
      refine ⟨_, (hda.mul hfaithful hbv).add hfaithful (hau.mul hfaithful hdb), ha.op hb fun p q hpt hqt hp hq => ?_⟩
      subst hpt hqt
      exact ⟨hp.fun_mul hq, .of_forall fun _ => trivial⟩
  | div =>
      have hnum := (hda.mul hfaithful hbv).sub hfaithful (hau.mul hfaithful hdb)
      refine ⟨_, hnum.div hfaithful (hbv.square hfaithful) (pow_ne_zero 2 ho), ha.op hb fun p q hpt hqt hp hq => ?_⟩
      subst hpt hqt
      exact ⟨hp.fun_div hq ho, hq.continuousAt.eventually_ne ho⟩
  | pow => exact ha.powDerivative hfaithful hau hda hb hbv hdb ho
  | mod =>
      obtain ⟨hv, hn⟩ := ho
      have hfloor : (Expr.call .floor (a / b)).HasValue ρ ⌊u / v⌋ := .call (hau.div hfaithful hbv hv) trivial
      refine ⟨_, hda.sub hfaithful (hdb.mul hfaithful hfloor), ha.op hb fun p q hpt hqt hp hq => ?_⟩
      subst hpt hqt
      exact ⟨hasDerivAt_mod hv hn hp hq, hq.continuousAt.eventually_ne hv⟩

theorem HasTangent.biFuncDerivative {f : BiFunc} (hf : f.Regular u v)
    (hsmooth : f.differentiable = true ∨ a.contains x = false ∧ b.contains x = false)
    (ha : HasTangent ρ x t a u du) (hau : a.HasValue ρ u) (hda : (a.derivative x).HasValue ρ du)
    (hb : HasTangent ρ x t b v dv) (hbv : b.HasValue ρ v) (hdb : (b.derivative x).HasValue ρ dv) :
    ∃ d, ((Expr.call₂ f a b).derivative x).HasValue ρ d ∧ HasTangent ρ x t (.call₂ f a b) (f.apply u v) d := by
  cases hx : a.contains x || b.contains x with
  | false =>
      refine ⟨0, ?_, .of_not_contains (.call₂ hau hbv) hx⟩
      rw [derivative.eq_def]
      simpa only [hx, Bool.false_eq_true, if_false] using hasValue_zero hfaithful
  | true =>
      cases f with
      | atan2 =>
          have hne : v ^ 2 + u ^ 2 ≠ 0 := by
            rcases hf with hv | hu
            · positivity
            · positivity
          refine ⟨_, hau.derivative_atan2 hfaithful hda hbv hdb hne, ha.call₂ hb fun p q hpt hqt hp hq => ?_⟩
          subst hpt hqt
          exact hf.hasDerivAt hp hq
      | dot =>
          rw [derivative, if_pos hx]
          refine ⟨_, (hda.mul hfaithful hbv).add hfaithful (hau.mul hfaithful hdb), ?_⟩
          refine ha.call₂ hb fun p q hpt hqt hp hq => ?_
          subst hpt hqt
          exact hp.fun_mul hq
      | min | max =>
          rcases hsmooth with h | ⟨ha, hb⟩
          · cases h
          · rw [ha, hb] at hx
            cases hx

theorem Regular.hasTangent (hx : ρ.binding x = some t) (h : Regular ρ x e y) (he : e.Smooth x) :
    ∃ d, (e.derivative x).HasValue ρ d ∧ HasTangent ρ x t e y d := by
  induction h with
  | literal hz => exact ⟨0, hasValue_zero hfaithful, .of_not_contains (.literal hz) rfl⟩
  | constant => exact ⟨0, hasValue_zero hfaithful, .of_not_contains .constant rfl⟩
  | @var w y hw =>
      refine ⟨_, ?_, .var hx hw⟩
      rw [derivative]
      split
      · exact hasValue_one hfaithful
      · exact hasValue_zero hfaithful
  | @call f a u ha hf ih =>
      obtain ⟨hrough, hsmooth⟩ := he
      cases hax : a.contains x with
      | false =>
          refine ⟨0, ?_, .of_not_contains (.call ha.hasValue hf.defined) hax⟩
          rw [derivative, hax]
          exact hasValue_zero hfaithful
      | true =>
          have hdiff : f.differentiable = true := hrough.resolve_right (by simp [hax])
          obtain ⟨du, hdu, htangent⟩ := ih hsmooth
          obtain ⟨d, -, houter⟩ := ha.hasValue.outerDerivative hfaithful hf hdiff
          exact ⟨d * du, ha.hasValue.derivative_call hfaithful hdu hf hdiff houter, htangent.call hf houter⟩
  | call₂ ha hb hf iha ihb =>
      obtain ⟨du, hdu, hta⟩ := iha he.2.1
      obtain ⟨dv, hdv, htb⟩ := ihb he.2.2
      exact hta.biFuncDerivative hfaithful hf he.1 ha.hasValue hdu htb hb.hasValue hdv
  | op ha hb ho iha ihb =>
      obtain ⟨du, hdu, hta⟩ := iha he.1
      obtain ⟨dv, hdv, htb⟩ := ihb he.2
      exact hta.opDerivative hfaithful ho ha.hasValue hdu htb hb.hasValue hdv

end Symbolic

/-- Symbolic differentiation is sound: where no function without a derivative is applied to something that
depends on `x`, the derivative of a formula at a regular point is defined there, and its value is the
derivative in `x` of the function that the formula is. -/
theorem derivative_hasTangent [LawfulBEq L] (ρ : Valuation L ℝ) (hfaithful : Literal.Faithful ρ.literal)
    (x : String) (t : ℝ) (hx : ρ.binding x = some t) (e : Expr L) (he : e.roughCalls x = []) (y : ℝ)
    (h : Regular ρ x e y) : ∃ d, (e.derivative x).HasValue ρ d ∧ HasTangent ρ x t e y d :=
  h.hasTangent hfaithful hx (smooth_of_roughCalls he)

/-- A whole power of a negative base, an angle behind the origin, a remainder and a step function of another
variable, at `x = -3` and `y = 1`. -/
theorem derivative_hasTangent_behind_origin :
    let x : Expr Elementary := .var "x"
    let y : Expr Elementary := .var "y"
    let e : Expr Elementary := .op .add (.op .mul (.op .pow x (nat 3)) (.call₂ .atan2 y x))
      (.op .mul (.call .floor y) (.op .mod x (nat 2)))
    let ρ : Valuation Elementary ℝ := ⟨Elementary.toReal, fun v => if v = "x" then some (-3) else some 1⟩
    e.roughCalls "x" = [] ∧ ∃ z, Regular ρ "x" e z ∧
      ∃ d, (e.derivative "x").HasValue ρ d ∧ HasTangent ρ "x" (-3) e z d := by
  intro x y e ρ
  have hfaithful : Literal.Faithful ρ.literal := Elementary.faithful_toReal
  have hx : Regular ρ "x" x (-3) := .var rfl
  have hy : Regular ρ "x" y 1 := .var rfl
  have hnat (n : Nat) : Regular ρ "x" (nat n) n := by
    have hvalue := hfaithful.ofNat n
    rw [← hvalue]
    exact .literal (hfaithful.finite _)
  have hpow : Operator.pow.Regular ((nat 3 : Expr Elementary).contains "x" = false) (-3) (3 : ℕ) :=
    .inr ⟨rfl, by norm_num, 3, by norm_num⟩
  have hangle : BiFunc.atan2.Regular 1 (-3) := .inr one_ne_zero
  have hmod : Operator.mod.Regular ((nat 2 : Expr Elementary).contains "x" = false) (-3) (2 : ℕ) := by
    refine ⟨by norm_num, fun n hn => ?_⟩
    have htwice : (-3 : ℝ) = 2 * n := by rw [← hn]; norm_num
    have hint : (-3 : ℤ) = 2 * n := by exact_mod_cast htwice
    omega
  have hregular : Regular ρ "x" e _ :=
    .op (.op (.op hx (hnat 3) hpow) (.call₂ hy hx hangle) trivial)
      (.op (.call hy trivial) (.op hx (hnat 2) hmod) trivial) trivial
  have hrough : e.roughCalls "x" = [] := by
    simp [e, x, y, roughCalls, subtrees, nat, Func.differentiable, BiFunc.differentiable, contains, sortNames]
  exact ⟨hrough, _, hregular, derivative_hasTangent ρ hfaithful "x" (-3) rfl e hrough _ hregular⟩

end Expr

end FlowShader
