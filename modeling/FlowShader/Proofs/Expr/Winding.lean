import FlowShader.Proofs.Expr.Replace

namespace FlowShader

open Real (pi)

section Angles

variable {u v : ℝ}

theorem arg_mk_swap (hne : u ≠ 0 ∨ v ≠ 0) {θ : ℝ} (hθ : θ ∈ Set.Ioc (-pi) pi)
    (hturn : ∃ k : ℤ, θ = pi / 2 - Complex.arg ⟨v, u⟩ + k * (2 * pi)) : Complex.arg ⟨u, v⟩ = θ := by
  obtain ⟨k, hk⟩ := hturn
  let z : ℂ := ⟨v, u⟩
  have hz : z ≠ 0 := by
    intro hz
    have hre : v = 0 := congrArg Complex.re hz
    have him : u = 0 := congrArg Complex.im hz
    rcases hne with h | h
    · exact h him
    · exact h hre
  have hnorm : 0 < ‖z‖ := norm_pos_iff.2 hz
  have hcos : Real.cos θ = Real.sin z.arg := by
    rw [hk, Real.cos_add_int_mul_two_pi, Real.cos_pi_div_two_sub]
  have hsin : Real.sin θ = Real.cos z.arg := by
    rw [hk, Real.sin_add_int_mul_two_pi, Real.sin_pi_div_two_sub]
  -- Up to the norm, the point has the cosine and sine of `θ` as its parts.
  have hparts : (‖z‖ * (Complex.cos θ + Complex.sin θ * Complex.I) : ℂ) = ⟨‖z‖ * Real.cos θ, ‖z‖ * Real.sin θ⟩ := by
    apply Complex.ext <;> simp [← Complex.ofReal_cos, ← Complex.ofReal_sin]
  have hpolar : (⟨u, v⟩ : ℂ) = ‖z‖ * (Complex.cos θ + Complex.sin θ * Complex.I) := by
    rw [hparts, hcos, hsin, Complex.norm_mul_sin_arg, Complex.norm_mul_cos_arg]
  rw [hpolar]
  exact Complex.arg_mul_cos_add_sin_mul_I hnorm hθ

theorem arg_swap (hne : u ≠ 0 ∨ v ≠ 0) (h : 0 ≤ u ∨ 0 ≤ v) :
    pi / 2 - Complex.arg ⟨u, v⟩ = Complex.arg ⟨v, u⟩ := by
  have hbelow : -(pi / 2) ≤ Complex.arg ⟨v, u⟩ := by
    rcases h with h | h
    · have hnonneg := Complex.arg_nonneg_iff.2 (show 0 ≤ (⟨v, u⟩ : ℂ).im from h)
      linarith [Real.pi_pos]
    · exact (abs_le.1 (Complex.abs_arg_le_pi_div_two_iff.2 h)).1
  have habove := Complex.arg_le_pi ⟨v, u⟩
  rw [arg_mk_swap hne (θ := pi / 2 - Complex.arg ⟨v, u⟩) ⟨by linarith [Real.pi_pos], by linarith⟩ ⟨0, by simp⟩]
  ring

theorem arg_swap_of_neg (hu : u < 0) (hv : v < 0) :
    pi / 2 - Complex.arg ⟨u, v⟩ = Complex.arg ⟨v, u⟩ + 2 * pi := by
  have hneg := Complex.arg_neg_iff.2 (show (⟨v, u⟩ : ℂ).im < 0 from hu)
  have hbelow : Complex.arg ⟨v, u⟩ < -(pi / 2) := by
    by_contra h
    exact hv.not_ge (Complex.abs_arg_le_pi_div_two_iff.1 (abs_le.2 ⟨not_lt.1 h, by linarith [Real.pi_pos]⟩))
  have hle := Complex.neg_pi_lt_arg ⟨v, u⟩
  rw [arg_mk_swap (.inl hu.ne) (θ := pi / 2 - Complex.arg ⟨v, u⟩ - 2 * pi) ⟨by linarith, by linarith⟩
    ⟨-1, by push_cast; ring⟩]
  ring

end Angles

variable {L : Type} [Literal L] {ρ : Valuation L ℝ} {a b c e e' new : Expr L} {x : String} {k t : ℝ}

namespace Expr

/-- Wherever both formulas are defined, the second has a value greater by `t`. -/
def Apart (ρ : Valuation L ℝ) (t : ℝ) (e e' : Expr L) : Prop :=
  ∀ v v', e.HasValue ρ v → e'.HasValue ρ v' → v' = v + t

theorem Apart.agree (h : Apart ρ 0 e e') : Agree ρ e e' := by
  intro v v' hv hv'
  rw [h v v' hv hv', add_zero]

/-- When `atan2(a, b)` gains a full turn, the formula gains `k` turns, and its derivatives stay as they are. -/
inductive Winds (literal : L → ℝ) (a b : Expr L) : Expr L → ℝ → Prop
  | azimuth : Winds literal a b (.call₂ .atan2 a b) 1
  | literal (z : L) : Winds literal a b (.literal z) 0
  | constant (c : Constant) : Winds literal a b (.constant c) 0
  | var (v : String) : Winds literal a b (.var v) 0
  | add {e e' : Expr L} {k k' : ℝ} : Winds literal a b e k → Winds literal a b e' k' →
      Winds literal a b (.op .add e e') (k + k')
  | sub {e e' : Expr L} {k k' : ℝ} : Winds literal a b e k → Winds literal a b e' k' →
      Winds literal a b (.op .sub e e') (k - k')
  | mulRight {e c : Expr L} {k : ℝ} {z : L} : Winds literal a b e k → c.number? = some z →
      Winds literal a b (.op .mul e c) (k * literal z)
  | mulLeft {e c : Expr L} {k : ℝ} {z : L} : Winds literal a b e k → c.number? = some z →
      Winds literal a b (.op .mul c e) (literal z * k)
  | div {e c : Expr L} {k : ℝ} {z : L} : Winds literal a b e k → c.number? = some z →
      Winds literal a b (.op .div e c) (k / literal z)
  | periodic {f : Func} {e : Expr L} {n : ℤ} : f ∈ [.sin, .cos, .tan] → Winds literal a b e n →
      Winds literal a b (.call f e) 0
  | call {f : Func} {e : Expr L} : Winds literal a b e 0 → Winds literal a b (.call f e) 0
  | call₂ {f : BiFunc} {e e' : Expr L} : Expr.call₂ f e e' ≠ .call₂ .atan2 a b → Winds literal a b e 0 →
      Winds literal a b e' 0 → Winds literal a b (.call₂ f e e') 0
  | op {o : Operator} {e e' : Expr L} : Winds literal a b e 0 → Winds literal a b e' 0 →
      Winds literal a b (.op o e e') 0

section Periods

variable {n : ℤ}

theorem Apart.periodic (h : Apart ρ (n * (2 * pi)) e e') {f : Func} (hf : f ∈ [.sin, .cos, .tan]) :
    Agree ρ (.call f e) (.call f e') := by
  intro v v' hv hv'
  obtain ⟨u, hu, rfl⟩ := hv.of_call
  obtain ⟨u', hu', rfl⟩ := hv'.of_call
  rw [h u u' hu hu']
  have hsin : Real.sin (u + n * (2 * pi)) = Real.sin u := Real.sin_add_int_mul_two_pi u n
  have hcos : Real.cos (u + n * (2 * pi)) = Real.cos u := Real.cos_add_int_mul_two_pi u n
  simp only [List.mem_cons, List.not_mem_nil, or_false] at hf
  rcases hf with rfl | rfl | rfl
  · exact hsin.symm
  · exact hcos.symm
  · change Real.tan u = Real.tan (u + n * (2 * pi))
    rw [Real.tan_eq_sin_div_cos, Real.tan_eq_sin_div_cos, hsin, hcos]

theorem Apart.derivative_periodic [LawfulBEq L] (hfaithful : Literal.Faithful ρ.literal)
    (h : Apart ρ (n * (2 * pi)) e e') (hx : e'.contains x = e.contains x)
    (hd : Agree ρ (e.derivative x) (e'.derivative x)) {f : Func} (hf : f ∈ [.sin, .cos, .tan]) :
    Agree ρ ((Expr.call f e).derivative x) ((Expr.call f e').derivative x) := by
  have houter : Agree ρ (outerDerivative e f) (outerDerivative e' f) := by
    simp only [List.mem_cons, List.not_mem_nil, or_false] at hf
    rcases hf with rfl | rfl | rfl
    · exact h.periodic (by simp)
    · exact (h.periodic (by simp)).neg hfaithful
    · exact (Agree.refl one).div hfaithful (Agree.square (h.periodic (by simp))) (op_ne_literal _ _ _)
        (op_ne_literal _ _ _)
  rw [derivative, derivative, hx]
  split
  · exact houter.mul hfaithful hd
  · exact .refl _

end Periods

section Numbers

theorem HasValue.of_number (hfaithful : Literal.Faithful ρ.literal) {z : L} (hc : c.number? = some z) :
    c.HasValue ρ (ρ.literal z) := by
  cases c with
  | literal y =>
      obtain rfl := Option.some.inj hc
      exact .ofLiteral hfaithful rfl
  | constant d =>
      obtain rfl := Option.some.inj hc
      rw [hfaithful.constant]
      exact .constant
  | var | call | call₂ | op => cases hc

theorem derivative_number {z : L} (hc : c.number? = some z) : c.derivative x = zero := by
  cases c with
  | literal | constant => rfl
  | var | call | call₂ | op => cases hc

theorem replace_number {z : L} (hc : c.number? = some z) : replace (.call₂ .atan2 a b) new c = c := by
  cases c with
  | literal | constant => rfl
  | var | call | call₂ | op => cases hc

variable [LawfulBEq L] (hfaithful : Literal.Faithful ρ.literal)
include hfaithful

theorem agree_mul_zero : Agree ρ (e * zero) (e' * zero) := by
  have hzero (w : ℝ) (hw : (zero : Expr L).HasValue ρ w) : w = 0 := hw.unique (hasValue_zero hfaithful)
  intro v v' h h'
  rw [h.mul_eq_zero hfaithful (.inr hzero), h'.mul_eq_zero hfaithful (.inr hzero)]

theorem agree_zero_mul : Agree ρ (zero * e) (zero * e') := by
  have hzero (w : ℝ) (hw : (zero : Expr L).HasValue ρ w) : w = 0 := hw.unique (hasValue_zero hfaithful)
  intro v v' h h'
  rw [h.mul_eq_zero hfaithful (.inl hzero), h'.mul_eq_zero hfaithful (.inl hzero)]

variable {z : L} (hc : c.number? = some z)
include hc

omit [LawfulBEq L] in
theorem Apart.op_number (h : Apart ρ t e e') {o : Operator} {s : ℝ}
    (ho : ∀ u, o.apply (u + t) (ρ.literal z) = o.apply u (ρ.literal z) + s) : Apart ρ s (.op o e c) (.op o e' c) := by
  intro v v' hv hv'
  obtain ⟨u, w, hu, hw, rfl⟩ := hv.of_op
  obtain ⟨u', w', hu', hw', rfl⟩ := hv'.of_op
  obtain rfl := hw.unique (.of_number hfaithful hc)
  obtain rfl := hw'.unique (.of_number hfaithful hc)
  rw [h u u' hu hu', ho]

omit [LawfulBEq L] in
theorem Apart.mul_number (h : Apart ρ t e e') : Apart ρ (ρ.literal z * t) (.op .mul c e) (.op .mul c e') := by
  intro v v' hv hv'
  obtain ⟨w, u, hw, hu, rfl⟩ := hv.of_op
  obtain ⟨w', u', hw', hu', rfl⟩ := hv'.of_op
  obtain rfl := hw.unique (.of_number hfaithful hc)
  obtain rfl := hw'.unique (.of_number hfaithful hc)
  rw [h u u' hu hu']
  exact mul_add ..

variable (hd : Agree ρ (e.derivative x) (e'.derivative x))
include hd

theorem Agree.derivative_mul_number :
    Agree ρ ((Expr.op .mul e c).derivative x) ((Expr.op .mul e' c).derivative x) := by
  rw [derivative, derivative, derivative_number hc]
  exact (hd.mul hfaithful (.refl c)).add hfaithful (agree_mul_zero hfaithful)

theorem Agree.derivative_number_mul :
    Agree ρ ((Expr.op .mul c e).derivative x) ((Expr.op .mul c e').derivative x) := by
  rw [derivative, derivative, derivative_number hc]
  exact (agree_zero_mul hfaithful).add hfaithful ((Agree.refl c).mul hfaithful hd)

theorem Agree.derivative_div_number :
    Agree ρ ((Expr.op .div e c).derivative x) ((Expr.op .div e' c).derivative x) := by
  rw [derivative, derivative, derivative_number hc]
  exact ((hd.mul hfaithful (.refl c)).sub hfaithful (agree_mul_zero hfaithful)).div hfaithful (.refl _)
    (op_ne_literal _ _ _) (op_ne_literal _ _ _)

end Numbers

/-- An azimuth that is replaced by one a full turn ahead changes a formula by its winding number. -/
theorem Winds.replace [LawfulBEq L] (hfaithful : Literal.Faithful ρ.literal)
    (hcontains : ∀ x, new.contains x = (Expr.call₂ .atan2 a b).contains x)
    (hvalue : Apart ρ (2 * pi) (.call₂ .atan2 a b) new)
    (hderivative : ∀ x, Agree ρ ((Expr.call₂ .atan2 a b).derivative x) (new.derivative x))
    (h : Winds ρ.literal a b e k) :
    Apart ρ (k * (2 * pi)) e (Expr.replace (.call₂ .atan2 a b) new e) ∧
      ∀ x, Agree ρ (e.derivative x) ((Expr.replace (.call₂ .atan2 a b) new e).derivative x) := by
  have hsame (x : String) := contains_replace (hcontains x)
  have hagree {e : Expr L} (h : Apart ρ (0 * (2 * pi)) e (Expr.replace (.call₂ .atan2 a b) new e)) :
      Agree ρ e (Expr.replace (.call₂ .atan2 a b) new e) := by
    rw [zero_mul] at h
    exact h.agree
  have hapart {e : Expr L} (h : Agree ρ e (Expr.replace (.call₂ .atan2 a b) new e)) :
      Apart ρ (0 * (2 * pi)) e (Expr.replace (.call₂ .atan2 a b) new e) := by
    intro v v' hv hv'
    rw [h v v' hv hv', zero_mul, add_zero]
  induction h with
  | azimuth =>
      have hself : Expr.replace (.call₂ .atan2 a b) new (.call₂ .atan2 a b) = new := if_pos BEq.rfl
      rw [hself, one_mul]
      exact ⟨hvalue, hderivative⟩
  | literal | constant | var => exact ⟨hapart (.refl _), fun _ => .refl _⟩
  | @add e e' k k' _ _ ihe ihe' =>
      refine ⟨fun v v' h h' => ?_, fun x => (ihe.2 x).add hfaithful (ihe'.2 x)⟩
      obtain ⟨u, w, hu, hw, rfl⟩ := h.of_op
      obtain ⟨u', w', hu', hw', rfl⟩ := HasValue.of_op h'
      rw [ihe.1 u u' hu hu', ihe'.1 w w' hw hw']
      change u + k * (2 * pi) + (w + k' * (2 * pi)) = u + w + (k + k') * (2 * pi)
      ring
  | @sub e e' k k' _ _ ihe ihe' =>
      refine ⟨fun v v' h h' => ?_, fun x => (ihe.2 x).sub hfaithful (ihe'.2 x)⟩
      obtain ⟨u, w, hu, hw, rfl⟩ := h.of_op
      obtain ⟨u', w', hu', hw', rfl⟩ := HasValue.of_op h'
      rw [ihe.1 u u' hu hu', ihe'.1 w w' hw hw']
      change u + k * (2 * pi) - (w + k' * (2 * pi)) = u - w + (k - k') * (2 * pi)
      ring
  | @mulRight e c k z _ hc ih =>
      have hreplace : Expr.replace (.call₂ .atan2 a b) new (.op .mul e c) = .op .mul (Expr.replace _ new e) c :=
        congrArg (Expr.op .mul _) (replace_number hc)
      rw [hreplace]
      refine ⟨ih.1.op_number hfaithful hc fun u => ?_, fun x => (ih.2 x).derivative_mul_number hfaithful hc⟩
      change (u + k * (2 * pi)) * _ = u * _ + k * _ * (2 * pi)
      ring
  | @mulLeft e c k z _ hc ih =>
      have hreplace : Expr.replace (.call₂ .atan2 a b) new (.op .mul c e) = .op .mul c (Expr.replace _ new e) :=
        congrArg (Expr.op .mul · _) (replace_number hc)
      rw [hreplace, mul_assoc]
      exact ⟨ih.1.mul_number hfaithful hc, fun x => (ih.2 x).derivative_number_mul hfaithful hc⟩
  | @div e c k z _ hc ih =>
      have hreplace : Expr.replace (.call₂ .atan2 a b) new (.op .div e c) = .op .div (Expr.replace _ new e) c :=
        congrArg (Expr.op .div _) (replace_number hc)
      rw [hreplace]
      refine ⟨ih.1.op_number hfaithful hc fun u => ?_, fun x => (ih.2 x).derivative_div_number hfaithful hc⟩
      change (u + k * (2 * pi)) / _ = u / _ + k / _ * (2 * pi)
      ring
  | periodic hf _ ih =>
      exact ⟨hapart (ih.1.periodic hf), fun x => ih.1.derivative_periodic hfaithful (hsame x _) (ih.2 x) hf⟩
  | call _ ih =>
      exact ⟨hapart ((hagree ih.1).call _), fun x => (hagree ih.1).derivative_call hfaithful (hsame x _) (ih.2 x) _⟩
  | @call₂ f e e' hne _ _ ihe ihe' =>
      -- This is not the azimuth, so that only its arguments are replaced.
      have hreplace : Expr.replace (.call₂ .atan2 a b) new (.call₂ f e e') =
          .call₂ f (Expr.replace (.call₂ .atan2 a b) new e) (Expr.replace (.call₂ .atan2 a b) new e') :=
        if_neg (by simpa using hne)
      refine ⟨hapart ?_, fun x => ?_⟩
      · rw [hreplace]
        exact (hagree ihe.1).call₂ (hagree ihe'.1) f
      · rw [hreplace]
        exact (hagree ihe.1).derivative_call₂ hfaithful (hsame x _) (ihe.2 x) (hsame x _) (hagree ihe'.1) (ihe'.2 x) f
  | op _ _ ihe ihe' =>
      exact ⟨hapart ((hagree ihe.1).op (hagree ihe'.1) _), fun x =>
        (hagree ihe.1).derivative_op hfaithful (hsame x _) (ihe.2 x) (hsame x _) (hagree ihe'.1) (ihe'.2 x) _⟩

end Expr

end FlowShader
