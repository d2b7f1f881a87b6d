import FlowShader.Proofs.Scalar.Real
import FlowShader.Proofs.Expr.Names
import FlowShader.Proofs.Expr.Value

namespace FlowShader.Expr

variable {L : Type} [Literal L] [LawfulBEq L] {ρ : Valuation L ℝ} {a b : Expr L} {x y : ℝ}

omit [LawfulBEq L] in
theorem HasValue.ofLiteral (hfaithful : Literal.Faithful ρ.literal) {z : L} (h : ρ.literal z = x) :
    (Expr.literal z).HasValue ρ x :=
  h ▸ .literal (hfaithful.finite z)

omit [LawfulBEq L] in
theorem HasValue.literal_eq {z : L} (h : (Expr.literal z).HasValue ρ x) : ρ.literal z = x := by
  cases h
  rfl

omit [LawfulBEq L] in
theorem HasValue.literal_finite {z : L} (h : (Expr.literal z).HasValue ρ x) : Literal.isFinite z = true := by
  cases h
  assumption

theorem eq_zero_of_isZero (ha : a.isZero = true) : a = zero := by
  cases a with
  | literal z => rw [eq_of_beq (show (z == 0) = true from ha), zero]
  | constant | var | call | call₂ | op => cases ha

theorem eq_one_of_isOne (ha : a.isOne = true) : a = one := by
  cases a with
  | literal z => rw [eq_of_beq (show (z == 1) = true from ha), one]
  | constant | var | call | call₂ | op => cases ha

theorem HasValue.eq_zero (hfaithful : Literal.Faithful ρ.literal) (h : a.HasValue ρ x) (ha : a.isZero = true) :
    x = 0 := by
  obtain rfl := eq_zero_of_isZero ha
  exact h.literal_eq.symm.trans hfaithful.zero

theorem HasValue.eq_one (hfaithful : Literal.Faithful ρ.literal) (h : a.HasValue ρ x) (ha : a.isOne = true) :
    x = 1 := by
  obtain rfl := eq_one_of_isOne ha
  exact h.literal_eq.symm.trans hfaithful.one

omit [LawfulBEq L] in
theorem hasValue_zero (hfaithful : Literal.Faithful ρ.literal) : (zero : Expr L).HasValue ρ 0 :=
  .ofLiteral hfaithful hfaithful.zero

omit [LawfulBEq L] in
theorem hasValue_one (hfaithful : Literal.Faithful ρ.literal) : (one : Expr L).HasValue ρ 1 :=
  .ofLiteral hfaithful hfaithful.one

omit [LawfulBEq L] in
theorem hasValue_nat (hfaithful : Literal.Faithful ρ.literal) (n : Nat) : (nat n : Expr L).HasValue ρ n :=
  .ofLiteral hfaithful (hfaithful.ofNat n)

omit [LawfulBEq L] in
theorem HasValue.square (hfaithful : Literal.Faithful ρ.literal) (ha : a.HasValue ρ x) :
    a.square.HasValue ρ (x ^ 2) := by
  have hpow : x ^ ((2 : ℕ) : ℝ) = x ^ 2 := Real.rpow_natCast x 2
  rw [← hpow]
  exact .op ha (hasValue_nat hfaithful 2) (Operator.pow_defined_natCast x 2)

omit [LawfulBEq L] in
/-- An operator that has no exceptions is folded exactly. -/
theorem HasValue.foldLiteral (hfaithful : Literal.Faithful ρ.literal) {o : Operator} {u v : L}
    (ha : (Expr.literal u).HasValue ρ x) (hb : (Expr.literal v).HasValue ρ y) (ho : o.Defined x y) :
    (Expr.literal (o.apply u v)).HasValue ρ (o.apply x y) := by
  rw [← ha.literal_eq, ← hb.literal_eq] at ho ⊢
  exact .ofLiteral hfaithful (hfaithful.operator o u v (hfaithful.finite _) (hfaithful.finite _)
    (hfaithful.finite _) ho)

theorem HasValue.add (hfaithful : Literal.Faithful ρ.literal) (ha : a.HasValue ρ x) (hb : b.HasValue ρ y) :
    (a + b).HasValue ρ (x + y) := by
  change (Expr.add a b).HasValue ρ (x + y)
  fun_cases Expr.add a b with
  | case1 u v => exact ha.foldLiteral hfaithful (o := .add) hb trivial
  | case2 _ _ _ hzero => rwa [hb.eq_zero hfaithful hzero, add_zero]
  | case3 _ _ _ _ hzero => rwa [ha.eq_zero hfaithful hzero, zero_add]
  | case4 => exact .op ha hb trivial

theorem HasValue.sub (hfaithful : Literal.Faithful ρ.literal) (ha : a.HasValue ρ x) (hb : b.HasValue ρ y) :
    (a - b).HasValue ρ (x - y) := by
  change (Expr.sub a b).HasValue ρ (x - y)
  fun_cases Expr.sub a b with
  | case1 u v => exact ha.foldLiteral hfaithful (o := .sub) hb trivial
  | case2 _ _ _ hzero => rwa [hb.eq_zero hfaithful hzero, sub_zero]
  | case3 => exact .op ha hb trivial

theorem HasValue.mul (hfaithful : Literal.Faithful ρ.literal) (ha : a.HasValue ρ x) (hb : b.HasValue ρ y) :
    (a * b).HasValue ρ (x * y) := by
  change (Expr.mul a b).HasValue ρ (x * y)
  fun_cases Expr.mul a b with
  | case1 u v => exact ha.foldLiteral hfaithful (o := .mul) hb trivial
  | case2 _ _ _ hzero =>
      have hxy : x * y = 0 := by
        rcases Bool.or_eq_true_iff.1 hzero with hzero | hzero
        · rw [hb.eq_zero hfaithful hzero, mul_zero]
        · rw [ha.eq_zero hfaithful hzero, zero_mul]
      exact hxy ▸ hasValue_zero hfaithful
  | case3 _ _ _ _ hone => rwa [hb.eq_one hfaithful hone, mul_one]
  | case4 _ _ _ _ _ hone => rwa [ha.eq_one hfaithful hone, one_mul]
  | case5 => exact .op ha hb trivial

theorem HasValue.div (hfaithful : Literal.Faithful ρ.literal) (ha : a.HasValue ρ x) (hb : b.HasValue ρ y)
    (hy : y ≠ 0) : (a / b).HasValue ρ (x / y) := by
  change (Expr.div a b).HasValue ρ (x / y)
  fun_cases Expr.div a b with
  | case1 u v => exact ha.foldLiteral hfaithful (o := .div) hb hy
  | case2 u v => exact .op ha hb hy
  | case3 _ _ _ hone => rwa [hb.eq_one hfaithful hone, div_one]
  | case4 _ _ _ _ hzero =>
      rw [ha.eq_zero hfaithful (Bool.and_eq_true_iff.1 hzero).1, zero_div]
      exact hasValue_zero hfaithful
  | case5 => exact .op ha hb hy

omit [LawfulBEq L] in
theorem HasValue.neg (hfaithful : Literal.Faithful ρ.literal) (ha : a.HasValue ρ x) :
    (-a).HasValue ρ (-x) := by
  change (Expr.neg a).HasValue ρ (-x)
  fun_cases Expr.neg a with
  | case1 u =>
      rw [← ha.literal_eq]
      exact .ofLiteral hfaithful (hfaithful.neg u)
  | case2 =>
      rw [← zero_sub]
      exact .op (hasValue_zero hfaithful) ha trivial

end FlowShader.Expr
