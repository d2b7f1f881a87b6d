import FlowShader.Proofs.Scalar.Real
import FlowShader.Expr.Derivative
import FlowShader.Proofs.Expr.Fold

namespace FlowShader.Expr

variable {L : Type} [Literal L]

instance [LawfulBEq L] : LawfulBEq (Expr L) where
  rfl {e} := by
    change beq e e = true
    induction e with
    | literal z => exact BEq.rfl (a := z)
    | constant c => exact BEq.rfl (a := c)
    | var v => exact BEq.rfl (a := v)
    | call f a ih => simp [beq, ih]
    | call₂ f a b iha ihb => simp [beq, iha, ihb]
    | op o a b iha ihb => simp [beq, iha, ihb]
  eq_of_beq {e e'} h := by
    change beq e e' = true at h
    induction e generalizing e' with
    | literal | constant | var => cases e' <;> simp_all [beq]
    | call f a ih =>
        cases e' with
        | call g b =>
            obtain ⟨hf, ha⟩ := Bool.and_eq_true_iff.1 h
            rw [eq_of_beq hf, ih ha]
        | literal | constant | var | call₂ | op => cases h
    | call₂ f a b iha ihb =>
        cases e' with
        | call₂ g c d =>
            obtain ⟨hfa, hb⟩ := Bool.and_eq_true_iff.1 h
            obtain ⟨hf, ha⟩ := Bool.and_eq_true_iff.1 hfa
            rw [eq_of_beq hf, iha ha, ihb hb]
        | literal | constant | var | call | op => cases h
    | op o a b iha ihb =>
        cases e' with
        | op p c d =>
            obtain ⟨hoa, hb⟩ := Bool.and_eq_true_iff.1 h
            obtain ⟨ho, ha⟩ := Bool.and_eq_true_iff.1 hoa
            rw [eq_of_beq ho, iha ha, ihb hb]
        | literal | constant | var | call | call₂ => cases h

variable {ρ : Valuation L ℝ} {x : String} {a a' b b' e e' : Expr L} {v : ℝ}

omit [Literal L] in
theorem call_ne_literal (f : Func) (a : Expr L) (z : L) : call f a ≠ literal z := by
  intro h
  cases h

omit [Literal L] in
theorem op_ne_literal (o : Operator) (a b : Expr L) (z : L) : op o a b ≠ literal z := by
  intro h
  cases h

section Operands

theorem HasValue.of_call {f : Func} (h : (Expr.call f a).HasValue ρ v) : ∃ u, a.HasValue ρ u ∧ v = f.apply u := by
  cases h with
  | call ha => exact ⟨_, ha, rfl⟩

theorem HasValue.of_call₂ {f : BiFunc} (h : (Expr.call₂ f a b).HasValue ρ v) :
    ∃ u w, a.HasValue ρ u ∧ b.HasValue ρ w ∧ v = f.apply u w := by
  cases h with
  | call₂ ha hb => exact ⟨_, _, ha, hb, rfl⟩

theorem HasValue.of_op {o : Operator} (h : (Expr.op o a b).HasValue ρ v) :
    ∃ u w, a.HasValue ρ u ∧ b.HasValue ρ w ∧ v = o.apply u w := by
  cases h with
  | op ha hb => exact ⟨_, _, ha, hb, rfl⟩

variable (hfaithful : Literal.Faithful ρ.literal)
include hfaithful

theorem hasValue_literal (z : L) : (literal z).HasValue ρ (ρ.literal z) := .ofLiteral hfaithful rfl

theorem HasValue.of_square (h : a.square.HasValue ρ v) : ∃ u, a.HasValue ρ u ∧ v = u ^ 2 := by
  obtain ⟨u, _, ha, -, -⟩ := HasValue.of_op h
  exact ⟨u, ha, h.unique (ha.square hfaithful)⟩

theorem HasValue.of_neg (h : (-a).HasValue ρ v) : ∃ u, a.HasValue ρ u ∧ v = -u := by
  cases a with
  | literal z => exact ⟨_, hasValue_literal hfaithful z, h.unique ((hasValue_literal hfaithful z).neg hfaithful)⟩
  | constant | var | call | call₂ | op =>
      obtain ⟨_, u, -, ha, -⟩ := HasValue.of_op h
      exact ⟨u, ha, h.unique (ha.neg hfaithful)⟩

variable [LawfulBEq L]

theorem hasValue_of_isZero (ha : a.isZero = true) : a.HasValue ρ 0 :=
  eq_zero_of_isZero ha ▸ hasValue_zero hfaithful

theorem hasValue_of_isOne (ha : a.isOne = true) : a.HasValue ρ 1 :=
  eq_one_of_isOne ha ▸ hasValue_one hfaithful

theorem HasValue.of_add (h : (a + b).HasValue ρ v) : ∃ u w, a.HasValue ρ u ∧ b.HasValue ρ w ∧ v = u + w := by
  revert h
  change (Expr.add a b).HasValue ρ v → _
  fun_cases Expr.add a b with
  | case1 y z =>
      have hy := hasValue_literal hfaithful y
      have hz := hasValue_literal hfaithful z
      exact fun h => ⟨_, _, hy, hz, h.unique (hy.foldLiteral hfaithful (o := .add) hz trivial)⟩
  | case2 _ _ _ hzero => exact fun h => ⟨v, 0, h, hasValue_of_isZero hfaithful hzero, (add_zero v).symm⟩
  | case3 _ _ _ _ hzero => exact fun h => ⟨0, v, hasValue_of_isZero hfaithful hzero, h, (zero_add v).symm⟩
  | case4 => exact HasValue.of_op

theorem HasValue.of_sub (h : (a - b).HasValue ρ v) : ∃ u w, a.HasValue ρ u ∧ b.HasValue ρ w ∧ v = u - w := by
  revert h
  change (Expr.sub a b).HasValue ρ v → _
  fun_cases Expr.sub a b with
  | case1 y z =>
      have hy := hasValue_literal hfaithful y
      have hz := hasValue_literal hfaithful z
      exact fun h => ⟨_, _, hy, hz, h.unique (hy.foldLiteral hfaithful (o := .sub) hz trivial)⟩
  | case2 _ _ _ hzero => exact fun h => ⟨v, 0, h, hasValue_of_isZero hfaithful hzero, (sub_zero v).symm⟩
  | case3 => exact HasValue.of_op

/-- A product with zero has a value whatever the other factor is. -/
theorem HasValue.of_mul (h : (a * b).HasValue ρ v) :
    (∃ u w, a.HasValue ρ u ∧ b.HasValue ρ w ∧ v = u * w) ∨ v = 0 ∧ (a.HasValue ρ 0 ∨ b.HasValue ρ 0) := by
  revert h
  change (Expr.mul a b).HasValue ρ v → _
  fun_cases Expr.mul a b with
  | case1 y z =>
      have hy := hasValue_literal hfaithful y
      have hz := hasValue_literal hfaithful z
      exact fun h => .inl ⟨_, _, hy, hz, h.unique (hy.foldLiteral hfaithful (o := .mul) hz trivial)⟩
  | case2 _ _ _ hzero =>
      refine fun h => .inr ⟨h.unique (hasValue_zero hfaithful), ?_⟩
      rcases Bool.or_eq_true_iff.1 hzero with hzero | hzero
      · exact .inr (hasValue_of_isZero hfaithful hzero)
      · exact .inl (hasValue_of_isZero hfaithful hzero)
  | case3 _ _ _ _ hone => exact fun h => .inl ⟨v, 1, h, hasValue_of_isOne hfaithful hone, (mul_one v).symm⟩
  | case4 _ _ _ _ _ hone => exact fun h => .inl ⟨1, v, hasValue_of_isOne hfaithful hone, h, (one_mul v).symm⟩
  | case5 => exact fun h => .inl h.of_op

/-- Zero divided by something has a value whatever the divisor is. A literal divisor may stand for zero without
being the literal zero. -/
theorem HasValue.of_div (h : (a / b).HasValue ρ v) (hb : ∀ z, b ≠ .literal z) :
    (∃ u w, a.HasValue ρ u ∧ b.HasValue ρ w ∧ v = u / w) ∨ v = 0 ∧ a.HasValue ρ 0 := by
  revert h
  change (Expr.div a b).HasValue ρ v → _
  fun_cases Expr.div a b with
  | case1 y z | case2 y z => exact absurd rfl (hb z)
  | case3 _ _ _ hone => exact fun h => .inl ⟨v, 1, h, hasValue_of_isOne hfaithful hone, (div_one v).symm⟩
  | case4 _ _ _ _ hzero =>
      exact fun h => .inr ⟨h.unique (hasValue_zero hfaithful),
        hasValue_of_isZero hfaithful (Bool.and_eq_true_iff.1 hzero).1⟩
  | case5 => exact fun h => .inl h.of_op

theorem HasValue.of_lowered (h : a.lowered.HasValue ρ v) : ∃ u, a.HasValue ρ u ∧ v = u - 1 := by
  revert h
  fun_cases Expr.lowered a with
  | case1 z =>
      have hz := hasValue_literal hfaithful z
      exact fun h => ⟨_, hz, h.unique (hz.foldLiteral hfaithful (o := .sub) (hasValue_one hfaithful) trivial)⟩
  | case2 =>
      intro h
      obtain ⟨u, w, ha, hone, rfl⟩ := h.of_sub hfaithful
      exact ⟨u, ha, by rw [hone.unique (hasValue_one hfaithful)]⟩

/-- A product has the value zero if a factor has no other. -/
theorem HasValue.mul_eq_zero (h : (a * b).HasValue ρ v)
    (hzero : (∀ u, a.HasValue ρ u → u = 0) ∨ ∀ w, b.HasValue ρ w → w = 0) : v = 0 := by
  rcases h.of_mul hfaithful with ⟨u, w, ha, hb, rfl⟩ | ⟨rfl, -⟩
  · rcases hzero with hzero | hzero
    · rw [hzero u ha, zero_mul]
    · rw [hzero w hb, mul_zero]
  · rfl

/-- The derivative in a variable that does not occur has no value but zero. -/
theorem HasValue.derivative_eq_zero (hx : e.contains x = false) (h : (e.derivative x).HasValue ρ v) : v = 0 := by
  have hzero {w : ℝ} (hw : (zero : Expr L).HasValue ρ w) : w = 0 := hw.unique (hasValue_zero hfaithful)
  induction e generalizing v with
  | literal | constant => exact hzero h
  | var w =>
      have hwx : (w == x) = false := hx
      rw [derivative, hwx] at h
      exact hzero h
  | call f a =>
      have hax : a.contains x = false := hx
      rw [derivative, hax] at h
      exact hzero h
  | call₂ f a b =>
      have habx : (a.contains x || b.contains x) = false := hx
      rw [derivative.eq_def] at h
      simp only [habx, Bool.false_eq_true, if_false] at h
      exact hzero h
  | op o a b iha ihb =>
      obtain ⟨hax, hbx⟩ := Bool.or_eq_false_iff.1 hx
      have hda (u : ℝ) (hu : (a.derivative x).HasValue ρ u) : u = 0 := iha hax hu
      have hdb (u : ℝ) (hu : (b.derivative x).HasValue ρ u) : u = 0 := ihb hbx hu
      cases o with
      | add =>
          obtain ⟨u, w, hu, hw, rfl⟩ := HasValue.of_add hfaithful h
          rw [hda u hu, hdb w hw, add_zero]
      | sub =>
          obtain ⟨u, w, hu, hw, rfl⟩ := HasValue.of_sub hfaithful h
          rw [hda u hu, hdb w hw, sub_zero]
      | mul =>
          obtain ⟨u, w, hu, hw, rfl⟩ := HasValue.of_add hfaithful h
          rw [hu.mul_eq_zero hfaithful (.inl hda), hw.mul_eq_zero hfaithful (.inr hdb), add_zero]
      | div =>
          rcases HasValue.of_div hfaithful h (op_ne_literal _ _ _) with ⟨n, d, hn, -, rfl⟩ | ⟨rfl, -⟩
          · obtain ⟨u, w, hu, hw, rfl⟩ := hn.of_sub hfaithful
            rw [hu.mul_eq_zero hfaithful (.inl hda), hw.mul_eq_zero hfaithful (.inr hdb), sub_zero, zero_div]
          · rfl
      | pow =>
          rw [derivative, powDerivative, hax, hbx] at h
          exact hzero h
      | mod =>
          obtain ⟨u, w, hu, hw, rfl⟩ := HasValue.of_sub hfaithful h
          rw [hda u hu, hw.mul_eq_zero hfaithful (.inl hdb), sub_zero]

end Operands

/-- The formulas have the same value wherever both are defined. -/
def Agree (ρ : Valuation L ℝ) (e e' : Expr L) : Prop := ∀ v v', e.HasValue ρ v → e'.HasValue ρ v' → v = v'

section Divisors

omit [Literal L] in
theorem ne_literal_of_contains (h : e.contains x = true) (z : L) : e ≠ literal z := by
  rintro rfl
  cases h

theorem isZero_eq_false (ha : ∀ z, a ≠ literal z) : a.isZero = false := by
  cases a with
  | literal z => exact absurd rfl (ha z)
  | constant | var | call | call₂ | op => rfl

theorem add_ne_literal (a : Expr L) (hb : ∀ z, b ≠ literal z) (z : L) : a + b ≠ literal z := by
  change Expr.add a b ≠ _
  fun_cases Expr.add a b with
  | case1 y w => exact absurd rfl (hb w)
  | case2 _ _ _ hzero =>
      rw [isZero_eq_false hb] at hzero
      cases hzero
  | case3 => exact hb z
  | case4 => exact op_ne_literal _ _ _ z

theorem mul_ne_literal (ha : a.isZero = false) (hb : ∀ z, b ≠ literal z) (z : L) : a * b ≠ literal z := by
  change Expr.mul a b ≠ _
  fun_cases Expr.mul a b with
  | case1 y w => exact absurd rfl (hb w)
  | case2 _ _ _ hzero =>
      rw [isZero_eq_false hb, ha] at hzero
      cases hzero
  | case3 _ _ _ _ hone =>
      cases b with
      | literal w => exact absurd rfl (hb w)
      | constant | var | call | call₂ | op => cases hone
  | case4 => exact hb z
  | case5 => exact op_ne_literal _ _ _ z

theorem isZero_nat [LawfulBEq L] (hfaithful : Literal.Faithful ρ.literal) {n : Nat} (hn : n ≠ 0) :
    (nat n : Expr L).isZero = false := by
  by_contra h
  have hvalue := (hasValue_nat (ρ := ρ) hfaithful n).eq_zero hfaithful (Bool.eq_true_of_not_eq_false h)
  exact hn (Nat.cast_eq_zero.1 hvalue)

end Divisors

namespace Agree

theorem refl (e : Expr L) : Agree ρ e e := fun _ _ h h' => h.unique h'

theorem symm (h : Agree ρ e e') : Agree ρ e' e := fun v v' hv hv' => (h v' v hv' hv).symm

theorem call (ha : Agree ρ a a') (f : Func) : Agree ρ (.call f a) (.call f a') := by
  intro v v' h h'
  obtain ⟨u, hu, rfl⟩ := h.of_call
  obtain ⟨u', hu', rfl⟩ := h'.of_call
  rw [ha u u' hu hu']

theorem call₂ (ha : Agree ρ a a') (hb : Agree ρ b b') (f : BiFunc) : Agree ρ (.call₂ f a b) (.call₂ f a' b') := by
  intro v v' h h'
  obtain ⟨u, w, hu, hw, rfl⟩ := h.of_call₂
  obtain ⟨u', w', hu', hw', rfl⟩ := h'.of_call₂
  rw [ha u u' hu hu', hb w w' hw hw']

theorem op (ha : Agree ρ a a') (hb : Agree ρ b b') (o : Operator) : Agree ρ (.op o a b) (.op o a' b') := by
  intro v v' h h'
  obtain ⟨u, w, hu, hw, rfl⟩ := h.of_op
  obtain ⟨u', w', hu', hw', rfl⟩ := h'.of_op
  rw [ha u u' hu hu', hb w w' hw hw']

theorem square (ha : Agree ρ a a') : Agree ρ a.square a'.square := ha.op (refl _) .pow

variable (hfaithful : Literal.Faithful ρ.literal)
include hfaithful

theorem neg (ha : Agree ρ a a') : Agree ρ (-a) (-a') := by
  intro v v' h h'
  obtain ⟨u, hu, rfl⟩ := h.of_neg hfaithful
  obtain ⟨u', hu', rfl⟩ := h'.of_neg hfaithful
  rw [ha u u' hu hu']

variable [LawfulBEq L]

theorem add (ha : Agree ρ a a') (hb : Agree ρ b b') : Agree ρ (a + b) (a' + b') := by
  intro v v' h h'
  obtain ⟨u, w, hu, hw, rfl⟩ := h.of_add hfaithful
  obtain ⟨u', w', hu', hw', rfl⟩ := h'.of_add hfaithful
  rw [ha u u' hu hu', hb w w' hw hw']

theorem sub (ha : Agree ρ a a') (hb : Agree ρ b b') : Agree ρ (a - b) (a' - b') := by
  intro v v' h h'
  obtain ⟨u, w, hu, hw, rfl⟩ := h.of_sub hfaithful
  obtain ⟨u', w', hu', hw', rfl⟩ := h'.of_sub hfaithful
  rw [ha u u' hu hu', hb w w' hw hw']

theorem mul (ha : Agree ρ a a') (hb : Agree ρ b b') : Agree ρ (a * b) (a' * b') := by
  -- A product with zero is folded, and then only the other side has values for both factors.
  have hzero {c c' d d' : Expr L} (hc : Agree ρ c c') (hd : Agree ρ d d') {w : ℝ} (hw : (c' * d').HasValue ρ w)
      (hcd : c.HasValue ρ 0 ∨ d.HasValue ρ 0) : w = 0 :=
    hw.mul_eq_zero hfaithful (hcd.imp (fun h u hu => (hc 0 u h hu).symm) (fun h u hu => (hd 0 u h hu).symm))
  intro v v' h h'
  rcases h.of_mul hfaithful with ⟨u, w, hu, hw, rfl⟩ | ⟨rfl, hcd⟩
  · rcases h'.of_mul hfaithful with ⟨u', w', hu', hw', rfl⟩ | ⟨rfl, hcd⟩
    · rw [ha u u' hu hu', hb w w' hw hw']
    · exact hzero ha.symm hb.symm h hcd
  · exact (hzero ha hb h' hcd).symm

theorem div (ha : Agree ρ a a') (hb : Agree ρ b b') (hz : ∀ z, b ≠ .literal z) (hz' : ∀ z, b' ≠ .literal z) :
    Agree ρ (a / b) (a' / b') := by
  intro v v' h h'
  rcases h.of_div hfaithful hz with ⟨u, w, hu, hw, rfl⟩ | ⟨rfl, hzero⟩
  · rcases h'.of_div hfaithful hz' with ⟨u', w', hu', hw', rfl⟩ | ⟨rfl, hzero⟩
    · rw [ha u u' hu hu', hb w w' hw hw']
    · rw [ha u 0 hu hzero, zero_div]
  · rcases h'.of_div hfaithful hz' with ⟨u', w', hu', hw', rfl⟩ | ⟨rfl, -⟩
    · rw [← ha 0 u' hzero hu', zero_div]
    · rfl

theorem lowered (ha : Agree ρ a a') : Agree ρ a.lowered a'.lowered := by
  intro v v' h h'
  obtain ⟨u, hu, rfl⟩ := h.of_lowered hfaithful
  obtain ⟨u', hu', rfl⟩ := h'.of_lowered hfaithful
  rw [ha u u' hu hu']

theorem outerDerivative (ha : Agree ρ a a') (hz : ∀ z, a ≠ .literal z) (hz' : ∀ z, a' ≠ .literal z) (f : Func) :
    Agree ρ (Expr.outerDerivative a f) (Expr.outerDerivative a' f) := by
  have hone : Agree ρ (one : Expr L) one := refl _
  have hroot := hone.div hfaithful ((hone.sub hfaithful ha.square).call .sqrt) (call_ne_literal _ _)
    (call_ne_literal _ _)
  cases f with
  | sin => exact ha.call .cos
  | cos => exact (ha.call .sin).neg hfaithful
  | tan => exact hone.div hfaithful (ha.call .cos).square (op_ne_literal _ _ _) (op_ne_literal _ _ _)
  | asin => exact hroot
  | acos => exact hroot.neg hfaithful
  | atan =>
      exact hone.div hfaithful (hone.add hfaithful ha.square) (add_ne_literal _ (op_ne_literal _ _ _))
        (add_ne_literal _ (op_ne_literal _ _ _))
  | sinh => exact ha.call .cosh
  | cosh => exact ha.call .sinh
  | tanh => exact hone.sub hfaithful (ha.call .tanh).square
  | exp => exact ha.call .exp
  | log => exact hone.div hfaithful ha hz hz'
  | log2 =>
      exact hone.div hfaithful (ha.mul hfaithful (refl _)) (mul_ne_literal (isZero_eq_false hz) (call_ne_literal _ _))
        (mul_ne_literal (isZero_eq_false hz') (call_ne_literal _ _))
  | sqrt =>
      have htwo := isZero_nat hfaithful two_ne_zero
      exact hone.div hfaithful ((refl _).mul hfaithful (ha.call .sqrt)) (mul_ne_literal htwo (call_ne_literal _ _))
        (mul_ne_literal htwo (call_ne_literal _ _))
  | abs | floor | ceil | fract | sign | length | normalize => exact refl _

section Derivative

variable (hax : a'.contains x = a.contains x) (ha : Agree ρ a a')
  (hda : Agree ρ (a.derivative x) (a'.derivative x))

include hax ha hda

theorem derivative_call (f : Func) : Agree ρ ((Expr.call f a).derivative x) ((Expr.call f a').derivative x) := by
  rw [derivative, derivative, hax]
  split
  · next h =>
      obtain ⟨hx, -⟩ := Bool.and_eq_true_iff.1 h
      exact (ha.outerDerivative hfaithful (ne_literal_of_contains hx) (ne_literal_of_contains (hax.trans hx)) f).mul
        hfaithful hda
  · exact refl _

variable (hbx : b'.contains x = b.contains x) (hb : Agree ρ b b')
  (hdb : Agree ρ (b.derivative x) (b'.derivative x))

include hbx hb hdb

omit hax in
theorem derivative_mod : Agree ρ ((Expr.op .mod a b).derivative x) ((Expr.op .mod a' b').derivative x) := by
  refine hda.sub hfaithful ?_
  -- A divisor that varies is no literal, and one that does not has the derivative zero.
  cases hx : b.contains x with
  | false =>
      intro v v' h h'
      rw [h.mul_eq_zero hfaithful (.inl fun u hu => hu.derivative_eq_zero hfaithful hx),
        h'.mul_eq_zero hfaithful (.inl fun u hu => hu.derivative_eq_zero hfaithful (hbx.trans hx))]
  | true =>
      exact hdb.mul hfaithful ((ha.div hfaithful hb (ne_literal_of_contains hx)
        (ne_literal_of_contains (hbx.trans hx))).call .floor)

theorem derivative_call₂ (f : BiFunc) :
    Agree ρ ((Expr.call₂ f a b).derivative x) ((Expr.call₂ f a' b').derivative x) := by
  rw [derivative.eq_def, derivative.eq_def x (.call₂ f a' b')]
  simp only [hax, hbx]
  split
  · cases f with
    | atan2 =>
        exact ((hb.mul hfaithful hda).sub hfaithful (ha.mul hfaithful hdb)).div hfaithful
          (hb.square.add hfaithful ha.square) (add_ne_literal _ (op_ne_literal _ _ _))
          (add_ne_literal _ (op_ne_literal _ _ _))
    | dot => exact (hda.mul hfaithful hb).add hfaithful (ha.mul hfaithful hdb)
    | min | max => exact refl _
  · exact refl _

theorem powDerivative : Agree ρ (Expr.powDerivative x a b (a.derivative x) (b.derivative x))
    (Expr.powDerivative x a' b' (a'.derivative x) (b'.derivative x)) := by
  unfold Expr.powDerivative
  rw [hax, hbx]
  split
  · exact refl _
  · exact (hb.mul hfaithful (ha.op (hb.lowered hfaithful) .pow)).mul hfaithful hda
  · exact ((ha.op hb .pow).mul hfaithful (ha.call .log)).mul hfaithful hdb
  · next hx _ =>
      exact (ha.op hb .pow).mul hfaithful ((hdb.mul hfaithful (ha.call .log)).add hfaithful
        ((hb.mul hfaithful hda).div hfaithful ha (ne_literal_of_contains hx) (ne_literal_of_contains (hax.trans hx))))

theorem derivative_op (o : Operator) :
    Agree ρ ((Expr.op o a b).derivative x) ((Expr.op o a' b').derivative x) := by
  cases o with
  | add => exact hda.add hfaithful hdb
  | sub => exact hda.sub hfaithful hdb
  | mul => exact (hda.mul hfaithful hb).add hfaithful (ha.mul hfaithful hdb)
  | div =>
      exact ((hda.mul hfaithful hb).sub hfaithful (ha.mul hfaithful hdb)).div hfaithful hb.square (op_ne_literal _ _ _)
        (op_ne_literal _ _ _)
  | pow => exact powDerivative hfaithful hax ha hda hbx hb hdb
  | mod => exact derivative_mod hfaithful ha hda hbx hb hdb

end Derivative

end Agree

section Replace

variable [LawfulBEq L] {old new : Expr L}

theorem contains_replace (hnew : new.contains x = old.contains x) (e : Expr L) :
    (replace old new e).contains x = e.contains x := by
  fun_induction replace old new e with
  | case1 _ heq | case3 _ heq | case5 _ heq => rw [hnew, eq_of_beq heq]
  | case7 _ _ heq => rw [hnew, eq_of_beq heq]
  | case9 _ _ _ heq | case11 _ _ _ heq => rw [hnew, eq_of_beq heq]
  | case2 | case4 | case6 => rfl
  | case8 f a _ ih => exact ih
  | case10 f a b _ iha ihb => exact congrArg₂ or iha ihb
  | case12 o a b _ iha ihb => exact congrArg₂ or iha ihb

/-- A part is replaced by one with the same value and the same derivative. -/
theorem Agree.replace (hfaithful : Literal.Faithful ρ.literal) (hnew : new.contains x = old.contains x)
    (hvalue : Agree ρ old new) (hderivative : Agree ρ (old.derivative x) (new.derivative x)) (e : Expr L) :
    Agree ρ e (replace old new e) ∧ Agree ρ (e.derivative x) ((Expr.replace old new e).derivative x) := by
  have hcontains := contains_replace hnew
  fun_induction Expr.replace old new e with
  | case1 _ heq | case3 _ heq | case5 _ heq => rw [eq_of_beq heq]; exact ⟨hvalue, hderivative⟩
  | case7 _ _ heq => rw [eq_of_beq heq]; exact ⟨hvalue, hderivative⟩
  | case9 _ _ _ heq | case11 _ _ _ heq => rw [eq_of_beq heq]; exact ⟨hvalue, hderivative⟩
  | case2 | case4 | case6 => exact ⟨.refl _, .refl _⟩
  | case8 f a _ ih => exact ⟨ih.1.call f, ih.1.derivative_call hfaithful (hcontains a) ih.2 f⟩
  | case10 f a b _ iha ihb =>
      exact ⟨iha.1.call₂ ihb.1 f,
        iha.1.derivative_call₂ hfaithful (hcontains a) iha.2 (hcontains b) ihb.1 ihb.2 f⟩
  | case12 o a b _ iha ihb =>
      exact ⟨iha.1.op ihb.1 o, iha.1.derivative_op hfaithful (hcontains a) iha.2 (hcontains b) ihb.1 ihb.2 o⟩

end Replace

end FlowShader.Expr
