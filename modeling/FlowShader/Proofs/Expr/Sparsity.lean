import FlowShader.Proofs.Expr.Names
import FlowShader.Proofs.Scalar.Double

namespace FlowShader

variable {L : Type} [Literal L]

/-- Zeros, of whatever sign, add up to zeros and annihilate finite literals. -/
class Literal.Annihilates (L : Type) [Literal L] : Prop where
  zero_beq : ((0 : L) == 0) = true
  add (x y : L) : (x == 0) = true → (y == 0) = true → (x + y == 0) = true
  sub (x y : L) : (x == 0) = true → (y == 0) = true → (x - y == 0) = true
  mul_left (x y : L) : (x == 0) = true → isFinite y = true → (x * y == 0) = true
  mul_right (x y : L) : isFinite x = true → (y == 0) = true → (x * y == 0) = true

namespace Expr

def FiniteLiterals : Expr L → Prop
  | literal x => Literal.isFinite x = true
  | constant _ | var _ => True
  | call _ a => a.FiniteLiterals
  | call₂ _ a b | op _ a b => a.FiniteLiterals ∧ b.FiniteLiterals

instance decidableFiniteLiterals : (e : Expr L) → Decidable e.FiniteLiterals
  | literal x => inferInstanceAs (Decidable (Literal.isFinite x = true))
  | constant _ | var _ => inferInstanceAs (Decidable True)
  | call _ a => decidableFiniteLiterals a
  | call₂ _ a b | op _ a b =>
    @instDecidableAnd _ _ (decidableFiniteLiterals a) (decidableFiniteLiterals b)

variable {a b e : Expr L}

theorem exists_literal_of_isZero (h : e.isZero = true) : ∃ x : L, e = literal x ∧ (x == 0) = true := by
  cases e with
  | literal x => exact ⟨x, rfl, h⟩
  | constant | var | call | call₂ | op => cases h

theorem FiniteLiterals.isFinite (h : e.FiniteLiterals) : ∀ x, e = literal x → Literal.isFinite x = true := by
  rintro x rfl
  exact h

variable [Literal.Annihilates L]

theorem isZero_zero : (zero : Expr L).isZero = true := Literal.Annihilates.zero_beq

theorem isZero_add (ha : a.isZero = true) (hb : b.isZero = true) : (a + b).isZero = true := by
  obtain ⟨x, rfl, hx⟩ := exists_literal_of_isZero ha
  obtain ⟨y, rfl, hy⟩ := exists_literal_of_isZero hb
  exact Literal.Annihilates.add x y hx hy

theorem isZero_sub (ha : a.isZero = true) (hb : b.isZero = true) : (a - b).isZero = true := by
  obtain ⟨x, rfl, hx⟩ := exists_literal_of_isZero ha
  obtain ⟨y, rfl, hy⟩ := exists_literal_of_isZero hb
  exact Literal.Annihilates.sub x y hx hy

theorem isZero_mul_left (ha : a.isZero = true) (hb : ∀ y, b = literal y → Literal.isFinite y = true) :
    (a * b).isZero = true := by
  change (mul a b).isZero = true
  fun_cases mul a b with
  | case1 x y => exact Literal.Annihilates.mul_left x y ha (hb y rfl)
  | case2 => exact isZero_zero
  | case3 | case4 | case5 => exact absurd (Bool.or_eq_true_iff.2 (.inr ha)) ‹¬(b.isZero || a.isZero) = true›

theorem isZero_mul_right (ha : ∀ x, a = literal x → Literal.isFinite x = true) (hb : b.isZero = true) :
    (a * b).isZero = true := by
  change (mul a b).isZero = true
  fun_cases mul a b with
  | case1 x y => exact Literal.Annihilates.mul_right x y (ha x rfl) hb
  | case2 => exact isZero_zero
  | case3 | case4 | case5 => exact absurd (Bool.or_eq_true_iff.2 (.inl hb)) ‹¬(b.isZero || a.isZero) = true›

theorem isZero_div_square (ha : a.isZero = true) (b : Expr L) : (a / b.square).isZero = true := by
  obtain ⟨x, rfl, hx⟩ := exists_literal_of_isZero ha
  have hdiv : (literal x : Expr L) / b.square = zero := if_pos (Bool.and_eq_true_iff.2 ⟨hx, rfl⟩)
  rw [hdiv]
  exact isZero_zero

/-- Formulas with finite literals have a literal zero for a derivative in a variable they do not contain. Calls and
powers look whether they contain the variable; the other operators leave it to arithmetic. -/
theorem isZero_derivative {x : String} (he : e.FiniteLiterals) (hx : e.contains x = false) :
    (e.derivative x).isZero = true := by
  induction e with
  | literal | constant => exact isZero_zero
  | var v =>
      have hv : (v == x) = false := hx
      rw [derivative, hv]
      exact isZero_zero
  | call f u ih =>
      have hu : u.contains x = false := hx
      rw [derivative, hu]
      exact isZero_zero
  | call₂ f u v ihu ihv =>
      have hor : (u.contains x || v.contains x) = false := hx
      have hzero : (call₂ f u v).derivative x = zero := by
        cases f <;> simp [derivative, hor]
      rw [hzero]
      exact isZero_zero
  | op o u v ihu ihv =>
      obtain ⟨hux, hvx⟩ := Bool.or_eq_false_iff.1 hx
      obtain ⟨hu, hv⟩ := he
      have hdu := ihu hu hux
      have hdv := ihv hv hvx
      have hleft := isZero_mul_left hdu hv.isFinite
      have hright := isZero_mul_right hu.isFinite hdv
      cases o with
      | add => exact isZero_add hdu hdv
      | sub => exact isZero_sub hdu hdv
      | mul => exact isZero_add hleft hright
      | div => exact isZero_div_square (isZero_sub hleft hright) v
      | pow =>
          rw [derivative, powDerivative, hux, hvx]
          exact isZero_zero
      | mod =>
          -- The quotient may have been folded to an infinite literal, but it stands below a call.
          exact isZero_sub hdu (isZero_mul_left hdv fun _ h => by cases h)

end Expr

namespace Double

open Float.Model (UnpackedFloat)

variable {x : Float}

theorem beq_zero_of_pack {u : UnpackedFloat} (hx : x = ⟨.pack u⟩) (hu : ∃ s, u = .zero s) : (x == 0) = true := by
  obtain ⟨s, rfl⟩ := hu
  subst hx
  cases s <;> decide

theorem isFinite_cases (h : x.isFinite = true) :
    (∃ s, x.toModel.unpack = .zero s) ∨ ∃ s m e hm, x.toModel.unpack = .finite s m e hm := by
  change x.toModel.unpack.isFinite = true at h
  cases hx : x.toModel.unpack with
  | infinity | notANumber =>
      rw [hx] at h
      cases h
  | zero s => exact .inl ⟨s, rfl⟩
  | finite s m e hm => exact .inr ⟨s, m, e, hm, rfl⟩

end Double

instance : Literal.Annihilates Float where
  zero_beq := by decide
  add x y hx hy := by
    obtain ⟨s, hs⟩ := Double.exists_unpack_of_beq_zero hx
    obtain ⟨t, ht⟩ := Double.exists_unpack_of_beq_zero hy
    refine Double.beq_zero_of_pack (u := .add .binary64 x.toModel.unpack y.toModel.unpack) rfl ?_
    rw [hs, ht]
    cases s <;> cases t <;> exact ⟨_, rfl⟩
  sub x y hx hy := by
    obtain ⟨s, hs⟩ := Double.exists_unpack_of_beq_zero hx
    obtain ⟨t, ht⟩ := Double.exists_unpack_of_beq_zero hy
    refine Double.beq_zero_of_pack (u := .sub .binary64 x.toModel.unpack y.toModel.unpack) rfl ?_
    rw [hs, ht]
    cases s <;> cases t <;> exact ⟨_, rfl⟩
  mul_left x y hx hy := by
    obtain ⟨s, hs⟩ := Double.exists_unpack_of_beq_zero hx
    refine Double.beq_zero_of_pack (u := .mul .binary64 x.toModel.unpack y.toModel.unpack) rfl ?_
    rcases Double.isFinite_cases hy with ⟨t, ht⟩ | ⟨t, m, e, hm, ht⟩ <;> exact ⟨s * t, by rw [hs, ht]; rfl⟩
  mul_right x y hx hy := by
    obtain ⟨t, ht⟩ := Double.exists_unpack_of_beq_zero hy
    refine Double.beq_zero_of_pack (u := .mul .binary64 x.toModel.unpack y.toModel.unpack) rfl ?_
    rcases Double.isFinite_cases hx with ⟨s, hs⟩ | ⟨s, m, e, hm, hs⟩ <;> exact ⟨s * t, by rw [hs, ht]; rfl⟩

end FlowShader
