import Mathlib.Analysis.SpecialFunctions.Trigonometric.Inverse
import Mathlib.Analysis.SpecialFunctions.Trigonometric.Arctan
import Mathlib.Analysis.SpecialFunctions.Complex.Arg
import Mathlib.Analysis.SpecialFunctions.Log.Base
import Mathlib.Analysis.SpecialFunctions.Pow.Real
import FlowShader.Scalar

namespace FlowShader

noncomputable instance : Scalar ℝ where
  pow := Real.rpow
  pi := Real.pi
  e := Real.exp 1
  sin := Real.sin
  cos := Real.cos
  tan := Real.tan
  asin := Real.arcsin
  acos := Real.arccos
  atan := Real.arctan
  atan2 y x := Complex.arg ⟨x, y⟩
  sinh := Real.sinh
  cosh := Real.cosh
  tanh := Real.tanh
  exp := Real.exp
  log := Real.log
  log2 := Real.logb 2
  sqrt := Real.sqrt
  abs x := |x|
  floor x := ⌊x⌋
  ceil x := ⌈x⌉
  min := Min.min
  max := Max.max
  lt x y := decide (x < y)
  le x y := decide (x ≤ y)

def Func.Defined : Func → ℝ → Prop
  | .sqrt, x => 0 ≤ x
  | .log, x | .log2, x => 0 < x
  | .asin, x | .acos, x => -1 ≤ x ∧ x ≤ 1
  | _, _ => True

def Operator.Defined : Operator → ℝ → ℝ → Prop
  | .div, _, y | .mod, _, y => y ≠ 0
  | .pow, x, y => (x = 0 → 0 ≤ y) ∧ (x < 0 → ∃ n : ℤ, y = n)
  | _, _, _ => True

namespace Literal

variable {L : Type} [Literal L]

/-- Literals stand for real numbers, and computing with them is exact wherever the real operation is
defined and the result is finite. -/
structure Exact (literal : L → ℝ) : Prop where
  zero : literal 0 = 0
  one : literal 1 = 1
  negOne : literal (-1) = -1
  ofNat (n : Nat) : literal (Literal.ofNat n) = n
  finite_zero : isFinite (0 : L) = true
  finite_one : isFinite (1 : L) = true
  finite_negOne : isFinite (-1 : L) = true
  finite_ofNat (n : Nat) : isFinite (Literal.ofNat n : L) = true
  constant (c : Constant) : literal c.value = c.value
  func (f : Func) (x : L) : isFinite x = true → isFinite (f.apply x) = true → f.Defined (literal x) →
    literal (f.apply x) = f.apply (literal x)
  biFunc (f : BiFunc) (x y : L) : isFinite x = true → isFinite y = true → isFinite (f.apply x y) = true →
    literal (f.apply x y) = f.apply (literal x) (literal y)
  operator (o : Operator) (x y : L) : isFinite x = true → isFinite y = true → isFinite (o.apply x y) = true →
    o.Defined (literal x) (literal y) → literal (o.apply x y) = o.apply (literal x) (literal y)
  whole (x : L) : isWhole x = true → ∃ n : ℤ, literal x = n

/-- Literals are real numbers under another name: all are finite, and decimals are read exactly. -/
structure Faithful (literal : L → ℝ) : Prop extends Exact literal where
  finite (x : L) : isFinite x = true
  neg (x : L) : literal (-x) = -literal x
  decimal (d : Decimal) : literal (ofDecimal d) = d.digits * 10 ^ d.exponent

end Literal

namespace Operator

section Power

variable {x a b : ℝ}

theorem pow_intCast (x : ℝ) (n : ℤ) : pow.apply x (n : ℝ) = x ^ n := Real.rpow_intCast x n

theorem pow_defined_of_pos (hx : 0 < x) (a : ℝ) : pow.Defined x a :=
  ⟨fun h => absurd h hx.ne', fun h => absurd h hx.not_gt⟩

theorem pow_defined_natCast (x : ℝ) (n : ℕ) : pow.Defined x n :=
  ⟨fun _ => n.cast_nonneg, fun _ => ⟨n, by simp⟩⟩

theorem pow_add (ha : pow.Defined x a) (hb : pow.Defined x b) :
    pow.Defined x (a + b) ∧ pow.apply x (a + b) = pow.apply x a * pow.apply x b := by
  refine ⟨⟨fun hx => add_nonneg (ha.1 hx) (hb.1 hx), fun hx => ?_⟩, ?_⟩
  · obtain ⟨m, rfl⟩ := ha.2 hx
    obtain ⟨n, rfl⟩ := hb.2 hx
    exact ⟨m + n, by push_cast; rfl⟩
  · rcases lt_trichotomy x 0 with hx | rfl | hx
    · obtain ⟨m, rfl⟩ := ha.2 hx
      obtain ⟨n, rfl⟩ := hb.2 hx
      rw [← Int.cast_add, pow_intCast, pow_intCast, pow_intCast, zpow_add₀ hx.ne]
    · exact Real.rpow_add_of_nonneg le_rfl (ha.1 rfl) (hb.1 rfl)
    · exact Real.rpow_add hx a b

theorem pow_sub_one (hx : x ≠ 0) (ha : pow.Defined x a) :
    pow.Defined x (a - 1) ∧ pow.apply x (a - 1) = pow.apply x a / x := by
  refine ⟨⟨fun h => absurd h hx, fun h => ?_⟩, Real.rpow_sub_one hx a⟩
  obtain ⟨n, rfl⟩ := ha.2 h
  exact ⟨n - 1, by push_cast; rfl⟩

theorem pow_mul {m n : ℤ} (hm : pow.Defined x m) (hn : pow.Defined (pow.apply x m) n) :
    pow.Defined x (m * n) ∧ pow.apply x (m * n) = pow.apply (pow.apply x m) n := by
  refine ⟨⟨?_, fun _ => ⟨m * n, by push_cast; rfl⟩⟩, ?_⟩
  · rintro rfl
    have hm0 : (0 : ℝ) ≤ m := hm.1 rfl
    rcases hm0.eq_or_lt with h | h
    · rw [← h, zero_mul]
    · have hzero : pow.apply (0 : ℝ) m = 0 := Real.zero_rpow h.ne'
      exact mul_nonneg hm0 (hn.1 hzero)
  · rw [← Int.cast_mul, pow_intCast, pow_intCast, pow_intCast, zpow_mul]

end Power

end Operator

/-- Sums, differences and products are those of a commutative ring. -/
class RingScalar (K : Type) extends CommRing K, Scalar K

class FieldScalar (K : Type) extends Field K, Scalar K

instance {K : Type} [FieldScalar K] : RingScalar K where

class OrderedScalar (K : Type) [FieldScalar K] [LinearOrder K] : Prop where
  abs_eq (x : K) : Scalar.abs x = |x|
  lt_iff (x y : K) : Scalar.lt x y = true ↔ x < y

noncomputable instance : FieldScalar ℝ where

instance : OrderedScalar ℝ where
  abs_eq _ := rfl
  lt_iff _ _ := decide_eq_true_iff

end FlowShader
