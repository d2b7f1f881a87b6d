import Mathlib.Tactic.NormNum
import FlowShader.Proofs.Scalar.Real

namespace FlowShader

/-- Numbers with exact arithmetic. A result that is not a whole number is missing, and so is one that is not finite. -/
inductive Whole where
  | int (n : Int)
  | named (c : Constant)
  | missing
deriving DecidableEq

namespace Whole

def isInt : Whole → Bool
  | int _ => true
  | _ => false

def map (f : Int → Whole) : Whole → Whole
  | int a => f a
  | _ => missing

def lift (f : Int → Int → Whole) : Whole → Whole → Whole
  | int a, int b => f a b
  | _, _ => missing

def compare (f : Int → Int → Bool) : Whole → Whole → Bool
  | int a, int b => f a b
  | _, _ => false

def quotient (a b : Int) : Whole := if b ≠ 0 ∧ b ∣ a then int (a / b) else missing

def power (a b : Int) : Whole := if 0 ≤ b then int (a ^ b.toNat) else quotient 1 (a ^ (-b).toNat)

def root (a : Int) : Whole := if a.sqrt * a.sqrt = a then int a.sqrt else missing

def binaryLog (a : Int) : Whole := if 2 ^ a.toNat.log2 = a then int a.toNat.log2 else missing

/-- A function whose only whole value at a whole number is `b`, at `a`. -/
def only (a b n : Int) : Whole := if n = a then int b else missing

def angle (a b : Int) : Whole := if 0 ≤ b then only 0 0 a else missing

instance : Scalar Whole where
  add := lift fun a b => int (a + b)
  sub := lift fun a b => int (a - b)
  mul := lift fun a b => int (a * b)
  div := lift quotient
  neg := lift (fun a b => int (a - b)) (int 0)
  zero := int 0
  one := int 1
  pow := lift power
  pi := named .pi
  e := named .e
  sin := map (only 0 0)
  cos := map (only 0 1)
  tan := map (only 0 0)
  asin := map (only 0 0)
  acos := map (only 1 0)
  atan := map (only 0 0)
  atan2 := lift angle
  sinh := map (only 0 0)
  cosh := map (only 0 1)
  tanh := map (only 0 0)
  exp := map (only 0 1)
  log := map (only 1 0)
  log2 := map binaryLog
  sqrt := map root
  abs := map fun a => int a.natAbs
  floor := map int
  ceil := map int
  min := lift fun a b => int (min a b)
  max := lift fun a b => int (max a b)
  lt := compare fun a b => a < b
  le := compare fun a b => a ≤ b

instance : Literal Whole where
  beq x y := decide (x = y)
  hash _ := 0
  ofDecimal d := if d.exponent = 0 then int d.digits else missing
  isFinite := isInt
  isNaN x := decide (x = missing)
  isWhole := isInt
  text
    | int n => toString n
    | named .pi => "pi"
    | named .e => "e"
    | missing => "nan"

instance : LawfulBEq Whole where
  rfl := decide_eq_true rfl
  eq_of_beq := of_decide_eq_true

noncomputable def toReal : Whole → ℝ
  | int n => n
  | named c => c.value
  | missing => 0

theorem exists_of_isFinite {x : Whole} (h : Literal.isFinite x = true) : ∃ n, x = int n := by
  cases x with
  | int n => exact ⟨n, rfl⟩
  | named | missing => cases h

theorem toReal_sign (n : Int) : (Scalar.sign (int n)).toReal = Scalar.sign (n : ℝ) := by
  change (if decide (0 < n) then int 1 else if decide (n < 0) then int (0 - 1) else int 0).toReal =
    if decide ((0 : ℝ) < n) then 1 else if decide ((n : ℝ) < 0) then -1 else 0
  simp only [decide_eq_true_eq, Int.cast_pos, Int.cast_lt_zero]
  split
  · simp [toReal]
  · split <;> simp [toReal]

theorem exists_quotient {m n : Int} (h : Literal.isFinite (quotient m n) = true) :
    ∃ q : Int, quotient m n = int q ∧ (q : ℝ) = m / n := by
  unfold quotient at h ⊢
  split at h
  · next hdvd => exact ⟨m / n, if_pos hdvd, Int.cast_div hdvd.2 (Int.cast_ne_zero.2 hdvd.1)⟩
  · cases h

theorem exists_power {m n : Int} (h : Literal.isFinite (power m n) = true) :
    ∃ q : Int, power m n = int q ∧ (q : ℝ) = Real.rpow m n := by
  have hrpow : Real.rpow m n = (m : ℝ) ^ n := Real.rpow_intCast m n
  rw [hrpow]
  unfold power at h ⊢
  by_cases hn : 0 ≤ n
  · obtain ⟨k, rfl⟩ := Int.eq_ofNat_of_zero_le hn
    refine ⟨m ^ k, if_pos hn, ?_⟩
    rw [Int.cast_pow, zpow_natCast]
  · obtain ⟨k, rfl⟩ : ∃ k : Nat, n = -k := ⟨(-n).toNat, by omega⟩
    rw [if_neg hn, Int.neg_neg, Int.toNat_natCast] at h ⊢
    obtain ⟨q, hq, hvalue⟩ := exists_quotient h
    refine ⟨q, hq, ?_⟩
    rw [hvalue, Int.cast_one, Int.cast_pow, one_div, zpow_neg, zpow_natCast]

theorem toReal_root {m : Int} (h : Literal.isFinite (root m) = true) : toReal (root m) = √(m : ℝ) := by
  unfold root at h ⊢
  split at h
  · next hsquare =>
    have hvalue : √(m : ℝ) = m.sqrt := by
      nth_rewrite 1 [← hsquare]
      rw [Int.cast_mul, Real.sqrt_mul_self (Int.cast_nonneg (Int.sqrt_nonneg m))]
    rw [if_pos hsquare, hvalue, toReal]
  · cases h

theorem toReal_binaryLog {m : Int} (h : Literal.isFinite (binaryLog m) = true) :
    toReal (binaryLog m) = Real.logb 2 m := by
  unfold binaryLog at h ⊢
  split at h
  · next hpower =>
    have hvalue : Real.logb 2 m = m.toNat.log2 := by
      nth_rewrite 1 [← hpower]
      rw [Int.cast_pow, Int.cast_ofNat, Real.logb_pow, Real.logb_self_eq_one one_lt_two, mul_one]
    rw [if_pos hpower, hvalue, toReal, Int.cast_natCast]
  · cases h

theorem toReal_only {a b n : Int} {f : ℝ → ℝ} (hf : f a = b) (h : Literal.isFinite (only a b n) = true) :
    toReal (only a b n) = f n := by
  unfold only at h ⊢
  split at h
  · next heq => rw [if_pos heq, heq, hf, toReal]
  · cases h

theorem toReal_angle {m n : Int} (h : Literal.isFinite (angle m n) = true) :
    toReal (angle m n) = Complex.arg ⟨n, m⟩ := by
  unfold angle at h ⊢
  split at h
  · next hn =>
    have hzero : Complex.arg ⟨n, (0 : Int)⟩ = (0 : Int) := by
      rw [Int.cast_zero]
      exact Complex.arg_ofReal_of_nonneg (Int.cast_nonneg hn)
    rw [if_pos hn]
    exact toReal_only (f := fun y => Complex.arg ⟨n, y⟩) hzero h
  · cases h

theorem isFinite_of_map {f : Int → Whole} {x : Whole} (h : Literal.isFinite (map f x) = true) :
    Literal.isFinite x = true := by
  cases x with
  | int n => rfl
  | named | missing => cases h

theorem isFinite_of_lift {f : Int → Int → Whole} {x y : Whole} (h : Literal.isFinite (lift f x y) = true) :
    Literal.isFinite x = true ∧ Literal.isFinite y = true := by
  cases x with
  | int m =>
      cases y with
      | int n => exact ⟨rfl, rfl⟩
      | named | missing => cases h
  | named | missing => cases h

theorem exact_toReal : Literal.Exact toReal where
  zero := Int.cast_zero
  one := Int.cast_one
  negOne := by
    change ((0 - 1 : Int) : ℝ) = -1
    norm_num
  ofNat n := Int.cast_natCast n
  finite_zero := rfl
  finite_one := rfl
  finite_negOne := rfl
  finite_ofNat _ := rfl
  constant c := by cases c <;> rfl
  func f x hx hf _ := by
    obtain ⟨n, rfl⟩ := exists_of_isFinite hx
    cases f with
    | sign | normalize => exact toReal_sign n
    | abs | length =>
        change (((n.natAbs : Int)) : ℝ) = |(n : ℝ)|
        rw [Int.natCast_natAbs, Int.cast_abs]
    | floor =>
        change (n : ℝ) = ⌊(n : ℝ)⌋
        rw [Int.floor_intCast]
    | ceil =>
        change (n : ℝ) = ⌈(n : ℝ)⌉
        rw [Int.ceil_intCast]
    | fract =>
        change ((n - n : Int) : ℝ) = n - ⌊(n : ℝ)⌋
        rw [Int.floor_intCast, Int.cast_sub]
    | sin => exact toReal_only (f := Real.sin) (by simp) hf
    | cos => exact toReal_only (f := Real.cos) (by simp) hf
    | tan => exact toReal_only (f := Real.tan) (by simp) hf
    | asin => exact toReal_only (f := Real.arcsin) (by simp) hf
    | acos => exact toReal_only (f := Real.arccos) (by simp) hf
    | atan => exact toReal_only (f := Real.arctan) (by simp) hf
    | sinh => exact toReal_only (f := Real.sinh) (by simp) hf
    | cosh => exact toReal_only (f := Real.cosh) (by simp) hf
    | tanh => exact toReal_only (f := Real.tanh) (by simp) hf
    | exp => exact toReal_only (f := Real.exp) (by simp) hf
    | log => exact toReal_only (f := Real.log) (by simp) hf
    | log2 => exact toReal_binaryLog hf
    | sqrt => exact toReal_root hf
  biFunc f x y hx hy hf := by
    obtain ⟨m, rfl⟩ := exists_of_isFinite hx
    obtain ⟨n, rfl⟩ := exists_of_isFinite hy
    cases f with
    | dot => exact Int.cast_mul m n
    | min => exact Int.cast_min
    | max => exact Int.cast_max
    | atan2 => exact toReal_angle hf
  operator o x y hx hy ho _ := by
    obtain ⟨m, rfl⟩ := exists_of_isFinite hx
    obtain ⟨n, rfl⟩ := exists_of_isFinite hy
    cases o with
    | add => exact Int.cast_add m n
    | sub => exact Int.cast_sub m n
    | mul => exact Int.cast_mul m n
    | pow =>
        obtain ⟨q, hq, hvalue⟩ := exists_power ho
        exact (congrArg toReal hq).trans hvalue
    | div =>
        obtain ⟨q, hq, hvalue⟩ := exists_quotient ho
        exact (congrArg toReal hq).trans hvalue
    | mod =>
        -- The remainder is computed with the floor of a quotient, which is whole if it is there.
        have hfinite : Literal.isFinite (quotient m n) = true := isFinite_of_map (isFinite_of_lift (isFinite_of_lift ho).2).2
        obtain ⟨q, hq, hvalue⟩ := exists_quotient hfinite
        change toReal (lift (fun a b => int (a - b)) (int m)
          (lift (fun a b => int (a * b)) (int n) (map int (quotient m n)))) = m - n * ⌊(m / n : ℝ)⌋
        rw [hq, ← hvalue, Int.floor_intCast]
        change ((m - n * q : Int) : ℝ) = m - n * q
        rw [Int.cast_sub, Int.cast_mul]
  whole x hx := by
    obtain ⟨n, rfl⟩ := exists_of_isFinite hx
    exact ⟨n, rfl⟩

end Whole

end FlowShader
