import Mathlib.Tactic.FieldSimp
import Mathlib.Tactic.LinearCombination
import FlowShader.Proofs.Scalar.Double

namespace FlowShader.Binary

open Float.Model (UnpackedFloat Format)
open Float.Model.UnpackedFloat (Accuracy ExtendedMantissa accuracyOfFraction divCore roundWithAccuracy
  shiftToTargetExponent)

/-- How far a number lies above a mantissa, in units of the mantissa's last place. -/
def Residue : Bool → Bool → ℚ → Prop
  | false, false, r => r = 0
  | false, true, r => 0 < r ∧ 2 * r < 1
  | true, false, r => 2 * r = 1
  | true, true, r => 1 < 2 * r ∧ r < 1

/-- The mantissa is the number cut off at the unit `2 ^ e`, and the residual bits tell the rest. -/
def Approximates (em : ExtendedMantissa) (e : Int) (v : ℚ) : Prop :=
  ∃ r, Residue em.roundBit em.stickyBit r ∧ v = (em.mantissa + r) * 2 ^ e

theorem Residue.nonneg {b c : Bool} {r : ℚ} (h : Residue b c r) : 0 ≤ r := by
  cases b <;> cases c <;> simp only [Residue] at h <;> linarith

theorem Residue.lt_one {b c : Bool} {r : ℚ} (h : Residue b c r) : r < 1 := by
  cases b <;> cases c <;> simp only [Residue] at h <;> linarith

section Shift

variable {em : ExtendedMantissa} {e : Int} {v : ℚ}

theorem Residue.shift {b c : Bool} {r r' : ℚ} (h : Residue b c r) {m : Nat} (hr : 2 * r' = (m % 2 : Nat) + r) :
    Residue (m % 2 != 0) (b || c) r' := by
  rcases Nat.mod_two_eq_zero_or_one m with hm | hm <;> cases b <;> cases c <;>
    simp only [Residue, hm] at h hr ⊢ <;> grind

theorem Approximates.shiftRightOne (h : Approximates em e v) : Approximates em.shiftRightOne (e + 1) v := by
  obtain ⟨r, hr, rfl⟩ := h
  refine ⟨((em.mantissa % 2 : Nat) + r) / 2, hr.shift (by ring), ?_⟩
  have hm : (em.mantissa : ℚ) = 2 * (em.mantissa / 2 : Nat) + (em.mantissa % 2 : Nat) := by
    exact_mod_cast (Nat.div_add_mod em.mantissa 2).symm
  rw [zpow_add_one₀ (by norm_num)]
  conv_lhs => rw [hm]
  change _ = (((em.mantissa / 2 : Nat) : ℚ) + _) * _
  ring

theorem Approximates.shiftRight (h : Approximates em e v) (k : Nat) : Approximates (em >>> k) (e + k) v := by
  induction k with
  | zero =>
      rw [Nat.cast_zero, add_zero]
      exact h
  | succ k ih =>
      have hstep := ih.shiftRightOne
      rw [add_assoc] at hstep
      exact_mod_cast hstep

theorem mantissa_shiftRight (em : ExtendedMantissa) (k : Nat) : (em >>> k).mantissa = em.mantissa / 2 ^ k := by
  induction k with
  | zero => exact (Nat.div_one _).symm
  | succ k ih =>
      change (em >>> k).mantissa / 2 = _
      rw [ih, Nat.div_div_eq_div_mul, Nat.pow_succ]

end Shift

section Rounding

variable {em : ExtendedMantissa} {e : Int} {v : ℚ}

/-- Rounding gives the nearest whole number, and the even one of two that are equally near. -/
theorem Residue.near {r : ℚ} (h : Residue em.roundBit em.stickyBit r) :
    (2 * (em.roundedMantissa : ℚ) - 1 < 2 * (em.mantissa + r) ∨
      em.roundedMantissa % 2 = 0 ∧ 2 * (em.roundedMantissa : ℚ) - 1 = 2 * (em.mantissa + r)) ∧
    (2 * (em.mantissa + r) < 2 * (em.roundedMantissa : ℚ) + 1 ∨
      em.roundedMantissa % 2 = 0 ∧ 2 * (em.mantissa + r) = 2 * (em.roundedMantissa : ℚ) + 1) := by
  obtain ⟨m, b, c⟩ := em
  have hparity : ((m + m % 2 : Nat) : ℚ) = m ∨ ((m + m % 2 : Nat) : ℚ) = m + 1 := by
    rcases Nat.mod_two_eq_zero_or_one m with hm | hm <;> simp [hm]
  have heven : (m + m % 2) % 2 = 0 := by omega
  cases b <;> cases c <;> simp only [Residue] at h <;>
    simp only [ExtendedMantissa.roundedMantissa, ExtendedMantissa.accuracy, Accuracy.roundToNearestEven] <;>
    grind

def unpacked (b : Binary) : UnpackedFloat :=
  if h : b.m = 0 then .zero .positive else .finite .positive b.m b.q (Nat.pos_of_ne_zero h)

theorem unpacked_of_eq_zero {b : Binary} (h : b.m = 0) : b.unpacked = .zero .positive := dif_pos h

theorem unpacked_of_ne_zero {b : Binary} (h : b.m ≠ 0) :
    b.unpacked = .finite .positive b.m b.q (Nat.pos_of_ne_zero h) := dif_neg h

theorem value_of_eq_zero {b : Binary} (h : b.m = 0) : b.value = 0 := by
  rw [value, h, Nat.cast_zero, zero_mul]

/-- The double nearest to a number, with an exponent that may still be too large. -/
def Rounds (v : ℚ) (u : UnpackedFloat) : Prop := ∃ b : Binary, b.Normal ∧ b.Near v ∧ u = unpacked b

/-- The first shift leaves 53 bits, or as many as the smallest exponent allows. -/
theorem shiftToTargetExponent_eq {m : Nat} (acc : Accuracy) (hbits : 52 ≤ m.log2 ∨ e ≤ -1074) :
    ∃ k : Nat, shiftToTargetExponent .binary64 m e acc = (ExtendedMantissa.ofMantissaAndAccuracy m acc >>> k, e + k) ∧
      -1074 ≤ e + k ∧ m / 2 ^ k < 2 ^ 53 ∧ (-1074 < e + k → 2 ^ 52 ≤ m / 2 ^ k) := by
  let k := (max ((m.log2 : Int) + 1 + e - 53) (-1074) - e).toNat
  have hk : e + k = max ((m.log2 : Int) + e - 52) (-1074) := by omega
  refine ⟨k, rfl, by omega, ?_, fun hlt => ?_⟩
  · rw [Nat.div_lt_iff_lt_mul (by positivity), ← Nat.pow_add]
    exact Nat.lt_of_lt_of_le Nat.lt_log2_self (Nat.pow_le_pow_right (by decide) (by omega))
  · have hm : m ≠ 0 := by
      rintro rfl
      rw [Nat.log2_zero] at hk
      omega
    rw [Nat.le_div_iff_mul_le (by positivity), ← Nat.pow_add]
    exact le_trans (Nat.pow_le_pow_right (by decide) (by omega)) (Nat.log2_self_le hm)

theorem shiftToTargetExponent_exact {m : Nat} (hm : m ≤ 2 ^ 53) (he : -1074 ≤ e) :
    shiftToTargetExponent .binary64 m e .exact =
      if m = 2 ^ 53 then (⟨2 ^ 52, false, false⟩, e + 1) else (⟨m, false, false⟩, e) := by
  have hshift (k : Nat) (hk : (max ((m.log2 : Int) + 1 + e - 53) (-1074) - e).toNat = k) :
      shiftToTargetExponent .binary64 m e .exact = ((⟨m, false, false⟩ : ExtendedMantissa) >>> k, e + k) := by
    rw [← hk]
    rfl
  by_cases hcarry : m = 2 ^ 53
  · have hlog : m.log2 = 53 := by rw [hcarry, Nat.log2_two_pow]
    rw [if_pos hcarry, hshift 1 (by omega), hcarry]
    rfl
  · have hlog : m.log2 < 53 := by
      by_cases hzero : m = 0
      · rw [hzero, Nat.log2_zero]
        decide
      · exact (Nat.log2_lt hzero).2 (by omega)
    rw [if_neg hcarry, hshift 0 (by omega), Nat.cast_zero, add_zero]
    rfl

theorem roundedMantissa_mem (em : ExtendedMantissa) :
    em.mantissa ≤ em.roundedMantissa ∧ em.roundedMantissa ≤ em.mantissa + 1 := by
  obtain ⟨m, b, c⟩ := em
  cases b <;> cases c <;>
    simp only [ExtendedMantissa.roundedMantissa, ExtendedMantissa.accuracy, Accuracy.roundToNearestEven] <;> omega

theorem Approximates.near_same (h : Approximates em e v) (hfull : -1074 < e → 2 ^ 52 ≤ em.mantissa) :
    (⟨em.roundedMantissa, e, em.roundedMantissa == 2 ^ 52 && decide (-1074 < e)⟩ : Binary).Near v := by
  obtain ⟨r, hr, rfl⟩ := h
  have hunit : (2 : ℚ) ^ e = 4 * 2 ^ (e - 2) := by
    rw [zpow_sub₀ (by norm_num)]
    ring
  have hpos : (0 : ℚ) < 2 ^ (e - 2) := by positivity
  have hnonneg := hr.nonneg
  obtain ⟨hlower, hupper⟩ := hr.near
  simp only [Binary.Near, Binary.lower, Binary.upper, Binary.quarter, hunit]
  constructor
  · split
    · next hnarrow =>
      -- A power of two is closer to its lower neighbour, but nothing was rounded up to it.
      simp only [Bool.and_eq_true, beq_iff_eq, decide_eq_true_eq] at hnarrow
      have hm : (em.roundedMantissa : ℚ) ≤ em.mantissa := by
        exact_mod_cast hnarrow.1 ▸ hfull hnarrow.2
      left
      nlinarith
    · rcases hlower with hlower | ⟨heven, hlower⟩
      · left
        nlinarith
      · refine .inr ⟨heven, ?_⟩
        linear_combination (2 * 2 ^ (e - 2) : ℚ) * hlower
  · rcases hupper with hupper | ⟨heven, hupper⟩
    · left
      nlinarith
    · refine .inr ⟨heven, ?_⟩
      linear_combination (2 * 2 ^ (e - 2) : ℚ) * hupper

theorem Approximates.near_carry (h : Approximates em e v) (hlt : em.mantissa < 2 ^ 53)
    (hcarry : em.roundedMantissa = 2 ^ 53) : (⟨2 ^ 52, e + 1, true⟩ : Binary).Near v := by
  obtain ⟨r, hr, rfl⟩ := h
  have hunit : (2 : ℚ) ^ e = 4 * 2 ^ (e - 2) := by
    rw [zpow_sub₀ (by norm_num)]
    ring
  have hdouble : (2 : ℚ) ^ (e + 1 - 2) = 2 * 2 ^ (e - 2) := by
    rw [show e + 1 - 2 = e - 2 + 1 by ring, zpow_add_one₀ (by norm_num)]
    ring
  have hpos : (0 : ℚ) < 2 ^ (e - 2) := by positivity
  have hr1 := hr.lt_one
  have hm : (em.mantissa : ℚ) + 1 ≤ 2 ^ 53 := by exact_mod_cast hlt
  have hrounded : (em.roundedMantissa : ℚ) = 2 ^ 53 := by exact_mod_cast hcarry
  simp only [Binary.Near, Binary.lower, Binary.upper, Binary.quarter, hunit, hdouble, if_true]
  push_cast
  constructor
  · rcases hr.near.1 with hlower | ⟨-, hlower⟩
    · rw [hrounded] at hlower
      left
      nlinarith
    · rw [hrounded] at hlower
      refine .inr ⟨trivial, ?_⟩
      linear_combination (2 * 2 ^ (e - 2) : ℚ) * hlower
  · left
    nlinarith

/-- Rounding takes a number to the nearest double. -/
theorem Approximates.rounds {m : Nat} {acc : Accuracy} (h : Approximates (.ofMantissaAndAccuracy m acc) e v)
    (hbits : 52 ≤ m.log2 ∨ e ≤ -1074) : Rounds v (roundWithAccuracy .binary64 .positive m e acc) := by
  obtain ⟨k, hshift, hleast, hlt, hfull⟩ := shiftToTargetExponent_eq acc hbits
  have hcut := h.shiftRight k
  have hmantissa : ((.ofMantissaAndAccuracy m acc : ExtendedMantissa) >>> k).mantissa = m / 2 ^ k := by
    rw [mantissa_shiftRight]
    rcases acc with _ | _ | _ | _ <;> rfl
  generalize (ExtendedMantissa.ofMantissaAndAccuracy m acc >>> k) = em at *
  generalize e + k = e' at *
  rw [← hmantissa] at hlt hfull
  have hle : em.roundedMantissa ≤ 2 ^ 53 := le_trans (roundedMantissa_mem em).2 hlt
  unfold roundWithAccuracy
  rw [hshift]
  dsimp only
  rw [shiftToTargetExponent_exact hle hleast]
  by_cases hcarry : em.roundedMantissa = 2 ^ 53
  · refine ⟨⟨2 ^ 52, e' + 1, true⟩, ⟨Nat.pow_lt_pow_right (by decide) (by decide), by simp only; omega, fun _ => le_refl _, ?_⟩,
      hcut.near_carry hlt hcarry, ?_⟩
    · simp only [true_and, true_iff]
      omega
    · rw [if_pos hcarry]
      rfl
  · refine ⟨⟨em.roundedMantissa, e', em.roundedMantissa == 2 ^ 52 && decide (-1074 < e')⟩,
      ⟨by simp only; omega, hleast, fun hq => ?_, by simp⟩, hcut.near_same hfull, ?_⟩
    · exact le_trans (hfull hq) (roundedMantissa_mem em).1
    · rw [if_neg hcarry]
      rfl

end Rounding

section Operations

theorem rounds_zero : Rounds 0 (.zero .positive) := by
  refine ⟨⟨0, -1074, false⟩, ⟨by decide, le_refl _, by simp, by simp⟩, ?_, rfl⟩
  have hvalue : (⟨0, -1074, false⟩ : Binary).value = 0 := by simp [value]
  exact hvalue ▸ near_value

theorem Rounds.eq_of_value {b : Binary} {u : UnpackedFloat} (h : Rounds b.value u) (hb : b.Normal) :
    u = b.unpacked := by
  obtain ⟨c, hc, hnear, rfl⟩ := h
  rw [hnear.unique hc hb near_value]

theorem approximates_exact (m : Nat) (e : Int) : Approximates (.ofMantissaAndAccuracy m .exact) e (m * 2 ^ e) :=
  ⟨0, rfl, by rw [add_zero]; rfl⟩

theorem rounds_mul {b c : Binary} (hc : c.m ≠ 0) (hbits : b.m ≠ 0 → 2 ^ 52 ≤ b.m * c.m) :
    Rounds (b.value * c.value) (.mul .binary64 b.unpacked c.unpacked) := by
  by_cases hb : b.m = 0
  · rw [unpacked_of_eq_zero hb, unpacked_of_ne_zero hc, value_of_eq_zero hb, zero_mul]
    exact rounds_zero
  · have hlog : 52 ≤ (b.m * c.m).log2 := (Nat.le_log2 (Nat.mul_ne_zero hb hc)).2 (hbits hb)
    have hvalue : b.value * c.value = ((b.m * c.m : Nat) : ℚ) * 2 ^ (b.q + c.q) := by
      rw [value, value, zpow_add₀ (by norm_num)]
      push_cast
      ring
    rw [unpacked_of_ne_zero hb, unpacked_of_ne_zero hc, hvalue]
    exact (approximates_exact _ _).rounds (.inl hlog)

theorem approximates_fraction {m d : Nat} (hd : d ≠ 0) (e : Int) :
    Approximates (.ofMantissaAndAccuracy (m / d) (accuracyOfFraction (m % d) d)) e (m / d * 2 ^ e) := by
  have hpos : (0 : ℚ) < d := by exact_mod_cast Nat.pos_of_ne_zero hd
  have hlt : ((m % d : Nat) : ℚ) < d := by exact_mod_cast Nat.mod_lt m (Nat.pos_of_ne_zero hd)
  have hm : (m : ℚ) = d * (m / d : Nat) + (m % d : Nat) := by exact_mod_cast (Nat.div_add_mod m d).symm
  have hquotient : (m : ℚ) / d = (m / d : Nat) + (m % d : Nat) / d := by
    conv_lhs => rw [hm]
    field_simp
  rw [hquotient]
  by_cases hzero : m % d = 0
  · simp only [accuracyOfFraction, hzero, if_true]
    exact ⟨_, (by simp : ((0 : Nat) : ℚ) / d = 0), rfl⟩
  · have hmod : (0 : ℚ) < (m % d : Nat) := by exact_mod_cast Nat.pos_of_ne_zero hzero
    have hone : ((m % d : Nat) : ℚ) / d < 1 := (div_lt_one hpos).2 hlt
    have htwice : 2 * (((m % d : Nat) : ℚ) / d) = ((2 * (m % d) : Nat) : ℚ) / d := by
      push_cast
      ring
    have hcast (i j : Nat) : i < j → (i : ℚ) < j := fun h => by exact_mod_cast h
    simp only [accuracyOfFraction, hzero, if_false]
    rcases hcompare : compare (2 * (m % d)) d with _ | _ | _
    · refine ⟨_, ⟨by positivity, ?_⟩, rfl⟩
      rw [htwice, div_lt_one hpos]
      exact hcast _ _ (compare_lt_iff_lt.1 hcompare)
    · refine ⟨_, ?_, rfl⟩
      change 2 * (((m % d : Nat) : ℚ) / d) = 1
      rw [htwice, compare_eq_iff_eq.1 hcompare, div_self hpos.ne']
    · refine ⟨_, ⟨?_, hone⟩, rfl⟩
      rw [htwice, one_lt_div hpos]
      exact hcast _ _ (compare_gt_iff_gt.1 hcompare)

theorem le_log2_div {m d k : Nat} (hm : m ≠ 0) (hd : d ≠ 0) (hk : d.log2 + 53 ≤ m.log2 + k) :
    52 ≤ ((m <<< k) / d).log2 := by
  have hle : 2 ^ 52 ≤ (m <<< k) / d := by
    rw [Nat.le_div_iff_mul_le (Nat.pos_of_ne_zero hd), Nat.shiftLeft_eq]
    calc 2 ^ 52 * d ≤ 2 ^ 52 * 2 ^ (d.log2 + 1) := Nat.mul_le_mul_left _ Nat.lt_log2_self.le
      _ = 2 ^ (d.log2 + 53) := by rw [← Nat.pow_add]; congr 1; omega
      _ ≤ 2 ^ (m.log2 + k) := Nat.pow_le_pow_right (by decide) hk
      _ = 2 ^ m.log2 * 2 ^ k := Nat.pow_add ..
      _ ≤ m * 2 ^ k := Nat.mul_le_mul_right _ (Nat.log2_self_le hm)
  exact (Nat.le_log2 (Nat.ne_of_gt (Nat.lt_of_lt_of_le (by positivity) hle))).2 hle

theorem rounds_div {b c : Binary} (hc : c.m ≠ 0) :
    Rounds (b.value / c.value) (.div .binary64 b.unpacked c.unpacked) := by
  by_cases hb : b.m = 0
  · rw [unpacked_of_eq_zero hb, unpacked_of_ne_zero hc, value_of_eq_zero hb, zero_div]
    exact rounds_zero
  · rw [unpacked_of_ne_zero hb, unpacked_of_ne_zero hc]
    let t : Int := min (b.q - c.q) (max ((b.m.log2 + 1 + b.q) - (c.m.log2 + 1 + c.q) - 53) (-1074))
    let k := (b.q - c.q - t).toNat
    have hk : (k : Int) = b.q - c.q - t := by omega
    have hvalue : b.value / c.value = ((b.m <<< k : Nat) : ℚ) / c.m * 2 ^ t := by
      have hcm : (c.m : ℚ) ≠ 0 := by exact_mod_cast hc
      rw [value, value, Nat.shiftLeft_eq, show t = b.q - c.q - k by omega]
      push_cast
      rw [zpow_sub₀ (by norm_num), zpow_sub₀ (by norm_num), zpow_natCast]
      field_simp
    rw [hvalue]
    refine (approximates_fraction hc t).rounds ?_
    by_cases ht : t ≤ -1074
    · exact .inr ht
    · exact .inl (le_log2_div hb hc (by omega))

end Operations

section Packing

open Double

def infinity : Float := ⟨Float.Model.pack (.infinity .positive)⟩

def toFloat (b : Binary) : Float := ⟨Float.Model.pack b.unpacked⟩

variable {b : Binary} (hb : b.Normal) (hq : b.q ≤ 971)
include hb

theorem Normal.q_eq_of_lt (h : b.m < 2 ^ 52) : b.q = -1074 := by
  have hleast := hb.least
  have hfull := hb.full
  omega

include hq

/-- Exponent and significand stand side by side in the bits; the leading bit of the significand is
carried into the exponent. -/
theorem Normal.toNat_pack : (UnpackedFloat.pack .binary64 b.unpacked).toNat = (b.q + 1074).toNat * 2 ^ 52 + b.m := by
  have hlt := hb.lt
  have hleast := hb.least
  have hsign : UnpackedFloat.Sign.positive.toBitVec.toNat = 0 := rfl
  by_cases hm : b.m = 0
  · have hmin := hb.q_eq_of_lt (by omega)
    rw [unpacked_of_eq_zero hm, hm, hmin]
    rfl
  · rw [unpacked_of_ne_zero hm]
    unfold UnpackedFloat.pack
    change (if (2048 : Nat) ≤ (b.q + 1023 + 52).toNat + 1 then _ else if b.m.log2 + 1 = 53 then _ else _ :
      BitVec 64).toNat = _
    rw [if_neg (by omega)]
    by_cases hsmall : b.m < 2 ^ 52
    · have hmin := hb.q_eq_of_lt hsmall
      have hlog : b.m.log2 < 52 := (Nat.log2_lt hm).2 hsmall
      rw [if_neg (by omega), hmin]
      refine (toNat_packComponents .positive 0 (BitVec.ofNat 52 b.m)).trans ?_
      rw [hsign, BitVec.toNat_ofNat, Nat.mod_eq_of_lt hsmall, BitVec.ofNat_eq_ofNat, BitVec.toNat_zero]
      omega
    · have hlog : b.m.log2 = 52 := by
        rw [Nat.log2_eq_iff hm]
        omega
      rw [if_pos (by omega)]
      refine (toNat_packComponents .positive (BitVec.ofNat 11 (b.q + 1023 + 52).toNat) (BitVec.ofNat 52 b.m)).trans ?_
      rw [hsign, BitVec.toNat_ofNat, BitVec.toNat_ofNat]
      omega

theorem Normal.toNat_toBits : b.toFloat.toBits.toNat = (b.q + 1074).toNat * 2 ^ 52 + b.m :=
  hb.toNat_pack hq

theorem Normal.magnitude_toFloat : magnitude b.toFloat = (b.q + 1074).toNat * 2 ^ 52 + b.m := by
  have hlt := hb.lt
  rw [magnitude, hb.toNat_toBits hq]
  omega

theorem Normal.sign_toFloat : sign b.toFloat = .positive := by
  have hlt := hb.lt
  rw [sign, hb.toNat_toBits hq, if_pos (by omega)]

theorem Normal.exponentBits_toFloat : exponentBits b.toFloat ≠ 2047 := by
  have hlt := hb.lt
  rw [exponentBits, hb.magnitude_toFloat hq]
  omega

theorem Normal.ofFloat_toFloat : ofFloat b.toFloat = b := by
  have hlt := hb.lt
  have hleast := hb.least
  have hnarrow := hb.narrow_iff
  have hmagnitude := hb.magnitude_toFloat hq
  rw [ofFloat_eq, exponentBits, fractionBits, hmagnitude]
  by_cases hsmall : b.m < 2 ^ 52
  · have hmin := hb.q_eq_of_lt hsmall
    have hnone : b.narrow = false := by
      rw [← Bool.not_eq_true, hnarrow]
      omega
    obtain ⟨m, q, narrow⟩ := b
    simp only at *
    subst hmin hnone
    rw [if_pos (by omega), Binary.mk.injEq]
    exact ⟨by omega, rfl, rfl⟩
  · rw [if_neg (by omega)]
    have hexponent : ((b.q + 1074).toNat * 2 ^ 52 + b.m) / 2 ^ 52 = (b.q + 1075).toNat := by omega
    have hfraction : ((b.q + 1074).toNat * 2 ^ 52 + b.m) % 2 ^ 52 = b.m - 2 ^ 52 := by omega
    rw [hexponent, hfraction]
    obtain ⟨m, q, narrow⟩ := b
    simp only at *
    rw [Binary.mk.injEq]
    refine ⟨by omega, by omega, ?_⟩
    rw [Bool.eq_iff_iff, hnarrow]
    simp only [Bool.and_eq_true, beq_iff_eq, decide_eq_true_eq]
    omega

omit hb hq in
theorem signed_positive (x : Float) : signed x .positive = (ofFloat x).unpacked := by
  rw [ofFloat_eq, signed]
  by_cases hbits : exponentBits x = 0
  · rw [if_pos hbits, if_pos hbits, unpacked]
  · rw [if_neg hbits, if_neg hbits]
    have hm : 2 ^ 52 + fractionBits x ≠ 0 := by omega
    rw [unpacked, dif_neg hm]

theorem Normal.unpack_toFloat : b.toFloat.toModel.unpack = b.unpacked := by
  rw [unpack_eq_signed (hb.exponentBits_toFloat hq), hb.sign_toFloat hq, signed_positive, hb.ofFloat_toFloat hq]

omit hq in
theorem Normal.toFloat_of_lt (h : 971 < b.q) : b.toFloat = infinity := by
  have hm : b.m ≠ 0 := by
    have hfull := hb.full (by omega)
    omega
  have hpack : UnpackedFloat.pack .binary64 b.unpacked = UnpackedFloat.pack .binary64 (.infinity .positive) := by
    rw [unpacked_of_ne_zero hm]
    unfold UnpackedFloat.pack
    exact if_pos (by change (2048 : Nat) ≤ (b.q + 1023 + 52).toNat + 1; omega)
  have hmodel : Float.Model.pack b.unpacked = .pack (.infinity .positive) :=
    (Float.Model.mk.injEq ..).mpr (congrArg UInt64.ofBitVec hpack)
  exact congrArg Float.ofModel hmodel

end Packing

section Operands

theorem log2_shiftLeft {m : Nat} (hm : m ≠ 0) (k : Nat) : (m <<< k).log2 = m.log2 + k := by
  obtain ⟨hle, hlt⟩ := (Nat.log2_eq_iff hm).1 rfl
  rw [Nat.log2_eq_iff (by rwa [ne_eq, Nat.shiftLeft_eq_zero_iff]), Nat.shiftLeft_eq, Nat.pow_add]
  refine ⟨Nat.mul_le_mul_right _ hle, ?_⟩
  rw [show m.log2 + k + 1 = m.log2 + 1 + k by omega, Nat.pow_add]
  exact Nat.mul_lt_mul_of_pos_right hlt (by positivity)

theorem exists_unpack_toFloat {m : Nat} (hm : m < 2 ^ 53) :
    ∃ b : Binary, b.value = m ∧ m.toUInt64.toFloat.toModel.unpack = b.unpacked := by
  by_cases hzero : m = 0
  · subst hzero
    exact ⟨⟨0, -1074, false⟩, by simp [value], rfl⟩
  · have hlog : m.log2 < 53 := (Nat.log2_lt hzero).2 hm
    obtain ⟨k, hk⟩ : ∃ k, 52 - m.log2 = k := ⟨_, rfl⟩
    have hshift : (m <<< k).log2 = 52 := by
      rw [log2_shiftLeft hzero]
      omega
    have hfull := (Nat.log2_eq_iff (by rw [ne_eq, Nat.shiftLeft_eq_zero_iff]; exact hzero)).1 hshift
    let b : Binary := ⟨m <<< k, -k, m <<< k == 2 ^ 52⟩
    have hvalue : b.value = m := by
      simp only [value, b, zpow_neg, zpow_natCast, Nat.shiftLeft_eq]
      push_cast
      field_simp
    have hb : b.Normal :=
      ⟨hfull.2, by simp only [b]; omega, fun _ => hfull.1, by simp only [b, beq_iff_eq]; omega⟩
    have hround : UnpackedFloat.ofUInt64 .binary64 m.toUInt64 =
        roundWithAccuracy .binary64 .positive (m <<< k) (-k) .exact := by
      have htoNat : m.toUInt64.toNat = m := Nat.mod_eq_of_lt (by omega)
      have hexponent : ((0 : Int) - max ((m.log2 : Int) + 1 + 0 - 53) (-1074)).toNat = k := by omega
      unfold UnpackedFloat.ofUInt64 UnpackedFloat.ofNat UnpackedFloat.ofInt UnpackedFloat.normalize
      rw [htoNat, compare_gt_iff_gt.2 (by omega)]
      change roundWithAccuracy .binary64 .positive (m <<< ((0 : Int) - max ((m.log2 : Int) + 1 + 0 - 53) (-1074)).toNat)
        (0 - ((0 : Int) - max ((m.log2 : Int) + 1 + 0 - 53) (-1074)).toNat) .exact = _
      rw [hexponent, zero_sub]
    have hrounds : Rounds b.value (UnpackedFloat.ofUInt64 .binary64 m.toUInt64) := by
      rw [hround]
      exact (approximates_exact _ _).rounds (.inl hshift.ge)
    have hfloat : m.toUInt64.toFloat = b.toFloat := by
      rw [toFloat, ← hrounds.eq_of_value hb]
      rfl
    exact ⟨b, hvalue, hfloat ▸ hb.unpack_toFloat (by simp only [b]; omega)⟩

theorem value_eq_of_mul {b : Binary} {n : Nat} (h : b.m * 2 ^ b.q.toNat = n * 2 ^ (-b.q).toNat) : b.value = n := by
  have hz := zpow_mul_pow_toNat (b := 2) (by norm_num) b.q
  have hcast : (b.m : ℚ) * 2 ^ b.q.toNat = n * 2 ^ (-b.q).toNat := by exact_mod_cast h
  rw [← hz, ← mul_assoc] at hcast
  exact mul_right_cancel₀ (by positivity) hcast

theorem powersOfTen_exact : ∀ e : Fin 23,
    let x := Float.exactlyRepresentablePowersOfTen[e]
    Double.exponentBits x ≠ 2047 ∧ x.toBits.toNat < 2 ^ 63 ∧ 2 ^ 52 ≤ (ofFloat x).m ∧
      (ofFloat x).m * 2 ^ (ofFloat x).q.toNat = 10 ^ e.val * 2 ^ (-(ofFloat x).q).toNat := by
  decide +kernel

theorem exists_unpack_powerOfTen (e : Fin 23) : ∃ b : Binary, b.value = (10 ^ e.val : Nat) ∧ 2 ^ 52 ≤ b.m ∧
    Float.exactlyRepresentablePowersOfTen[e].toModel.unpack = b.unpacked := by
  obtain ⟨hfinite, hsign, hfull, hexact⟩ := powersOfTen_exact e
  refine ⟨_, value_eq_of_mul hexact, hfull, ?_⟩
  rw [Double.unpack_eq_signed hfinite, Double.sign, if_pos hsign, signed_positive]

end Operands

section Scientific

theorem rounds_small {v : ℚ} (hpos : 0 < v) (hlt : v < 2 ^ (-1075 : Int)) : Rounds v (.zero .positive) := by
  refine ⟨⟨0, -1074, false⟩, ⟨by decide, le_refl _, by simp, by simp⟩, ⟨.inl ?_, .inl ?_⟩, rfl⟩
  · refine lt_trans ?_ hpos
    simp [lower, quarter]
  · have hunit : (2 : ℚ) ^ (-1075 : Int) = 2 * 2 ^ (-1076 : Int) := by
      rw [← zpow_one_add₀ (by norm_num)]
      norm_num
    simpa [upper, quarter, hunit] using hlt

/-- A number beyond the largest double is rounded to one whose exponent is too large. -/
theorem Near.lt_of_le {b : Binary} {v : ℚ} (hb : b.Normal) (h : b.Near v) (hle : 2 ^ (1025 : Int) ≤ v) :
    971 < b.q := by
  by_contra hq
  have hm : (b.m : ℚ) + 1 ≤ 2 ^ 53 := by exact_mod_cast hb.lt
  have hquarter : b.quarter ≤ 2 ^ (969 : Int) := zpow_le_zpow_right₀ (by norm_num) (by omega)
  refine absurd (hle.trans h.le_upper) (not_le_of_gt ?_)
  calc b.upper ≤ 2 ^ (55 : Int) * 2 ^ (969 : Int) :=
        mul_le_mul (by norm_num; linarith) hquarter b.quarter_pos.le (by positivity)
    _ = 2 ^ (1024 : Int) := by rw [← zpow_add₀ (by norm_num)]; norm_num
    _ < 2 ^ (1025 : Int) := zpow_lt_zpow_right₀ (by norm_num) (by norm_num)

theorem value_nat (m : Nat) : value ⟨m, 0, false⟩ = m := by simp [value]

theorem value_shiftLeft (m : Nat) : value ⟨m <<< 53, -53, false⟩ = m := by
  simp only [value, Nat.shiftLeft_eq]
  push_cast
  field_simp
  norm_num

theorem unpacked_finite {m : Nat} {e : Int} (hm : 0 < m) : unpacked ⟨m, e, false⟩ = .finite .positive m e hm :=
  unpacked_of_ne_zero hm.ne'

theorem rounds_mul_pow {m : Nat} (hm : m ≠ 0) (e : Nat) : Rounds (m * 10 ^ e)
    (.mul .binary64 (unpacked ⟨m <<< 53, -53, false⟩) (unpacked ⟨10 ^ e, 0, false⟩)) := by
  have h := rounds_mul (b := ⟨m <<< 53, -53, false⟩) (c := ⟨10 ^ e, 0, false⟩) (by positivity) fun _ => ?_
  · rw [value_shiftLeft, value_nat] at h
    exact_mod_cast h
  · calc 2 ^ 52 ≤ m * 2 ^ 53 * 1 := by omega
      _ ≤ m <<< 53 * 10 ^ e := by
        rw [Nat.shiftLeft_eq]
        exact Nat.mul_le_mul_left _ (Nat.one_le_pow _ _ (by decide))

theorem rounds_div_pow (m e : Nat) :
    Rounds (m / 10 ^ e) (.div .binary64 (unpacked ⟨m, 0, false⟩) (unpacked ⟨10 ^ e, 0, false⟩)) := by
  have h := rounds_div (b := ⟨m, 0, false⟩) (c := ⟨10 ^ e, 0, false⟩) (by positivity)
  rw [value_nat, value_nat] at h
  exact_mod_cast h

theorem le_mul_pow {m e : Nat} (hm : m ≠ 0) (he : 2048 < e) : (2 : ℚ) ^ (1025 : Int) ≤ m * 10 ^ e := by
  have hone : (1 : ℚ) ≤ m := by exact_mod_cast Nat.one_le_iff_ne_zero.2 hm
  calc (2 : ℚ) ^ (1025 : Int) = 2 ^ 1025 := zpow_ofNat ..
    _ ≤ 10 ^ 1025 := pow_le_pow_left₀ (by norm_num) (by norm_num) _
    _ ≤ 10 ^ e := pow_le_pow_right₀ (by norm_num) (by omega)
    _ ≤ m * 10 ^ e := le_mul_of_one_le_left (by positivity) hone

theorem div_pow_lt {m e : Nat} (he : 2048 + m.log2 < e) : (m : ℚ) / 10 ^ e < 2 ^ (-1075 : Int) := by
  have hm : (m : ℚ) < 2 ^ (m.log2 + 1) := by exact_mod_cast Nat.lt_log2_self
  calc (m : ℚ) / 10 ^ e < 2 ^ (m.log2 + 1) / 10 ^ e := by gcongr
    _ ≤ 2 ^ (m.log2 + 1) / 2 ^ e := by gcongr; norm_num
    _ = 2 ^ ((m.log2 + 1 : Nat) - (e : Int)) := by
        rw [zpow_sub₀ (by norm_num), zpow_natCast, zpow_natCast]
    _ ≤ 2 ^ (-1075 : Int) := zpow_le_zpow_right₀ (by norm_num) (by omega)

/-- The slow path reads through the operations on magnitudes, except far outside the range. -/
theorem exists_ofScientific (m : Nat) (e : Int) :
    ∃ b : Binary, b.Normal ∧ b.Near (m * 10 ^ e) ∧
      Float.Model.pack (UnpackedFloat.ofScientific .binary64 m e) = Float.Model.pack b.unpacked := by
  by_cases hm : m = 0
  · obtain ⟨b, hb, hnear, hzero⟩ := rounds_zero
    refine ⟨b, hb, by simpa [hm] using hnear, ?_⟩
    rw [UnpackedFloat.ofScientific, dif_pos hm, hzero]
  · unfold UnpackedFloat.ofScientific
    rw [dif_neg hm]
    change ∃ b : Binary, b.Normal ∧ b.Near _ ∧ Float.Model.pack (if (2048 : Int) < e then _ else
      if e < -(2048 + m.log2) then _ else if 0 ≤ e then _ else _) = _
    have hpos : 0 < m := Nat.pos_of_ne_zero hm
    by_cases he : 0 ≤ e
    · lift e to Nat using he
      obtain ⟨b, hb, hnear, hmul⟩ := rounds_mul_pow hm e
      refine ⟨b, hb, by rwa [zpow_natCast], ?_⟩
      by_cases hlarge : (2048 : Int) < e
      · have hfar := hnear.lt_of_le hb (le_mul_pow hm (by omega))
        rw [if_pos hlarge]
        exact congrArg Float.toModel (hb.toFloat_of_lt hfar).symm
      · have hshift : 0 < m <<< 53 := by
          rw [Nat.shiftLeft_eq]
          positivity
        rw [if_neg hlarge, if_neg (by omega), if_pos (by omega), ← hmul, unpacked_finite hshift,
          unpacked_finite (by positivity)]
        rfl
    · obtain ⟨k, rfl⟩ : ∃ k : Nat, e = -k := ⟨(-e).toNat, by omega⟩
      rw [if_neg (by omega), zpow_neg, zpow_natCast, ← div_eq_mul_inv]
      by_cases hsmall : (-k : Int) < -(2048 + m.log2)
      · have hlt : 2048 + m.log2 < k := by omega
        obtain ⟨b, hb, hnear, hzero⟩ := rounds_small (by positivity) (div_pow_lt hlt)
        refine ⟨b, hb, hnear, ?_⟩
        rw [if_pos hsmall, hzero]
      · have hk : (- -(k : Int)).toNat = k := by omega
        obtain ⟨b, hb, hnear, hdiv⟩ := rounds_div_pow m (- -(k : Int)).toNat
        rw [hk] at hnear
        refine ⟨b, hb, hnear, ?_⟩
        rw [if_neg hsmall, if_neg he, ← hdiv, unpacked_finite hpos, unpacked_finite (by positivity)]

end Scientific

end FlowShader.Binary

namespace FlowShader.Decimal

open Double

theorem exists_fast {m e : Nat} (hm : m < 2 ^ 53) (he : e < 23) (s : Bool) :
    ∃ b : Binary, b.Normal ∧ b.Near (m * 10 ^ (if s then -e else e : Int)) ∧
      (if s then m.toUInt64.toFloat / Float.exactlyRepresentablePowersOfTen[(⟨e, he⟩ : Fin 23)]
        else m.toUInt64.toFloat * Float.exactlyRepresentablePowersOfTen[(⟨e, he⟩ : Fin 23)]) = b.toFloat := by
  obtain ⟨b, hvalue, hb⟩ := Binary.exists_unpack_toFloat hm
  obtain ⟨c, hpower, hfull, hc⟩ := Binary.exists_unpack_powerOfTen ⟨e, he⟩
  have hne : c.m ≠ 0 := by omega
  push_cast at hpower
  cases s with
  | true =>
      obtain ⟨x, hx, hnear, hdiv⟩ := Binary.rounds_div (b := b) hne
      rw [hvalue, hpower, div_eq_mul_inv, ← zpow_natCast, ← zpow_neg] at hnear
      refine ⟨x, hx, hnear, ?_⟩
      rw [Binary.toFloat, ← hdiv, ← hb, ← hc]
      rfl
  | false =>
      obtain ⟨x, hx, hnear, hmul⟩ := Binary.rounds_mul (b := b) hne fun hzero =>
        le_trans hfull (Nat.le_mul_of_pos_left _ (Nat.pos_of_ne_zero hzero))
      rw [hvalue, hpower, ← zpow_natCast] at hnear
      refine ⟨x, hx, hnear, ?_⟩
      rw [Binary.toFloat, ← hmul, ← hb, ← hc]
      rfl

theorem exists_toFloat_eq (d : Decimal) :
    ∃ b : Binary, b.Normal ∧ b.Near d.value ∧ d.toFloat = b.toFloat := by
  have hexponent : (if decide (d.exponent < 0) = true then -d.exponent.natAbs else d.exponent.natAbs : Int) =
      d.exponent := by
    by_cases hneg : d.exponent < 0
    · rw [if_pos (decide_eq_true hneg)]
      omega
    · rw [if_neg (by simpa using hneg)]
      omega
  unfold toFloat Float.ofScientific
  by_cases hfast : d.digits < 2 ^ 53 ∧ d.exponent.natAbs ≤ 22
  · rw [dif_pos hfast]
    have h := exists_fast hfast.1 (Nat.lt_succ_of_le hfast.2) (decide (d.exponent < 0))
    rw [hexponent] at h
    exact h
  · rw [dif_neg hfast]
    obtain ⟨b, hb, hnear, hpack⟩ := Binary.exists_ofScientific d.digits d.exponent
    refine ⟨b, hb, hnear, ?_⟩
    rw [Int.negOfNat_eq]
    change Float.ofModel (Float.Model.ofScientific d.digits
      (if decide (d.exponent < 0) = true then -d.exponent.natAbs else d.exponent.natAbs : Int)) = _
    rw [hexponent]
    exact congrArg Float.ofModel hpack

theorem toFloat_congr {d d' : Decimal} (h : d.value = d'.value) : d.toFloat = d'.toFloat := by
  obtain ⟨b, hb, hnear, hfloat⟩ := d.exists_toFloat_eq
  obtain ⟨c, hc, hnear', hfloat'⟩ := d'.exists_toFloat_eq
  rw [hfloat, hfloat', hnear.unique hb hc (h ▸ hnear')]

theorem toFloat_eq_of_near {d : Decimal} {x : Float} (hfinite : exponentBits x ≠ 2047) (hsign : sign x = .positive)
    (h : (Binary.ofFloat x).Near d.value) : d.toFloat = x := by
  obtain ⟨b, hb, hnear, hfloat⟩ := d.exists_toFloat_eq
  have heq : b = Binary.ofFloat x := hnear.unique hb (normal_ofFloat x) h
  have hq : b.q ≤ 971 := by
    have hlt := exponentBits_lt x
    rw [heq, ofFloat_eq]
    split <;> simp only <;> omega
  rw [hfloat]
  refine eq_of_sign_of_magnitude ?_ (magnitude_eq_of_ofFloat ?_)
  · rw [hb.sign_toFloat hq, hsign]
  · rw [hb.ofFloat_toFloat hq, heq]

theorem toFloat_shortest {x : Float} (hfinite : exponentBits x ≠ 2047) (hsign : sign x = .positive) :
    (Binary.ofFloat x).shortest.toFloat = x := by
  apply toFloat_eq_of_near hfinite hsign
  by_cases hm : (Binary.ofFloat x).m = 0
  · have hzero := (Binary.shortest_value_eq_zero_iff _).2 hm
    have hvalue : (Binary.ofFloat x).value = 0 := by rw [Binary.value, hm, Nat.cast_zero, zero_mul]
    rw [hzero, ← hvalue]
    exact Binary.near_value
  · exact Binary.shortest_near hm

theorem toFloat_cases (d : Decimal) :
    (exponentBits d.toFloat ≠ 2047 ∧ sign d.toFloat = .positive) ∨ d.toFloat = Binary.infinity := by
  obtain ⟨b, hb, -, hfloat⟩ := d.exists_toFloat_eq
  rw [hfloat]
  by_cases hq : b.q ≤ 971
  · exact .inl ⟨hb.exponentBits_toFloat hq, hb.sign_toFloat hq⟩
  · exact .inr (hb.toFloat_of_lt (by omega))

end FlowShader.Decimal
