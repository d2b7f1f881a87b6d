import Mathlib.Algebra.Order.Field.Power
import Mathlib.Tactic.Linarith
import Mathlib.Tactic.Positivity
import FlowShader.Proofs.Decimal.Text

namespace FlowShader.Binary

/-- The significand has 53 bits, except at the smallest exponent, and only a power of two is closer to
its lower neighbour. -/
structure Normal (x : Binary) : Prop where
  lt : x.m < 2 ^ 53
  least : -1074 ≤ x.q
  full : -1074 < x.q → 2 ^ 52 ≤ x.m
  narrow_iff : x.narrow = true ↔ x.m = 2 ^ 52 ∧ -1074 < x.q

def value (x : Binary) : ℚ := x.m * 2 ^ x.q

/-- The unit in which the ends of the interval are whole numbers. -/
def quarter (x : Binary) : ℚ := 2 ^ (x.q - 2)

def lower (x : Binary) : ℚ := (4 * x.m - if x.narrow then 1 else 2) * x.quarter

def upper (x : Binary) : ℚ := (4 * x.m + 2) * x.quarter

/-- The numbers whose nearest double is this one; the ends belong to even significands. -/
def Near (x : Binary) (v : ℚ) : Prop :=
  (x.lower < v ∨ x.m % 2 = 0 ∧ x.lower = v) ∧ (v < x.upper ∨ x.m % 2 = 0 ∧ v = x.upper)

theorem quarter_pos (x : Binary) : 0 < x.quarter := by
  unfold quarter
  positivity

theorem value_eq (x : Binary) : x.value = 4 * x.m * x.quarter := by
  rw [value, quarter, zpow_sub₀ (by norm_num)]
  ring

theorem zpow_mul_pow_toNat {b : ℚ} (hb : b ≠ 0) (i : Int) : b ^ i * b ^ (-i).toNat = b ^ i.toNat := by
  rw [← zpow_natCast, ← zpow_natCast, ← zpow_add₀ hb]
  congr 1
  omega

theorem compareScaled_eq (a : Nat) (i : Int) (n : Nat) (j : Int) :
    compareScaled a i n j = compare ((a : ℚ) * 10 ^ i) (n * 2 ^ j) := by
  -- Both sides of the comparison of naturals are multiplied by the same denominators.
  let c : ℚ := 2 ^ (-j).toNat * 10 ^ (-i).toNat
  have hc : 0 < c := by positivity
  have hleft : ((a * Nat.pow 10 i.toNat * Nat.pow 2 (-j).toNat : Nat) : ℚ) = a * 10 ^ i * c := by
    have h := zpow_mul_pow_toNat (b := 10) (by norm_num) i
    push_cast [Nat.pow_eq]
    rw [← h]
    ring
  have hright : ((n * Nat.pow 2 j.toNat * Nat.pow 10 (-i).toNat : Nat) : ℚ) = n * 2 ^ j * c := by
    have h := zpow_mul_pow_toNat (b := 2) (by norm_num) j
    push_cast [Nat.pow_eq]
    rw [← h]
    ring
  unfold compareScaled
  rcases lt_trichotomy ((a : ℚ) * 10 ^ i) (n * 2 ^ j) with h | h | h
  · rw [compare_lt_iff_lt.2 h, compare_lt_iff_lt, ← Nat.cast_lt (α := ℚ), hleft, hright]
    exact mul_lt_mul_of_pos_right h hc
  · rw [compare_eq_iff_eq.2 h, compare_eq_iff_eq, ← Nat.cast_inj (R := ℚ), hleft, hright, h]
  · rw [compare_gt_iff_gt.2 h, compare_gt_iff_gt, ← Nat.cast_lt (α := ℚ), hleft, hright]
    exact mul_lt_mul_of_pos_right h hc

theorem readsBack_iff {x : Binary} (hx : x.m ≠ 0) (d : Decimal) : x.readsBack d = true ↔ x.Near d.value := by
  have hlower : ((if x.narrow then 4 * x.m - 1 else 4 * x.m - 2 : Nat) : ℚ) * 2 ^ (x.q - 2) = x.lower := by
    unfold lower quarter
    split
    · rw [Nat.cast_sub (by omega)]
      push_cast
      ring
    · rw [Nat.cast_sub (by omega)]
      push_cast
      ring
  have hupper : ((4 * x.m + 2 : Nat) : ℚ) * 2 ^ (x.q - 2) = x.upper := by
    unfold upper quarter
    push_cast
    ring
  simp only [readsBack, compareScaled_eq, hlower, hupper, Near, Decimal.value, Bool.and_eq_true, Bool.or_eq_true,
    beq_iff_eq, compare_lt_iff_lt, compare_gt_iff_gt, compare_eq_iff_eq]
  tauto

theorem near_value {x : Binary} : x.Near x.value := by
  have hq := x.quarter_pos
  rw [value_eq]
  refine ⟨.inl ?_, .inl ?_⟩
  · unfold lower
    apply mul_lt_mul_of_pos_right _ hq
    split <;> linarith
  · exact mul_lt_mul_of_pos_right (by linarith) hq

theorem lower_pos {x : Binary} (hx : x.m ≠ 0) : 0 < x.lower := by
  have hm : (1 : ℚ) ≤ x.m := by exact_mod_cast Nat.one_le_iff_ne_zero.2 hx
  refine mul_pos ?_ x.quarter_pos
  split <;> linarith

theorem Near.pos {x : Binary} {v : ℚ} (hx : x.m ≠ 0) (h : x.Near v) : 0 < v := by
  have hlower := lower_pos hx
  rcases h.1 with h | ⟨-, h⟩ <;> linarith

theorem onGrid_near {x : Binary} {k : Int} {d : Decimal} (hx : x.m ≠ 0) (h : x.onGrid k = some d) :
    x.Near d.value := by
  rw [← readsBack_iff hx]
  unfold onGrid at h
  dsimp only at h
  split at h
  · next hb ha =>
    rw [Option.some.injEq] at h
    subst h
    split
    · exact hb
    · exact ha
  · next hb _ => exact Option.some.inj h ▸ hb
  · next _ ha => exact Option.some.inj h ▸ ha
  · cases h

theorem value_of_whole? {x : Binary} {n : Nat} (h : x.whole? = some n) : (n : ℚ) = x.value := by
  unfold whole? at h
  dsimp only at h
  split at h
  · next hx =>
    simp only [Bool.and_eq_true, decide_eq_true_eq, beq_iff_eq, Nat.pow_eq] at hx
    have hm : x.m = n * 2 ^ (-x.q).toNat := by
      rw [← Option.some.inj h]
      exact (Nat.div_mul_cancel (Nat.dvd_of_mod_eq_zero hx.2)).symm
    have hz := zpow_mul_pow_toNat (b := 2) (by norm_num) x.q
    rw [show x.q.toNat = 0 by omega, pow_zero] at hz
    rw [value, hm]
    push_cast
    rw [mul_assoc, mul_comm (2 ^ _), hz, mul_one]
  · cases h

theorem value_exact (x : Binary) :
    (if 0 ≤ x.q then ⟨x.m * Nat.pow 2 x.q.toNat, 0⟩ else ⟨x.m * Nat.pow 5 (-x.q).toNat, x.q⟩ : Decimal).value =
      x.value := by
  split
  · next hq =>
    have hz := zpow_mul_pow_toNat (b := 2) (by norm_num) x.q
    rw [show (-x.q).toNat = 0 by omega, pow_zero, mul_one] at hz
    simp [Decimal.value, value, hz]
  · next hq =>
    have hz := zpow_mul_pow_toNat (b := 5) (by norm_num) x.q
    rw [show x.q.toNat = 0 by omega, pow_zero] at hz
    have hten : (10 : ℚ) ^ x.q = 2 ^ x.q * 5 ^ x.q := by
      rw [← mul_zpow]
      norm_num
    simp only [Decimal.value, value, hten, Nat.cast_mul, Nat.pow_eq, Nat.cast_pow, Nat.cast_ofNat]
    calc (x.m : ℚ) * 5 ^ (-x.q).toNat * (2 ^ x.q * 5 ^ x.q)
        = x.m * 2 ^ x.q * (5 ^ x.q * 5 ^ (-x.q).toNat) := by ring
      _ = x.m * 2 ^ x.q := by rw [hz, mul_one]

theorem shortest_near {x : Binary} (hx : x.m ≠ 0) : x.Near x.shortest.value := by
  unfold shortest
  rw [if_neg hx]
  split
  · next n hn =>
    have hv : (⟨n, 0⟩ : Decimal).value = x.value := by simp [Decimal.value, value_of_whole? hn]
    exact hv ▸ near_value
  · dsimp only
    split
    · next d hd =>
      obtain ⟨n, -, hn⟩ := List.exists_of_findSome?_eq_some hd
      rw [Decimal.value_strip]
      exact onGrid_near hx hn
    · rw [value_exact]
      exact near_value

theorem Near.lower_le {x : Binary} {v : ℚ} (h : x.Near v) : x.lower ≤ v := by
  rcases h.1 with h | ⟨-, h⟩
  · exact h.le
  · exact h.le

theorem Near.le_upper {x : Binary} {v : ℚ} (h : x.Near v) : v ≤ x.upper := by
  rcases h.2 with h | ⟨-, h⟩
  · exact h.le
  · exact h.le

/-- Where two intervals meet, the number at their common end belongs to both only if both
significands are even. -/
theorem Near.even_of_upper_le {x y : Binary} {v : ℚ} (h : x.Near v) (h' : y.Near v) (hxy : x.upper ≤ y.lower) :
    x.m % 2 = 0 ∧ y.m % 2 = 0 ∧ x.upper = y.lower := by
  have hx := h.le_upper
  have hy := h'.lower_le
  refine ⟨?_, ?_, le_antisymm hxy (hy.trans hx)⟩
  · rcases h.2 with h | ⟨he, -⟩
    · exact absurd (h.trans_le (hxy.trans hy)) (lt_irrefl _)
    · exact he
  · rcases h'.1 with h' | ⟨he, -⟩
    · exact absurd (h'.trans_le (hx.trans hxy)) (lt_irrefl _)
    · exact he

theorem Near.le_of_same_exponent {x y : Binary} {v : ℚ} (hq : x.q = y.q) (h : x.Near v) (h' : y.Near v) :
    y.m ≤ x.m := by
  by_contra hlt
  have hquarter : x.quarter = y.quarter := by rw [quarter, quarter, hq]
  have hm : (x.m : ℚ) + 1 ≤ y.m := by exact_mod_cast Nat.not_le.1 hlt
  have hle : x.upper ≤ y.lower := by
    rw [upper, lower, hquarter]
    apply mul_le_mul_of_nonneg_right _ y.quarter_pos.le
    split <;> linarith
  obtain ⟨hx, hy, heq⟩ := h.even_of_upper_le h' hle
  -- Neighbours are not both even, so a whole interval lies between the two.
  have hm : (x.m : ℚ) + 2 ≤ y.m := by exact_mod_cast (by omega : x.m + 2 ≤ y.m)
  have hlt : x.upper < y.lower := by
    rw [upper, lower, hquarter]
    apply mul_lt_mul_of_pos_right _ y.quarter_pos
    split <;> linarith
  exact absurd heq hlt.ne

theorem Near.exponent_le {x y : Binary} {v : ℚ} (hx : x.Normal) (hy : y.Normal) (h : x.Near v) (h' : y.Near v) :
    y.q ≤ x.q := by
  by_contra hlt
  have hquarter : 2 * x.quarter ≤ y.quarter := by
    rw [quarter, quarter, ← zpow_one_add₀ (by norm_num)]
    exact zpow_le_zpow_right₀ (by norm_num) (by omega)
  have hfull : (2 : ℚ) ^ 52 ≤ y.m := by exact_mod_cast hy.full (lt_of_le_of_lt hx.least (Int.not_le.1 hlt))
  have hend : 2 ^ 54 - 1 ≤ 4 * (y.m : ℚ) - if y.narrow then 1 else 2 := by
    split
    · linarith
    · next hnarrow =>
      have hne : y.m ≠ 2 ^ 52 := fun he =>
        hnarrow (hy.narrow_iff.2 ⟨he, lt_of_le_of_lt hx.least (Int.not_le.1 hlt)⟩)
      have hfull : (2 : ℚ) ^ 52 + 1 ≤ y.m := by
        have hle : 2 ^ 52 ≤ y.m := by exact_mod_cast hfull
        exact_mod_cast Nat.lt_of_le_of_ne hle hne.symm
      linarith
  have hlower : (2 ^ 55 - 2) * x.quarter ≤ y.lower := by
    have hpos := x.quarter_pos
    unfold lower
    nlinarith
  have hm : (x.m : ℚ) + 1 ≤ 2 ^ 53 := by exact_mod_cast hx.lt
  have hle : x.upper ≤ y.lower := by
    refine le_trans ?_ hlower
    exact mul_le_mul_of_nonneg_right (by linarith) x.quarter_pos.le
  obtain ⟨heven, -, heq⟩ := h.even_of_upper_le h' hle
  have hm : (x.m : ℚ) + 2 ≤ 2 ^ 53 := by
    have := hx.lt
    exact_mod_cast (by omega : x.m + 2 ≤ 2 ^ 53)
  have hlt : x.upper < y.lower := by
    refine lt_of_lt_of_le ?_ hlower
    exact mul_lt_mul_of_pos_right (by linarith) x.quarter_pos
  exact absurd heq hlt.ne

theorem Near.unique {x y : Binary} {v : ℚ} (hx : x.Normal) (hy : y.Normal) (h : x.Near v) (h' : y.Near v) :
    x = y := by
  have hq : x.q = y.q := le_antisymm (h'.exponent_le hy hx h) (h.exponent_le hx hy h')
  have hm : x.m = y.m := le_antisymm (h'.le_of_same_exponent hq.symm h) (h.le_of_same_exponent hq h')
  have hnarrow : x.narrow = y.narrow := by
    rw [Bool.eq_iff_iff, hx.narrow_iff, hy.narrow_iff, hq, hm]
  cases x
  cases y
  simp_all

theorem shortest_value_eq_zero_iff (x : Binary) : x.shortest.value = 0 ↔ x.m = 0 := by
  refine ⟨fun h => ?_, fun h => by simp [shortest, h, Decimal.value]⟩
  by_contra hm
  exact absurd h (Near.pos hm (shortest_near hm)).ne'

theorem Normal.eq_of_zero {x y : Binary} (hx : x.Normal) (hy : y.Normal) (hmx : x.m = 0) (hmy : y.m = 0) :
    x = y := by
  have hnarrow {z : Binary} (hz : z.Normal) (hm : z.m = 0) : z.narrow = false := by
    rw [← Bool.not_eq_true, hz.narrow_iff, hm]
    simp
  have hq {z : Binary} (hz : z.Normal) (hm : z.m = 0) : z.q = -1074 := by
    have hleast := hz.least
    have hfull := hz.full
    omega
  have hnx := hnarrow hx hmx
  have hny := hnarrow hy hmy
  have hqx := hq hx hmx
  have hqy := hq hy hmy
  cases x
  cases y
  simp_all

theorem eq_of_shortest_text {x y : Binary} (hx : x.Normal) (hy : y.Normal)
    (h : x.shortest.text = y.shortest.text) : x = y := by
  have hv := Decimal.value_eq_of_text h
  by_cases hm : x.m = 0
  · have hy0 : y.m = 0 := by rwa [← shortest_value_eq_zero_iff, ← hv, shortest_value_eq_zero_iff]
    exact hx.eq_of_zero hy hm hy0
  · have hy0 : y.m ≠ 0 := by rwa [ne_eq, ← shortest_value_eq_zero_iff, ← hv, shortest_value_eq_zero_iff]
    exact (shortest_near hm).unique hx hy (hv ▸ shortest_near hy0)

end FlowShader.Binary
