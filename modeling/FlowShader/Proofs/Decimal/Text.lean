import Mathlib.Algebra.Order.Field.Rat
import Mathlib.Tactic.Ring
import Std.Data.String.ToNat
import FlowShader.Decimal

namespace FlowShader.Decimal

def value (d : Decimal) : ℚ := d.digits * 10 ^ d.exponent

section Digits

theorem natOfDigits_eq (cs : List Char) : natOfDigits cs = Nat.ofDigitChars 10 cs 0 := rfl

theorem natOfDigits_zeros_append (k : Nat) (cs : List Char) :
    natOfDigits (List.replicate k '0' ++ cs) = natOfDigits cs := by
  induction k with
  | zero => rfl
  | succ k ih => exact ih

theorem natOfDigits_append_zeros (cs : List Char) (k : Nat) :
    natOfDigits (cs ++ List.replicate k '0') = natOfDigits cs * 10 ^ k := by
  rw [natOfDigits_eq, Nat.ofDigitChars_append, Nat.ofDigitChars_replicate_zero, natOfDigits_eq, Nat.mul_comm]

theorem natOfDigits_toString (n : Nat) : natOfDigits (toString n).toList = n := by
  rw [Nat.toString_eq_repr, Nat.toList_repr, natOfDigits_eq, Nat.ofDigitChars_toDigits (by decide) (by decide)]

theorem isDigit_of_mem_toString {n : Nat} {c : Char} (h : c ∈ (toString n).toList) : c.isDigit = true := by
  rw [Nat.toString_eq_repr, Nat.toList_repr] at h
  exact Nat.isDigit_of_mem_toDigits (by decide) (by decide) h

end Digits

/-- The digits of a decimal, with zeros in front so that one stands before the point. -/
def padded (d : Decimal) : List Char :=
  List.replicate (d.exponent.natAbs + 1 - (toString d.digits).toList.length) '0' ++ (toString d.digits).toList

def wholeDigits (d : Decimal) : List Char :=
  if 0 ≤ d.exponent then (toString d.digits).toList ++ List.replicate d.exponent.toNat '0'
  else d.padded.take (d.padded.length - d.exponent.natAbs)

def fractionDigits (d : Decimal) : List Char :=
  if 0 ≤ d.exponent then [] else d.padded.drop (d.padded.length - d.exponent.natAbs)

theorem text_toList (d : Decimal) :
    d.text.toList = d.wholeDigits ++ if 0 ≤ d.exponent then [] else '.' :: d.fractionDigits := by
  unfold text wholeDigits fractionDigits
  by_cases h : 0 ≤ d.exponent
  · simp [h]
  · simp [h, padded]

theorem lt_length_padded (d : Decimal) : d.exponent.natAbs < d.padded.length := by
  simp only [padded, List.length_append, List.length_replicate]
  omega

theorem length_fractionDigits {d : Decimal} (h : d.exponent < 0) :
    d.fractionDigits.length = d.exponent.natAbs := by
  have hlt := d.lt_length_padded
  rw [fractionDigits, if_neg (by omega), List.length_drop]
  omega

theorem isDigit_of_mem_padded {d : Decimal} {c : Char} (h : c ∈ d.padded) : c.isDigit = true := by
  rcases List.mem_append.1 h with h | h
  · rw [List.eq_of_mem_replicate h]
    decide
  · exact isDigit_of_mem_toString h

theorem isDigit_of_mem_wholeDigits {d : Decimal} {c : Char} (h : c ∈ d.wholeDigits) : c.isDigit = true := by
  unfold wholeDigits at h
  split at h
  · rcases List.mem_append.1 h with h | h
    · exact isDigit_of_mem_toString h
    · rw [List.eq_of_mem_replicate h]
      decide
  · exact isDigit_of_mem_padded (List.mem_of_mem_take h)

theorem isDigit_of_mem_fractionDigits {d : Decimal} {c : Char} (h : c ∈ d.fractionDigits) :
    c.isDigit = true := by
  unfold fractionDigits at h
  split at h
  · simp at h
  · exact isDigit_of_mem_padded (List.mem_of_mem_drop h)

theorem wholeDigits_ne_nil (d : Decimal) : d.wholeDigits ≠ [] := by
  have hlt := d.lt_length_padded
  unfold wholeDigits
  split
  · simp
  · rw [← List.length_pos_iff, List.length_take]
    omega

theorem text_chars {d : Decimal} {c : Char} (h : c ∈ d.text.toList) : c.isDigit = true ∨ c = '.' := by
  rw [text_toList] at h
  rcases List.mem_append.1 h with h | h
  · exact .inl (isDigit_of_mem_wholeDigits h)
  · split at h
    · simp at h
    · rcases List.mem_cons.1 h with h | h
      · exact .inr h
      · exact .inl (isDigit_of_mem_fractionDigits h)

theorem text_ne_nil (d : Decimal) : d.text.toList ≠ [] := by
  rw [text_toList]
  simp [wholeDigits_ne_nil]

/-- Digits before and after the point spell the decimal. -/
theorem value_ofPoint (d : Decimal) : (ofPoint d.wholeDigits d.fractionDigits).value = d.value := by
  by_cases h : 0 ≤ d.exponent
  · obtain ⟨k, hk⟩ := Int.eq_ofNat_of_zero_le h
    have hfraction : d.fractionDigits = [] := by rw [fractionDigits, if_pos h]
    have hwhole : natOfDigits d.wholeDigits = d.digits * 10 ^ k := by
      rw [wholeDigits, if_pos h, natOfDigits_append_zeros, natOfDigits_toString, hk, Int.toNat_natCast]
    simp [ofPoint, hfraction, hwhole, value, hk]
  · have hlen := length_fractionDigits (Int.not_le.1 h)
    have hdigits : d.wholeDigits ++ d.fractionDigits = d.padded := by
      rw [wholeDigits, fractionDigits, if_neg h, if_neg h, List.take_append_drop]
    have hexp : -(d.exponent.natAbs : Int) = d.exponent := by omega
    rw [ofPoint, hdigits, hlen, value, hexp, padded, natOfDigits_zeros_append, natOfDigits_toString, value]

/-- What a text spells, read off its characters. -/
def ofChars (cs : List Char) : Decimal :=
  ofPoint (cs.takeWhile Char.isDigit) (cs.dropWhile Char.isDigit).tail

theorem value_ofChars_text (d : Decimal) : (ofChars d.text.toList).value = d.value := by
  have hwhole : ∀ c ∈ d.wholeDigits, c.isDigit = true := fun c => isDigit_of_mem_wholeDigits
  rw [ofChars, text_toList, List.takeWhile_append_of_pos hwhole, List.dropWhile_append_of_pos hwhole,
    ← value_ofPoint d]
  by_cases h : 0 ≤ d.exponent
  · simp [h, fractionDigits]
  · simp [h]

theorem value_eq_of_text {d d' : Decimal} (h : d.text = d'.text) : d.value = d'.value := by
  rw [← value_ofChars_text d, ← value_ofChars_text d', h]

theorem value_strip (n : Nat) (d : Decimal) : (d.strip n).value = d.value := by
  fun_induction strip n d with
  | case1 d => rfl
  | case2 fuel d h ih =>
      rw [ih, value, value, zpow_add₀ (by norm_num), zpow_one]
      have hdigits : (d.digits : ℚ) = (d.digits / 10 : Nat) * 10 := by
        exact_mod_cast (Nat.div_mul_cancel (Nat.dvd_of_mod_eq_zero h.2)).symm
      rw [hdigits]
      ring
  | case3 fuel d h => rfl

end FlowShader.Decimal
