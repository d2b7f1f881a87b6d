import FlowShader.Proofs.Decimal.Shortest
import FlowShader.Proofs.Expr.Readable
import FlowShader.Scalar.Double

namespace FlowShader.Double

open Float.Model (UnpackedFloat Format)
open Float.Model.UnpackedFloat (Sign)

/-- A double without its sign, as its bits stand for a number. -/
def magnitude (x : Float) : Nat := x.toBits.toNat % 2 ^ 63

def sign (x : Float) : Sign := if x.toBits.toNat < 2 ^ 63 then .positive else .negative

/-- Exponent and fraction of a double, as they stand in its bits. -/
def exponentBits (x : Float) : Nat := magnitude x / 2 ^ 52

def fractionBits (x : Float) : Nat := magnitude x % 2 ^ 52

theorem eq_of_sign_of_magnitude {x y : Float} (hs : sign x = .negative ↔ sign y = .negative)
    (hm : magnitude x = magnitude y) : x = y := by
  have hx := x.toBits.toNat_lt
  have hy := y.toBits.toNat_lt
  have hbits : x.toBits = y.toBits := by
    rw [← UInt64.toNat_inj]
    unfold sign magnitude at *
    split at hs <;> split at hs <;> simp at hs <;> omega
  obtain ⟨⟨b, hb⟩⟩ := x
  obtain ⟨⟨c, hc⟩⟩ := y
  obtain rfl : b = c := hbits
  rfl

theorem fractionBits_lt (x : Float) : fractionBits x < 2 ^ 52 := Nat.mod_lt _ (by decide)

theorem exponentBits_lt (x : Float) : exponentBits x < 2 ^ 11 := by
  have hlt := Nat.mod_lt x.toBits.toNat (y := 2 ^ 63) (by decide)
  unfold exponentBits magnitude
  omega

theorem magnitude_eq (x : Float) : magnitude x = exponentBits x * 2 ^ 52 + fractionBits x := by
  unfold exponentBits fractionBits
  omega

section Unpack

theorem unpackMantissa_toNat (x : Float) :
    (@UnpackedFloat.unpackMantissa .binary64 x.toBits.toBitVec).toNat = fractionBits x := by
  simp [UnpackedFloat.unpackMantissa, fractionBits, magnitude]

theorem unpackExponent_toNat (x : Float) :
    (@UnpackedFloat.unpackExponent .binary64 x.toBits.toBitVec).toNat = exponentBits x := by
  simp only [UnpackedFloat.unpackExponent, exponentBits, magnitude, BitVec.toNat_cast, BitVec.extractLsb_toNat,
    UInt64.toNat_toBitVec, Nat.shiftRight_eq_div_pow]
  omega

theorem ofBitVec_unpackSign (x : Float) :
    Sign.ofBitVec (@UnpackedFloat.unpackSign .binary64 x.toBits.toBitVec) = sign x := by
  have hlt := x.toBits.toNat_lt
  have hsign : (@UnpackedFloat.unpackSign .binary64 x.toBits.toBitVec).toNat = x.toBits.toNat / 2 ^ 63 := by
    change (x.toBits.toBitVec.extractLsb 63 63).toNat = _
    rw [BitVec.extractLsb_toNat, UInt64.toNat_toBitVec, Nat.shiftRight_eq_div_pow]
    omega
  have hzero : x.toBits.toNat / 2 ^ 63 = 0 ↔ x.toBits.toNat < 2 ^ 63 := by omega
  simp only [Sign.ofBitVec, sign, ← BitVec.toNat_inj, hsign, BitVec.toNat_ofNat, Nat.zero_mod, hzero]

/-- The magnitude of a finite double with a sign put to it. -/
def signed (x : Float) (s : Sign) : UnpackedFloat :=
  if exponentBits x = 0 then
    if h : fractionBits x = 0 then .zero s else .finite s (fractionBits x) (-1074) (Nat.pos_of_ne_zero h)
  else .finite s (2 ^ 52 + fractionBits x) (exponentBits x - 1075) (by omega)

theorem unpack_eq_signed {x : Float} (h : exponentBits x ≠ 2047) : x.toModel.unpack = signed x (sign x) := by
  have hmantissa := unpackMantissa_toNat x
  have hexponent := unpackExponent_toNat x
  have hfull : (1#1 ++ @UnpackedFloat.unpackMantissa .binary64 x.toBits.toBitVec).toNat = 2 ^ 52 + fractionBits x := by
    rw [BitVec.toNat_append, hmantissa, ← Nat.shiftLeft_add_eq_or_of_lt (fractionBits_lt x)]
    rfl
  have htop : @UnpackedFloat.unpackExponent .binary64 x.toBits.toBitVec ≠ -1#11 := by
    rw [ne_eq, ← BitVec.toNat_inj, hexponent]
    exact h
  have hzero : @UnpackedFloat.unpackExponent .binary64 x.toBits.toBitVec = 0#11 ↔ exponentBits x = 0 := by
    rw [← BitVec.toNat_inj, hexponent]
    rfl
  have hnone : @UnpackedFloat.unpackMantissa .binary64 x.toBits.toBitVec = 0#52 ↔ fractionBits x = 0 := by
    rw [← BitVec.toNat_inj, hmantissa]
    rfl
  have hbias : ((Format.binary64.exponentBias : Int) + Format.binary64.mantissaBitsWithoutImplicit) = 1075 := rfl
  change UnpackedFloat.unpack .binary64 x.toBits.toBitVec = _
  rw [← ofBitVec_unpackSign]
  unfold UnpackedFloat.unpack signed
  change (if @UnpackedFloat.unpackExponent .binary64 x.toBits.toBitVec = -1#11 then _ else _) = _
  rw [if_neg htop]
  by_cases hE : exponentBits x = 0
  · rw [if_pos (hzero.2 hE), if_pos hE]
    by_cases hM : fractionBits x = 0
    · rw [dif_pos (hnone.2 hM), dif_pos hM]
    · rw [dif_neg (mt hnone.1 hM), dif_neg hM]
      rw [UnpackedFloat.finite.injEq]
      exact ⟨rfl, hmantissa, by rw [hexponent, hE]; rfl⟩
  · rw [if_neg (mt hzero.1 hE), if_neg hE]
    rw [UnpackedFloat.finite.injEq]
    exact ⟨rfl, hfull, by rw [hexponent, hbias]⟩

end Unpack

theorem signed_eq (x : Float) :
    (magnitude x = 0 ∧ ∀ s, signed x s = .zero s) ∨
      magnitude x ≠ 0 ∧ ∃ m e hm, ∀ s, signed x s = .finite s m e hm := by
  have hx := magnitude_eq x
  by_cases hE : exponentBits x = 0
  · by_cases hM : fractionBits x = 0
    · exact .inl ⟨by omega, fun s => by rw [signed, if_pos hE, dif_pos hM]⟩
    · exact .inr ⟨by omega, fractionBits x, _, Nat.pos_of_ne_zero hM, fun s => by rw [signed, if_pos hE, dif_neg hM]⟩
  · exact .inr ⟨by omega, 2 ^ 52 + fractionBits x, _, by omega, fun s => by rw [signed, if_neg hE]⟩

theorem signed_neg (x : Float) (s : Sign) : (signed x s).neg = signed x (-s) := by
  rcases signed_eq x with ⟨-, hs⟩ | ⟨-, m, e, hm, hs⟩
  · rw [hs, hs]
    rfl
  · rw [hs, hs]
    rfl

theorem toNat_packComponents (s : Sign) (e : BitVec 11) (m : BitVec 52) :
    (UnpackedFloat.packComponents .binary64 s e m).toNat = s.toBitVec.toNat * 2 ^ 63 + e.toNat * 2 ^ 52 + m.toNat := by
  unfold UnpackedFloat.packComponents
  rw [BitVec.toNat_append, BitVec.toNat_append, ← Nat.shiftLeft_add_eq_or_of_lt m.isLt,
    ← Nat.shiftLeft_add_eq_or_of_lt e.isLt, Nat.shiftLeft_eq, Nat.shiftLeft_eq]
  ring

theorem pack_signed {x : Float} (h : exponentBits x ≠ 2047) (s : Sign) :
    (UnpackedFloat.pack .binary64 (signed x s)).toNat = s.toBitVec.toNat * 2 ^ 63 + magnitude x := by
  have hM := fractionBits_lt x
  have hE := exponentBits_lt x
  rw [magnitude_eq, signed]
  by_cases hE' : exponentBits x = 0
  · rw [if_pos hE', hE']
    by_cases hM' : fractionBits x = 0
    · rw [dif_pos hM', hM']
      exact (toNat_packComponents s 0 0).trans (by simp)
    · rw [dif_neg hM']
      have hlog : (fractionBits x).log2 < 52 := (Nat.log2_lt hM').2 hM
      unfold UnpackedFloat.pack
      change (if (2048 : Nat) ≤ 1 + 1 then _ else if (fractionBits x).log2 + 1 = 53 then _ else _ : BitVec 64).toNat = _
      rw [if_neg (by decide), if_neg (by omega)]
      exact (toNat_packComponents s 0 _).trans (by simpa using hM)
  · rw [if_neg hE']
    have hlog : (2 ^ 52 + fractionBits x).log2 = 52 := by
      rw [Nat.log2_eq_iff (by omega)]
      omega
    have hbiased : ((exponentBits x : Int) - 1075 + 1023 + 52).toNat = exponentBits x := by omega
    unfold UnpackedFloat.pack
    change (if (2048 : Nat) ≤ ((exponentBits x : Int) - 1075 + 1023 + 52).toNat + 1 then _ else
      if (2 ^ 52 + fractionBits x).log2 + 1 = 53 then _ else _ : BitVec 64).toNat = _
    rw [if_neg (by omega), if_pos (by omega)]
    refine (toNat_packComponents s (BitVec.ofNat 11 ((exponentBits x : Int) - 1075 + 1023 + 52).toNat) _).trans ?_
    rw [hbiased, BitVec.toNat_ofNat, BitVec.toNat_ofNat, Nat.add_mod_left, Nat.mod_eq_of_lt hM, Nat.mod_eq_of_lt hE,
      Nat.add_assoc]

/-- The top exponent is that of the infinities, which have no fraction, and of what is no number. -/
theorem unpack_of_top {x : Float} (h : exponentBits x = 2047) :
    fractionBits x = 0 ∧ x.toModel.unpack = .infinity (sign x) ∨ x.toModel.unpack = .notANumber := by
  have htop : @UnpackedFloat.unpackExponent .binary64 x.toBits.toBitVec = -1#11 := by
    rw [← BitVec.toNat_inj, unpackExponent_toNat, h]
    rfl
  have hnone : @UnpackedFloat.unpackMantissa .binary64 x.toBits.toBitVec = 0#52 ↔ fractionBits x = 0 := by
    rw [← BitVec.toNat_inj, unpackMantissa_toNat]
    rfl
  change _ ∧ UnpackedFloat.unpack .binary64 x.toBits.toBitVec = _ ∨
    UnpackedFloat.unpack .binary64 x.toBits.toBitVec = _
  rw [← hnone, ← ofBitVec_unpackSign]
  unfold UnpackedFloat.unpack
  change _ ∧ (if @UnpackedFloat.unpackExponent .binary64 x.toBits.toBitVec = -1#11 then _ else _) = _ ∨
    (if @UnpackedFloat.unpackExponent .binary64 x.toBits.toBitVec = -1#11 then _ else _) = _
  rw [if_pos htop]
  split
  · next hfraction => exact .inl ⟨hfraction, rfl⟩
  · exact .inr rfl

theorem exponentBits_ne_of_isFinite {x : Float} (h : x.isFinite = true) : exponentBits x ≠ 2047 := by
  intro hE
  have h : x.toModel.unpack.isFinite = true := h
  rcases unpack_of_top hE with ⟨-, hs⟩ | hs
  · rw [hs] at h
    cases h
  · rw [hs] at h
    cases h

section Sign

variable {x : Float}

theorem toNat_toBits_neg (h : exponentBits x ≠ 2047) :
    (-x).toBits.toNat = (-(sign x)).toBitVec.toNat * 2 ^ 63 + magnitude x := by
  rw [← pack_signed h, ← signed_neg, ← unpack_eq_signed h]
  rfl

theorem magnitude_lt (x : Float) : magnitude x < 2 ^ 63 := Nat.mod_lt _ (by decide)

theorem magnitude_neg (h : exponentBits x ≠ 2047) : magnitude (-x) = magnitude x := by
  have hlt := magnitude_lt x
  rw [magnitude, toNat_toBits_neg h, Nat.mul_add_mod_self_right, Nat.mod_eq_of_lt hlt]

theorem sign_neg (h : exponentBits x ≠ 2047) : sign (-x) = -(sign x) := by
  have hlt := magnitude_lt x
  conv_lhs => rw [sign, toNat_toBits_neg h]
  cases sign x with
  | positive => exact if_neg (by change ¬ (1 * 2 ^ 63 + magnitude x < 2 ^ 63); omega)
  | negative => exact if_pos (by change 0 * 2 ^ 63 + magnitude x < 2 ^ 63; omega)

theorem unpack_zero : (0.0 : Float).toModel.unpack = .zero .positive := by
  rw [unpack_eq_signed (by decide)]
  rfl

/-- A finite double is compared with zero by its magnitude and its sign. -/
theorem compare_zero (h : exponentBits x ≠ 2047) :
    x.toModel.unpack.compare (0.0 : Float).toModel.unpack =
      some (if magnitude x = 0 then .eq else match sign x with | .negative => .lt | .positive => .gt) := by
  rw [unpack_zero, unpack_eq_signed h]
  rcases signed_eq x with ⟨hm, hs⟩ | ⟨hm, m, e, hpos, hs⟩
  · rw [hs, if_pos hm]
    rfl
  · rw [hs, if_neg hm]
    cases sign x <;> rfl

theorem lt_zero_iff (h : exponentBits x ≠ 2047) :
    Float.lt x 0.0 = true ↔ sign x = .negative ∧ magnitude x ≠ 0 := by
  change decide ((x.toModel.unpack.compare (0.0 : Float).toModel.unpack == some .lt) = true) = true ↔ _
  rw [decide_eq_true_iff, compare_zero h]
  by_cases hm : magnitude x = 0 <;> cases sign x <;> simp [hm]

theorem beq_zero_iff (h : exponentBits x ≠ 2047) : (x == 0.0) = true ↔ magnitude x = 0 := by
  change (x.toModel.unpack.compare (0.0 : Float).toModel.unpack == some .eq) = true ↔ _
  rw [compare_zero h]
  by_cases hm : magnitude x = 0 <;> cases sign x <;> simp [hm]

end Sign

section Order

/-- Comparing the other way round gives the other answer. -/
theorem compare_swap (a b : UnpackedFloat) : b.compare a = (a.compare b).map Ordering.swap := by
  have hthen (m k : Nat) (e f : Int) :
      (compare f e).then (compare k m) = ((compare e f).then (compare m k)).swap := by
    rw [Ordering.swap_then, ← Std.OrientedCmp.eq_swap, ← Std.OrientedCmp.eq_swap]
  rcases a with s | _ | s | ⟨s, m, e, hm⟩ <;> rcases b with t | _ | t | ⟨t, k, f, hk⟩ <;>
    try cases s <;> try cases t
  all_goals try rfl
  · exact congrArg (some <| Ordering.swap ·) (hthen m k e f)
  · exact congrArg some (hthen m k e f)

theorem isSome_compare {a b : UnpackedFloat} (ha : a.isNaN = false) (hb : b.isNaN = false) :
    (a.compare b).isSome = true := by
  cases a with
  | notANumber => cases ha
  | infinity s | zero s | finite s m e hm =>
    cases b with
    | notANumber => cases hb
    | infinity t | zero t | finite t k f hk => cases s <;> cases t <;> rfl

theorem le_eq_not_lt {x y : Float} (hx : x.isNaN = false) (hy : y.isNaN = false) :
    Float.le y x = !Float.lt x y := by
  have hle : Float.le y x = (y.toModel.unpack.compare x.toModel.unpack).any (·.isLE) := Bool.decide_coe _
  have hlt : Float.lt x y = (x.toModel.unpack.compare y.toModel.unpack == some .lt) := Bool.decide_coe _
  obtain ⟨o, ho⟩ := Option.isSome_iff_exists.1 (isSome_compare hx hy)
  rw [hle, hlt, compare_swap, ho]
  cases o <;> rfl

theorem isNaN_of_exponentBits_ne {x : Float} (h : exponentBits x ≠ 2047) : x.isNaN = false := by
  change x.toModel.unpack.isNaN = false
  rw [unpack_eq_signed h]
  rcases signed_eq x with ⟨-, hs⟩ | ⟨-, m, e, hm, hs⟩
  · rw [hs]
    rfl
  · rw [hs]
    rfl

theorem abs_signed (x : Float) (s : Sign) : (signed x s).abs = signed x .positive := by
  rcases signed_eq x with ⟨-, hs⟩ | ⟨-, m, e, hm, hs⟩
  · rw [hs, hs]
    rfl
  · rw [hs, hs]
    rfl

theorem isNaN_abs {x : Float} (h : x.isNaN = false) : x.abs.isNaN = false := by
  by_cases hE : exponentBits x = 2047
  · obtain ⟨-, hs⟩ := (unpack_of_top hE).resolve_right fun hnone => by
      have h : x.toModel.unpack.isNaN = false := h
      rw [hnone] at h
      cases h
    have habs : x.abs = ⟨Float.Model.pack (.infinity .positive)⟩ := by
      change (⟨Float.Model.pack x.toModel.unpack.abs⟩ : Float) = _
      rw [hs]
      rfl
    rw [habs]
    decide
  · have hbits : x.abs.toBits.toNat = magnitude x := by
      have hpack := pack_signed hE .positive
      rw [← abs_signed x (sign x), ← unpack_eq_signed hE] at hpack
      exact hpack.trans (Nat.zero_add _)
    apply isNaN_of_exponentBits_ne
    rw [exponentBits, magnitude, hbits, Nat.mod_eq_of_lt (magnitude_lt x)]
    exact hE

end Order

section Magnitude

theorem ofFloat_eq (x : Float) :
    Binary.ofFloat x = if exponentBits x = 0 then ⟨fractionBits x, -1074, false⟩
      else ⟨2 ^ 52 + fractionBits x, exponentBits x - 1075, fractionBits x == 0 && decide (1 < exponentBits x)⟩ := by
  have hE : ((x.toBits >>> 52) &&& 0x7FF).toNat = exponentBits x := by
    have hmask := Nat.and_two_pow_sub_one_eq_mod (x.toBits.toNat >>> 52) 11
    simp only [UInt64.toNat_and, UInt64.toNat_shiftRight]
    refine Eq.trans hmask ?_
    unfold exponentBits magnitude
    rw [Nat.shiftRight_eq_div_pow]
    omega
  have hM : (x.toBits &&& 0xFFFFFFFFFFFFF).toNat = fractionBits x := by
    have hmask := Nat.and_two_pow_sub_one_eq_mod x.toBits.toNat 52
    simp only [UInt64.toNat_and]
    refine Eq.trans hmask ?_
    unfold fractionBits magnitude
    omega
  simp only [Binary.ofFloat, Binary.ofBits, hE, hM, Nat.pow_eq]

theorem normal_ofFloat (x : Float) : (Binary.ofFloat x).Normal := by
  have hM := fractionBits_lt x
  rw [ofFloat_eq]
  split
  · exact ⟨by simp only; omega, by simp, by simp, by simp⟩
  · refine ⟨by simp only; omega, by simp only; omega, fun _ => by simp only; omega, ?_⟩
    simp only [Bool.and_eq_true, beq_iff_eq, decide_eq_true_eq]
    omega

theorem magnitude_eq_of_ofFloat {x y : Float} (h : Binary.ofFloat x = Binary.ofFloat y) :
    magnitude x = magnitude y := by
  have hx := fractionBits_lt x
  have hy := fractionBits_lt y
  rw [magnitude_eq, magnitude_eq]
  rw [ofFloat_eq, ofFloat_eq] at h
  split at h <;> split at h <;> simp only [Binary.mk.injEq] at h <;> omega

theorem ofFloat_congr {x y : Float} (h : magnitude x = magnitude y) : Binary.ofFloat x = Binary.ofFloat y := by
  have hE : exponentBits x = exponentBits y := by rw [exponentBits, exponentBits, h]
  have hM : fractionBits x = fractionBits y := by rw [fractionBits, fractionBits, h]
  rw [ofFloat_eq, ofFloat_eq, hE, hM]

end Magnitude

/-- The text of a positive double is that of its magnitude. -/
theorem floatText_eq {x : Float} (h : exponentBits x ≠ 2047) (hs : sign x = .positive) :
    floatText x = (Binary.ofFloat x).shortest.text := by
  have hunpack := unpack_eq_signed h
  have hnan : x.isNaN = false := by
    rw [Float.isNaN, Float.Model.isNaN, hunpack]
    rcases signed_eq x with ⟨-, hs⟩ | ⟨-, m, e, hm, hs⟩ <;> rw [hs] <;> rfl
  have hinf : x.isInf = false := by
    rw [Float.isInf, Float.Model.isInf, hunpack]
    rcases signed_eq x with ⟨-, hs⟩ | ⟨-, m, e, hm, hs⟩ <;> rw [hs] <;> rfl
  have htop : (x.toBits >>> 63 == 1) = false := by
    have hlt : x.toBits.toNat < 2 ^ 63 := by
      by_contra hge
      rw [sign, if_neg hge] at hs
      cases hs
    rw [beq_eq_false_iff_ne, ne_eq, ← UInt64.toNat_inj, UInt64.toNat_shiftRight]
    change ¬ x.toBits.toNat >>> 63 = 1
    rw [Nat.shiftRight_eq_div_pow]
    omega
  simp only [floatText, hnan, hinf, htop, Bool.false_eq_true, if_false]

theorem magnitudeText_eq {x : Float} (h : x.isFinite = true) :
    Literal.magnitudeText x = (Binary.ofFloat x).shortest.text := by
  have hE := exponentBits_ne_of_isFinite h
  have hlt := lt_zero_iff hE
  by_cases hm : magnitude x = 0
  · have hlt : Float.lt x 0.0 = false := by simp [← Bool.not_eq_true, hlt, hm]
    have hshort : (Binary.ofFloat x).shortest = ⟨0, 0⟩ := by
      have hx := magnitude_eq x
      rw [ofFloat_eq, if_pos (by omega), Binary.shortest, if_pos (by simp only; omega)]
    have hzero := (beq_zero_iff hE).2 hm
    rw [hshort]
    change (if (if Float.lt x 0.0 then -x else x) == 0.0 then "0" else _) = _
    rw [hlt, if_neg Bool.false_ne_true, if_pos hzero]
    rfl
  · have hpos : ∃ y, (if Float.lt x 0.0 then -x else x) = y ∧ magnitude y = magnitude x ∧ sign y = .positive := by
      cases hs : sign x with
      | negative =>
          rw [if_pos (hlt.2 ⟨hs, hm⟩)]
          exact ⟨-x, rfl, magnitude_neg hE, by rw [sign_neg hE, hs]; rfl⟩
      | positive =>
          rw [if_neg (by simp [hlt, hs])]
          exact ⟨x, rfl, rfl, hs⟩
    obtain ⟨y, hy, hmag, hsign⟩ := hpos
    have hE' : exponentBits y ≠ 2047 := by rwa [exponentBits, hmag]
    have hzero : (y == 0.0) = false := by
      rw [← Bool.not_eq_true, beq_zero_iff hE', hmag]
      exact hm
    change (if (if Float.lt x 0.0 then -x else x) == 0.0 then "0"
      else floatText (if Float.lt x 0.0 then -x else x)) = _
    rw [hy, hzero, if_neg Bool.false_ne_true, floatText_eq hE' hsign, ofFloat_congr hmag]

instance : Literal.Legible Float where
  magnitude_ne x hx := by
    rw [magnitudeText_eq hx]
    exact Decimal.text_ne_nil _
  magnitude_chars x hx := by
    rw [magnitudeText_eq hx]
    exact fun c hc => Decimal.text_chars hc
  eq_of_magnitude x y hx hy hlt h := by
    have hEx := exponentBits_ne_of_isFinite hx.1
    have hEy := exponentBits_ne_of_isFinite hy.1
    rw [magnitudeText_eq hx.1, magnitudeText_eq hy.1] at h
    have hmag := magnitude_eq_of_ofFloat (Binary.eq_of_shortest_text (normal_ofFloat x) (normal_ofFloat y) h)
    by_cases hm : magnitude x = 0
    · have hx0 : x = 0 := hx.2 ((beq_zero_iff hEx).2 hm)
      have hy0 : y = 0 := hy.2 ((beq_zero_iff hEy).2 (hmag ▸ hm))
      rw [hx0, hy0]
    · refine eq_of_sign_of_magnitude ?_ hmag
      have hlt : Float.lt x 0.0 = true ↔ Float.lt y 0.0 = true := by
        rw [show Float.lt x 0.0 = Float.lt y 0.0 from hlt]
      simpa [lt_zero_iff hEx, lt_zero_iff hEy, hm, hmag ▸ hm] using hlt

theorem eq_of_compare_finite {s t : Sign} {m k : Nat} {e f : Int} {hm : 0 < m} {hk : 0 < k}
    (h : (UnpackedFloat.finite s m e hm).compare (.finite t k f hk) = some .eq) : s = t ∧ m = k ∧ e = f := by
  have hthen {m k : Nat} {e f : Int} (h : (compare e f).then (compare m k) = .eq) : m = k ∧ e = f := by
    rw [Ordering.then_eq_eq, Std.compare_eq_iff_eq, Std.compare_eq_iff_eq] at h
    exact h.symm
  cases s <;> cases t
  · have h : ((compare e f).then (compare m k)).swap = .eq := Option.some.inj h
    obtain ⟨rfl, rfl⟩ := hthen (Ordering.swap_eq_eq.1 h)
    exact ⟨rfl, rfl, rfl⟩
  · cases h
  · cases h
  · obtain ⟨rfl, rfl⟩ := hthen (Option.some.inj h)
    exact ⟨rfl, rfl, rfl⟩

/-- Finite doubles that are neither less nor greater have the same bits, or are both zero. -/
theorem eq_or_zeros_of_beq {x y : Float} (hx : exponentBits x ≠ 2047) (hy : exponentBits y ≠ 2047)
    (h : (x == y) = true) : x = y ∨ magnitude x = 0 ∧ magnitude y = 0 := by
  have h : (x.toModel.unpack.compare y.toModel.unpack == some .eq) = true := h
  rw [beq_iff_eq, unpack_eq_signed hx, unpack_eq_signed hy] at h
  rcases signed_eq x with ⟨hxm, hxs⟩ | ⟨-, m, e, hm, hxs⟩ <;> rcases signed_eq y with ⟨hym, hys⟩ | ⟨-, k, f, hk, hys⟩
  · exact .inr ⟨hxm, hym⟩
  · rw [hxs, hys] at h
    cases hs : sign y <;> rw [hs] at h <;> cases h
  · rw [hxs, hys] at h
    cases hs : sign x <;> rw [hs] at h <;> cases h
  · rw [hxs, hys] at h
    obtain ⟨hsign, rfl, rfl⟩ := eq_of_compare_finite h
    have hpack : (UnpackedFloat.pack .binary64 (signed x .positive)).toNat =
        (UnpackedFloat.pack .binary64 (signed y .positive)).toNat := by rw [hxs, hys]
    rw [pack_signed hx, pack_signed hy] at hpack
    exact .inl (eq_of_sign_of_magnitude (by rw [hsign]) (Nat.add_left_cancel hpack))

section Equality

variable {x y z : Float}

theorem beq_iff : (x == y) = true ↔ x.toModel.unpack.compare y.toModel.unpack = some .eq := by
  change (x.toModel.unpack.compare y.toModel.unpack == some .eq) = true ↔ _
  exact beq_iff_eq

theorem exists_unpack_of_beq_zero (h : (x == 0) = true) : ∃ s, x.toModel.unpack = .zero s := by
  change (x.toModel.unpack.compare (0.0 : Float).toModel.unpack == some .eq) = true at h
  rw [unpack_zero] at h
  cases hx : x.toModel.unpack with
  | infinity s | finite s =>
      rw [hx] at h
      cases s <;> exact absurd h Bool.false_ne_true
  | notANumber =>
      rw [hx] at h
      exact absurd h Bool.false_ne_true
  | zero s => exact ⟨s, rfl⟩

theorem beq_of_zeros (hx : (x == 0) = true) (hy : (y == 0) = true) : (x == y) = true := by
  obtain ⟨s, hs⟩ := exists_unpack_of_beq_zero hx
  obtain ⟨t, ht⟩ := exists_unpack_of_beq_zero hy
  rw [beq_iff, hs, ht]
  rfl

theorem beq_symm (h : (x == y) = true) : (y == x) = true := by
  rw [beq_iff] at h ⊢
  rw [compare_swap, h]
  rfl

theorem eq_of_beq_of_top (hx : exponentBits x = 2047) (h : (x == y) = true) : x = y := by
  rw [beq_iff] at h
  rcases unpack_of_top hx with ⟨hfraction, hsx⟩ | hsx
  · by_cases hy : exponentBits y = 2047
    · rcases unpack_of_top hy with ⟨hfraction', hsy⟩ | hsy
      · rw [hsx, hsy] at h
        have hsign : sign x = sign y := by
          cases hs : sign x <;> cases ht : sign y <;> rw [hs, ht] at h <;> first | rfl | cases h
        exact eq_of_sign_of_magnitude (by rw [hsign]) (by rw [magnitude_eq, magnitude_eq y, hx, hy, hfraction, hfraction'])
      · rw [hsx, hsy] at h
        cases h
    · rw [hsx, unpack_eq_signed hy] at h
      rcases signed_eq y with ⟨-, hys⟩ | ⟨-, m, e, hm, hys⟩
      · rw [hys] at h
        cases hs : sign x <;> rw [hs] at h <;> cases h
      · rw [hys] at h
        cases hs : sign x <;> rw [hs] at h <;> cases h
  · rw [hsx] at h
    cases h

theorem eq_or_zeros (h : (x == y) = true) : x = y ∨ (x == 0) = true ∧ (y == 0) = true := by
  by_cases hx : exponentBits x = 2047
  · exact .inl (eq_of_beq_of_top hx h)
  · by_cases hy : exponentBits y = 2047
    · exact .inl (eq_of_beq_of_top hy (beq_symm h)).symm
    · exact (eq_or_zeros_of_beq hx hy h).imp id fun hzero => ⟨(beq_zero_iff hx).2 hzero.1, (beq_zero_iff hy).2 hzero.2⟩

instance partialEquivBEq : PartialEquivBEq Float where
  symm := beq_symm
  trans {x y z} h h' := by
    obtain rfl | ⟨hx, -⟩ := eq_or_zeros h
    · exact h'
    · obtain rfl | ⟨-, hz⟩ := eq_or_zeros h'
      · exact h
      · exact beq_of_zeros hx hz

instance lawfulHashable : @LawfulHashable Float _ Literal.toHashable where
  hash_eq x y h := by
    obtain rfl | ⟨hx, hy⟩ := eq_or_zeros h
    · rfl
    · exact (if_pos hx).trans (if_pos hy).symm

end Equality

instance : Literal.Zeros Float where
  finite_zero := by decide
  zero_beq := by decide
  not_negative x hx h := by
    have hE := exponentBits_ne_of_isFinite hx
    have hzero := (beq_zero_iff hE).1 h
    have hlt : ¬ Float.lt x 0.0 = true := fun hlt => ((lt_zero_iff hE).1 hlt).2 hzero
    exact eq_false_of_ne_true hlt
  eq_or_zeros _ _ _ _ h := eq_or_zeros h

end FlowShader.Double
