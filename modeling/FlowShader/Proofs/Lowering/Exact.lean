import FlowShader.Proofs.Scalar.Real
import FlowShader.Proofs.Expr.Names
import FlowShader.Proofs.Expr.Text
import FlowShader.Proofs.Expr.Value
import FlowShader.Proofs.Lowering.Meaning

namespace FlowShader

variable {L : Type} [Literal L]

theorem Literal.Faithful.interprets {literal : L → ℝ} (h : Literal.Faithful literal) :
    Literal.Interprets literal :=
  ⟨h.one, h.negOne, h.constant⟩

theorem Literal.Faithful.ofInt {literal : L → ℝ} (h : Literal.Faithful literal) (k : ℤ) :
    literal (Literal.ofInt k) = k := by
  unfold Literal.ofInt
  split
  · next hneg => rw [h.neg, h.ofNat, Nat.cast_natAbs, abs_of_neg hneg, Int.cast_neg, neg_neg]
  · next hpos => rw [h.ofNat, Nat.cast_natAbs, abs_of_nonneg (not_lt.1 hpos)]

namespace Expr

section Powers

theorem repeated_eq_pow (x : ℝ) {n : ℕ} (hn : 0 < n) : repeated x n = x ^ n := by
  have hfold (indices : List ℕ) (y : ℝ) :
      indices.foldl (fun acc _ => acc * x) y = y * x ^ indices.length := by
    induction indices generalizing y with
    | nil => simp
    | cons i indices ih => rw [List.foldl_cons, ih, List.length_cons, pow_succ', mul_assoc]
  rw [repeated, hfold, List.length_range, ← pow_succ', Nat.sub_add_cancel hn]

theorem wholePower_eq_zpow (x : ℝ) {k : ℤ} (hk : k ≠ 0) : wholePower x k = x ^ k := by
  have hpos : 0 < k.natAbs := Int.natAbs_pos.2 hk
  unfold wholePower
  split
  · next hneg =>
      rw [repeated_eq_pow x hpos, one_div, ← zpow_natCast, Int.natCast_natAbs, abs_of_neg hneg, zpow_neg,
        inv_inv]
  · next hnonneg => rw [repeated_eq_pow x hpos, ← zpow_natCast, Int.natCast_natAbs, abs_of_nonneg (not_lt.1 hnonneg)]

variable [LawfulBEq L] {ρ : Valuation L ℝ} {a b : Expr L} {x y : ℝ}

theorem productExponent?_value (hfaithful : Literal.Faithful ρ.literal) {o : Operator} {k : ℤ}
    (h : productExponent? o b = some k) :
    o = .pow ∧ k ≠ 0 ∧ ∃ z, b = literal z ∧ ρ.literal z = k := by
  unfold productExponent? at h
  split at h
  · next z =>
      have hfound := List.find?_some h
      have hz : z = Literal.ofInt k := eq_of_beq hfound
      have hmem : k ∈ productExponents := List.mem_of_find?_eq_some h
      refine ⟨rfl, ?_, z, rfl, by rw [hz, hfaithful.ofInt]⟩
      rintro rfl
      exact absurd hmem (by decide)
  · cases h

theorem meaning_op (hfaithful : Literal.Faithful ρ.literal) {clamp : Bool} {o : Operator}
    (ha : a.meaning clamp ρ = .ok x) (hb : b.meaning clamp ρ = .ok y) :
    (op o a b).meaning clamp ρ = .ok (o.apply x y) := by
  rw [meaning, ha]
  cases hk : productExponent? o b with
  | none =>
      rw [hb]
      rfl
  | some k =>
      obtain ⟨rfl, hzero, z, rfl, hz⟩ := productExponent?_value hfaithful hk
      obtain rfl : y = k := by
        rw [meaning, Except.ok.injEq] at hb
        rw [← hb, hz]
      rw [Operator.pow_intCast, ← wholePower_eq_zpow x hzero]
      rfl

end Powers

variable [LawfulBEq L] {ρ : Valuation L ℝ} {e : Expr L} {x : ℝ}

theorem guarded_of_defined {f : Func} (h : f.Defined x) (clamp : Bool) : guarded clamp f x = x := by
  unfold guarded
  split
  · next hclamp =>
      obtain ⟨hlow, hhigh⟩ : -1 ≤ x ∧ x ≤ 1 := by
        rcases Bool.or_eq_true_iff.1 (Bool.and_eq_true_iff.1 hclamp).2 with hf | hf
        · obtain rfl := eq_of_beq hf
          exact h
        · obtain rfl := eq_of_beq hf
          exact h
      change min (max x (-1)) 1 = x
      rw [max_eq_left hlow, min_eq_left hhigh]
  · rfl

/-- Where a formula is defined, its lowered form has its value. -/
theorem HasValue.meaning (hfaithful : Literal.Faithful ρ.literal) (h : e.HasValue ρ x) (clamp : Bool) :
    e.meaning clamp ρ = .ok x := by
  induction h with
  | literal _ | constant => rfl
  | var h => rw [Expr.meaning, h]
  | call _ hf ih =>
      rw [Expr.meaning, ih]
      exact congrArg (fun y => Except.ok (Func.apply _ y)) (guarded_of_defined hf clamp)
  | call₂ _ _ iha ihb =>
      rw [Expr.meaning, iha, ihb]
      rfl
  | op _ _ _ iha ihb => exact meaning_op hfaithful iha ihb

theorem powersAreProducts {literal : L → ℝ} (hfaithful : Literal.Faithful literal) (e : Expr L) :
    e.PowersAreProducts literal := by
  intro a z k _ hk x
  have hk : productExponent? .pow (.literal z) = some k := hk
  obtain ⟨-, hzero, w, hw, hvalue⟩ := productExponent?_value (ρ := ⟨literal, fun _ => none⟩) hfaithful hk
  obtain rfl : z = w := Expr.literal.inj hw
  rw [wholePower_eq_zpow x hzero, ← Operator.pow_intCast]
  exact congrArg (Scalar.pow x) hvalue

/-- Formulas over identifiers can be read off their texts. -/
theorem Over.legible {names : List String} (hfinite : ∀ x : L, Literal.isFinite x = true)
    (hnames : ∀ v ∈ names, Token.isIdentifier v = true) (h : e.Over names) : e.Legible := by
  induction e with
  | literal x => exact ⟨hfinite x, fun h => eq_of_beq h⟩
  | constant => trivial
  | var v => exact hnames v (over_var.1 h)
  | call f a ih => exact ih h
  | call₂ f a b iha ihb => exact ⟨iha (over_call₂.1 h).1, ihb (over_call₂.1 h).2⟩
  | op o a b iha ihb => exact ⟨iha (over_op.1 h).1, ihb (over_op.1 h).2⟩

end Expr

end FlowShader
