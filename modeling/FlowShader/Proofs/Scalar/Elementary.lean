import Mathlib.Data.Countable.Basic
import Mathlib.Logic.Equiv.List
import Mathlib.Tactic.DeriveCountable
import Std.Data.String.ToNat
import FlowShader.Proofs.Expr.Text
import FlowShader.Proofs.Scalar.Real

namespace FlowShader

instance countableChar : Countable Char := Function.Injective.countable fun _ _ h => Char.toNat_inj.1 h

instance countableString : Countable String := Function.Injective.countable fun _ _ h => String.toList_inj.1 h

deriving instance Countable for Constant, Func, BiFunc, Operator, Expr

/-- A real number that a formula over natural numbers denotes. -/
def Elementary : Type := { x : ℝ // ∃ e : Expr ℕ, e.eval ⟨Nat.cast, fun _ => none⟩ = .ok x }

namespace Elementary

def toReal (x : Elementary) : ℝ := x.val

theorem toReal_injective {x y : Elementary} (h : x.toReal = y.toReal) : x = y := Subtype.ext h

def ofNat (n : ℕ) : Elementary := ⟨n, .literal n, rfl⟩

noncomputable def constant (c : Constant) : Elementary := ⟨c.value, .constant c, rfl⟩

noncomputable def call (f : Func) (x : Elementary) : Elementary :=
  ⟨f.apply x.toReal, by
    obtain ⟨a, ha⟩ := x.property
    exact ⟨.call f a, by rw [Expr.eval, ha]; rfl⟩⟩

noncomputable def call₂ (f : BiFunc) (x y : Elementary) : Elementary :=
  ⟨f.apply x.toReal y.toReal, by
    obtain ⟨a, ha⟩ := x.property
    obtain ⟨b, hb⟩ := y.property
    exact ⟨.call₂ f a b, by rw [Expr.eval, ha, hb]; rfl⟩⟩

noncomputable def op (o : Operator) (x y : Elementary) : Elementary :=
  ⟨o.apply x.toReal y.toReal, by
    obtain ⟨a, ha⟩ := x.property
    obtain ⟨b, hb⟩ := y.property
    exact ⟨.op o a b, by rw [Expr.eval, ha, hb]; rfl⟩⟩

noncomputable instance : Scalar Elementary where
  add := op .add
  sub := op .sub
  mul := op .mul
  div := op .div
  neg := op .sub (ofNat 0)
  zero := ofNat 0
  one := ofNat 1
  pow := op .pow
  pi := constant .pi
  e := constant .e
  sin := call .sin
  cos := call .cos
  tan := call .tan
  asin := call .asin
  acos := call .acos
  atan := call .atan
  atan2 := call₂ .atan2
  sinh := call .sinh
  cosh := call .cosh
  tanh := call .tanh
  exp := call .exp
  log := call .log
  log2 := call .log2
  sqrt := call .sqrt
  abs := call .abs
  floor := call .floor
  ceil := call .ceil
  min := call₂ .min
  max := call₂ .max
  lt x y := Scalar.lt x.toReal y.toReal
  le x y := Scalar.le x.toReal y.toReal

instance : Countable Elementary := by
  have hchoice (x : Elementary) : ∃ e : Expr ℕ, e.eval ⟨Nat.cast, fun _ => none⟩ = .ok x.toReal := x.property
  choose formula hformula using hchoice
  refine Function.Injective.countable (f := formula) fun x y h => toReal_injective ?_
  have hx := hformula x
  rw [h, hformula y, Except.ok.injEq] at hx
  exact hx.symm

/-- A number for each elementary number. -/
noncomputable def code : Elementary → ℕ := (Countable.exists_injective_nat Elementary).choose

theorem code_injective : Function.Injective code := (Countable.exists_injective_nat Elementary).choose_spec

open Classical in
noncomputable instance : Literal Elementary where
  beq x y := decide (x = y)
  hash _ := 0
  ofDecimal d := op .mul (ofNat d.digits) (op .pow (ofNat 10) (op .sub (ofNat d.exponent.toNat) (ofNat (-d.exponent).toNat)))
  isFinite _ := true
  isNaN _ := false
  isWhole x := decide (∃ n : ℤ, x.toReal = n)
  text x := toString (code x + 1)

instance : LawfulBEq Elementary where
  rfl := by simp [BEq.beq]
  eq_of_beq h := by simpa [BEq.beq] using h

theorem toReal_neg (x : Elementary) : (-x).toReal = -x.toReal := by
  change Operator.sub.apply ((0 : ℕ) : ℝ) x.toReal = _
  simp [Operator.apply]

theorem toReal_sign (x : Elementary) : (Scalar.sign x).toReal = Scalar.sign x.toReal := by
  have hzero : (0 : Elementary).toReal = 0 := Nat.cast_zero
  have hone : (1 : Elementary).toReal = 1 := Nat.cast_one
  unfold Scalar.sign
  change (if Scalar.lt (0 : Elementary).toReal x.toReal then (1 : Elementary)
    else if Scalar.lt x.toReal (0 : Elementary).toReal then -1 else 0).toReal = _
  rw [hzero]
  split
  · exact hone
  · split
    · rw [toReal_neg, hone]
    · exact hzero

/-- Computing with elementary numbers is exact. -/
theorem exact_toReal : Literal.Exact toReal where
  zero := Nat.cast_zero
  one := Nat.cast_one
  negOne := by rw [toReal_neg]; exact congrArg _ Nat.cast_one
  ofNat n := by
    have hpow : ((10 : ℕ) : ℝ) ^ (((0 : ℕ) : ℝ) - ((0 : ℕ) : ℝ)) = 1 := by simp
    change (n : ℝ) * ((10 : ℕ) : ℝ) ^ (((0 : ℕ) : ℝ) - ((0 : ℕ) : ℝ)) = n
    rw [hpow, mul_one]
  finite_zero := rfl
  finite_one := rfl
  finite_negOne := rfl
  finite_ofNat _ := rfl
  constant c := by cases c <;> rfl
  func f x _ _ _ := by
    cases f with
    | sign | normalize => exact toReal_sign x
    | _ => rfl
  biFunc f x y _ _ _ := by cases f <;> rfl
  operator o x y _ _ _ _ := by cases o <;> rfl
  whole x hx := by simpa [Literal.isWhole] using hx

theorem faithful_toReal : Literal.Faithful toReal where
  toExact := exact_toReal
  finite _ := rfl
  neg := toReal_neg
  decimal d := by
    have hexponent : (d.exponent.toNat : ℝ) - ((-d.exponent).toNat : ℝ) = (d.exponent : ℤ) := by
      exact_mod_cast Int.toNat_sub_toNat_neg d.exponent
    change (d.digits : ℝ) * ((10 : ℕ) : ℝ) ^ ((d.exponent.toNat : ℝ) - ((-d.exponent).toNat : ℝ)) = _
    rw [hexponent, Real.rpow_intCast, Nat.cast_ofNat]

open Classical in
/-- The number that is written for an elementary number. -/
noncomputable def label (x : Elementary) : ℕ := if x = 0 then 0 else code x + 1

theorem label_injective {x y : Elementary} (h : label x = label y) : x = y := by
  unfold label at h
  split at h <;> split at h
  · simp_all
  · cases h
  · cases h
  · exact code_injective (Nat.succ.inj h)

theorem literalText_eq (x : Elementary) : Expr.literalText x = toString (label x) := by
  by_cases hx : x = 0
  · simp [Expr.literalText, label, hx]
    rfl
  · simp [Expr.literalText, label, hx, Literal.text]

instance : Literal.Legible Elementary where
  magnitude_ne x _ := by
    rw [Literal.magnitudeText, literalText_eq, Nat.toString_eq_repr, Nat.toList_repr]
    simp
  magnitude_chars x _ := by
    rw [Literal.magnitudeText, literalText_eq, Nat.toString_eq_repr, Nat.toList_repr]
    exact fun c hc => .inl (Nat.isDigit_of_mem_toDigits (by decide) (by decide) hc)
  eq_of_magnitude x y _ _ hlt h := by
    rw [Literal.magnitudeText, Literal.magnitudeText, literalText_eq, literalText_eq, hlt] at h
    have heq := label_injective (Nat.repr_injective h)
    split at heq
    · apply toReal_injective
      have hneg := congrArg toReal heq
      rwa [toReal_neg, toReal_neg, neg_inj] at hneg
    · exact heq

theorem lt_ofPlaces (k : ℕ) : Scalar.lt 0 (Literal.ofPlaces 1 k : Elementary) = true := by
  have hvalue := faithful_toReal.decimal ⟨1, -(k : ℤ)⟩
  change decide (toReal 0 < toReal _) = true
  rw [decide_eq_true_eq, faithful_toReal.zero, Literal.ofPlaces, hvalue]
  positivity

end Elementary

end FlowShader
