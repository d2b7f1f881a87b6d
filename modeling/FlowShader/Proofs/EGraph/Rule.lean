import Mathlib.Tactic.FieldSimp
import FlowShader.EGraph.Rule
import FlowShader.Proofs.Expr.Value

namespace FlowShader

section Numbers

variable {L : Type}

/-- The number that a formula gives for numbers in place of its variables. -/
noncomputable def Expr.numberAt (literal : L → ℝ) (f : String → ℝ) : Expr L → ℝ
  | .literal x => literal x
  | .constant c => c.value
  | .var v => f v
  | .call g a => g.apply (a.numberAt literal f)
  | .call₂ g a b => g.apply (a.numberAt literal f) (b.numberAt literal f)
  | .op o a b => o.apply (a.numberAt literal f) (b.numberAt literal f)

namespace Rule

variable (literal : L → ℝ) (f : String → ℝ) (p q : Expr L) (name : String)

@[simp] theorem numberAt_v : (v name : Expr L).numberAt literal f = f name := rfl

@[simp] theorem numberAt_plus : (plus p q).numberAt literal f = p.numberAt literal f + q.numberAt literal f := rfl

@[simp] theorem numberAt_minus : (minus p q).numberAt literal f = p.numberAt literal f - q.numberAt literal f := rfl

@[simp] theorem numberAt_times : (times p q).numberAt literal f = p.numberAt literal f * q.numberAt literal f := rfl

@[simp] theorem numberAt_quotient :
    (quotient p q).numberAt literal f = p.numberAt literal f / q.numberAt literal f := rfl

@[simp] theorem numberAt_power :
    (power p q).numberAt literal f = Operator.pow.apply (p.numberAt literal f) (q.numberAt literal f) := rfl

@[simp] theorem numberAt_call (g : Func) : (Expr.call g p).numberAt literal f = g.apply (p.numberAt literal f) := rfl

end Rule

end Numbers

variable {L : Type} [Literal L]

namespace Expr

/-- All parts of a formula are in their domains. -/
def ProperAt (literal : L → ℝ) (f : String → ℝ) : Expr L → Prop
  | .literal x => Literal.isFinite x = true
  | .constant _ | .var _ => True
  | .call g a => a.ProperAt literal f ∧ g.Defined (a.numberAt literal f)
  | .call₂ _ a b => a.ProperAt literal f ∧ b.ProperAt literal f
  | .op o a b => a.ProperAt literal f ∧ b.ProperAt literal f ∧
      o.Defined (a.numberAt literal f) (b.numberAt literal f)

variable {literal : L → ℝ} {f : String → ℝ}

theorem hasValue_iff (e : Expr L) (x : ℝ) :
    e.HasValue ⟨literal, fun v => some (f v)⟩ x ↔ e.ProperAt literal f ∧ e.numberAt literal f = x := by
  constructor
  · intro h
    induction h with
    | literal h => exact ⟨h, rfl⟩
    | constant => exact ⟨trivial, rfl⟩
    | var h => exact ⟨trivial, Option.some.inj h⟩
    | call _ hg ih =>
        obtain ⟨ha, rfl⟩ := ih
        exact ⟨⟨ha, hg⟩, rfl⟩
    | call₂ _ _ iha ihb =>
        obtain ⟨ha, rfl⟩ := iha
        obtain ⟨hb, rfl⟩ := ihb
        exact ⟨⟨ha, hb⟩, rfl⟩
    | op _ _ ho iha ihb =>
        obtain ⟨ha, rfl⟩ := iha
        obtain ⟨hb, rfl⟩ := ihb
        exact ⟨⟨ha, hb, ho⟩, rfl⟩
  · rintro ⟨h, rfl⟩
    induction e with
    | literal y => exact .literal h
    | constant c => exact .constant
    | var v => exact .var rfl
    | call g a ih => exact .call (ih h.1) h.2
    | call₂ g a b iha ihb => exact .call₂ (iha h.1) (ihb h.2)
    | op o a b iha ihb => exact .op (iha h.1) (ihb h.2.1) h.2.2

end Expr

/-- What a condition says about the numbers that variables stand for. -/
def Condition.Meets (f : String → ℝ) : Condition → Prop
  | .whole vars => ∀ v ∈ vars, ∃ n : ℤ, f v = n
  | .known _ | .nonzero _ => True

namespace Rule

/-- The right-hand side has the value of the left-hand side. -/
def Sound (literal : L → ℝ) (r : Rule L) : Prop :=
  ∀ f : String → ℝ, r.condition.Meets f → r.lhs.ProperAt literal f →
    r.rhs.ProperAt literal f ∧ r.rhs.numberAt literal f = r.lhs.numberAt literal f

theorem names_subset : ∀ r ∈ (all : List (Rule L)), ∀ v ∈ r.rhs.names, v ∈ r.lhs.names := by
  simp [all, commutativity, identities, negation, collection, powers, association, trigonometry, plus, minus, times,
    quotient, power, opposite, v, Expr.names, Expr.zero, Expr.one, Expr.nat]

section Domains

variable (literal : L → ℝ) (f : String → ℝ) (p q : Expr L) (name : String)

@[simp] theorem properAt_v : (v name : Expr L).ProperAt literal f := trivial

@[simp] theorem properAt_plus : (plus p q).ProperAt literal f ↔ p.ProperAt literal f ∧ q.ProperAt literal f :=
  and_congr_right' (and_iff_left trivial)

@[simp] theorem properAt_minus : (minus p q).ProperAt literal f ↔ p.ProperAt literal f ∧ q.ProperAt literal f :=
  and_congr_right' (and_iff_left trivial)

@[simp] theorem properAt_times : (times p q).ProperAt literal f ↔ p.ProperAt literal f ∧ q.ProperAt literal f :=
  and_congr_right' (and_iff_left trivial)

@[simp] theorem properAt_quotient : (quotient p q).ProperAt literal f ↔
    p.ProperAt literal f ∧ q.ProperAt literal f ∧ q.numberAt literal f ≠ 0 := Iff.rfl

@[simp] theorem properAt_power : (power p q).ProperAt literal f ↔ p.ProperAt literal f ∧ q.ProperAt literal f ∧
    Operator.pow.Defined (p.numberAt literal f) (q.numberAt literal f) := Iff.rfl

@[simp] theorem properAt_call (g : Func) : (Expr.call g p).ProperAt literal f ↔
    p.ProperAt literal f ∧ g.Defined (p.numberAt literal f) := Iff.rfl

end Domains

variable {literal : L → ℝ} {f : String → ℝ}

theorem literals_at (h : Literal.Exact literal) (f : String → ℝ) :
    (Expr.zero.ProperAt literal f ∧ Expr.zero.numberAt literal f = 0) ∧
    (Expr.one.ProperAt literal f ∧ Expr.one.numberAt literal f = 1) ∧
    ((Expr.literal (-1)).ProperAt literal f ∧ (Expr.literal (-1)).numberAt literal f = -1) ∧
    (Expr.nat 2).ProperAt literal f ∧ (Expr.nat 2).numberAt literal f = 2 :=
  ⟨⟨h.finite_zero, h.zero⟩, ⟨h.finite_one, h.one⟩, ⟨h.finite_negOne, h.negOne⟩, h.finite_ofNat 2,
    by exact_mod_cast h.ofNat 2⟩

theorem commutativity_sound : ∀ r ∈ (commutativity : List (Rule L)), r.Sound literal := by
  simp only [commutativity, List.forall_mem_cons, List.not_mem_nil, IsEmpty.forall_iff, implies_true, and_true]
  refine ⟨fun f _ _ => ?_, fun f _ _ => ?_⟩
  · simp [add_comm]
  · simp [mul_comm]

theorem identities_sound (h : Literal.Exact literal) : ∀ r ∈ (identities : List (Rule L)), r.Sound literal := by
  simp only [identities, List.forall_mem_cons, List.not_mem_nil, IsEmpty.forall_iff, implies_true, and_true]
  refine ⟨fun f _ _ => ?_, fun f _ _ => ?_, fun f _ _ => ?_, fun f _ _ => ?_, fun f _ _ => ?_, fun f _ _ => ?_,
    fun f _ _ => ?_, fun f _ hlhs => ?_⟩
  · simp [literals_at h f]
  · simp [literals_at h f]
  · simp [literals_at h f]
  · simp [literals_at h f]
  · simp [literals_at h f]
  · simp [literals_at h f]
  · simp [literals_at h f]
  · have ha : f "a" ≠ 0 := by simpa using hlhs
    simp [literals_at h f, ha]

theorem negation_sound (h : Literal.Exact literal) : ∀ r ∈ (negation : List (Rule L)), r.Sound literal := by
  simp only [negation, opposite, List.forall_mem_cons, List.not_mem_nil, IsEmpty.forall_iff, implies_true, and_true]
  refine ⟨fun f _ _ => ?_, fun f _ _ => ?_, fun f _ hlhs => ?_, fun f _ _ => ?_, fun f _ _ => ?_, fun f _ _ => ?_,
    fun f _ _ => ?_, fun f _ hlhs => ?_⟩
  · simp [literals_at h f]
  · simp [literals_at h f]
  · have hb : f "b" ≠ 0 := by simpa [literals_at h f] using hlhs
    simp [literals_at h f, hb]
  · simp [literals_at h f]
  · simp [literals_at h f, sub_eq_add_neg]
  · simp [literals_at h f]
  · simp [literals_at h f]
  · have hb : f "b" ≠ 0 := by simpa [literals_at h f] using hlhs
    simp [literals_at h f, hb, neg_div]

theorem collection_sound (h : Literal.Exact literal) : ∀ r ∈ (collection : List (Rule L)), r.Sound literal := by
  simp only [collection, List.forall_mem_cons, List.not_mem_nil, IsEmpty.forall_iff, implies_true, and_true]
  refine ⟨fun f _ _ => ?_, fun f _ _ => ?_, fun f _ _ => ?_, fun f _ hlhs => ?_, fun f _ hlhs => ?_⟩
  · simp [literals_at h f, two_mul]
  · simp [mul_add]
  · simp [mul_sub]
  · have hc : f "c" ≠ 0 := by simpa using hlhs
    simp [hc, add_div]
  · have hc : f "c" ≠ 0 := by simpa using hlhs
    simp [hc, sub_div]

theorem powers_sound (h : Literal.Exact literal) : ∀ r ∈ (powers : List (Rule L)), r.Sound literal := by
  have hone (x : ℝ) : Operator.pow.Defined x 1 ∧ Operator.pow.apply x 1 = x :=
    ⟨by exact_mod_cast Operator.pow_defined_natCast x 1, Real.rpow_one x⟩
  have htwo (x : ℝ) : Operator.pow.Defined x 2 ∧ Operator.pow.apply x 2 = x * x :=
    ⟨by exact_mod_cast Operator.pow_defined_natCast x 2, (Real.rpow_two x).trans (sq x)⟩
  simp only [powers, List.forall_mem_cons, List.not_mem_nil, IsEmpty.forall_iff, implies_true, and_true]
  refine ⟨fun f _ _ => ?_, fun f _ _ => ?_, fun f _ _ => ?_, fun f _ hlhs => ?_, fun f _ hlhs => ?_,
    fun f _ hlhs => ?_, fun f hwhole hlhs => ?_, fun f _ hlhs => ?_, fun f _ hlhs => ?_⟩
  · simp [literals_at h f, hone]
  · have hzero : Operator.pow.apply (f "a") 0 = 1 := Real.rpow_zero _
    simp [literals_at h f, hzero]
  · simp [literals_at h f, htwo]
  · have hb : Operator.pow.Defined (f "a") (f "b") := by simpa using hlhs
    obtain ⟨hdom, heq⟩ := Operator.pow_add hb (hone (f "a")).1
    simp [literals_at h f, hdom, heq, hone]
  · have hbc : Operator.pow.Defined (f "a") (f "b") ∧ Operator.pow.Defined (f "a") (f "c") := by simpa using hlhs
    obtain ⟨hdom, heq⟩ := Operator.pow_add hbc.1 hbc.2
    simp [hdom, heq]
  · have hb : Operator.pow.Defined (f "a") (f "b") ∧ f "a" ≠ 0 := by simpa using hlhs
    obtain ⟨hdom, heq⟩ := Operator.pow_sub_one hb.2 hb.1
    simp [literals_at h f, hdom, heq]
  · obtain ⟨m, hm⟩ := hwhole "b" (by simp)
    obtain ⟨n, hn⟩ := hwhole "c" (by simp)
    have hbc : Operator.pow.Defined (f "a") m ∧ Operator.pow.Defined (Operator.pow.apply (f "a") m) n := by
      simpa [hm, hn] using hlhs
    obtain ⟨hdom, heq⟩ := Operator.pow_mul hbc.1 hbc.2
    simp [hm, hn, hdom, heq]
  · have ha : 0 ≤ f "a" := by simpa [literals_at h f, htwo, Func.Defined] using hlhs
    have hsqrt : Func.sqrt.apply (f "a") * Func.sqrt.apply (f "a") = f "a" := Real.mul_self_sqrt ha
    simp [literals_at h f, htwo, hsqrt]
  · have ha : 0 ≤ f "a" := by simpa [Func.Defined] using hlhs
    have hsqrt : Func.sqrt.apply (f "a") * Func.sqrt.apply (f "a") = f "a" := Real.mul_self_sqrt ha
    simp [hsqrt]

theorem association_sound : ∀ r ∈ (association : List (Rule L)), r.Sound literal := by
  simp only [association, List.forall_mem_cons, List.not_mem_nil, IsEmpty.forall_iff, implies_true, and_true]
  refine ⟨fun f _ _ => ?_, fun f _ _ => ?_, fun f _ hlhs => ?_⟩
  · simp [mul_assoc]
  · simp [add_assoc]
  · have hd : f "d" ≠ 0 := by simpa using hlhs
    simp [hd, div_mul_eq_mul_div]

theorem trigonometry_sound (h : Literal.Exact literal) : ∀ r ∈ (trigonometry : List (Rule L)), r.Sound literal := by
  have htwo (x : ℝ) : Operator.pow.apply x 2 = x ^ 2 := Real.rpow_two x
  simp only [trigonometry, opposite, List.forall_mem_cons, List.not_mem_nil, IsEmpty.forall_iff, implies_true,
    and_true]
  refine ⟨fun f _ _ => ?_, fun f _ _ => ?_, fun f _ _ => ?_⟩
  · have hcircle : Func.cos.apply (f "a") ^ 2 + Func.sin.apply (f "a") ^ 2 = 1 := Real.cos_sq_add_sin_sq _
    simp [literals_at h f, htwo, hcircle]
  · have hodd : Func.sin.apply (-f "a") = -Func.sin.apply (f "a") := Real.sin_neg _
    simp [literals_at h f, Func.Defined, hodd]
  · have heven : Func.cos.apply (-f "a") = Func.cos.apply (f "a") := Real.cos_neg _
    simp [literals_at h f, Func.Defined, heven]

theorem all_sound (h : Literal.Exact literal) : ∀ r ∈ (all : List (Rule L)), r.Sound literal := by
  simp only [all, List.forall_mem_append]
  exact ⟨⟨⟨⟨⟨⟨commutativity_sound, identities_sound h⟩, negation_sound h⟩, collection_sound h⟩, powers_sound h⟩,
    association_sound⟩, trigonometry_sound h⟩

end Rule

end FlowShader
