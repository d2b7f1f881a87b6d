import FlowShader.Proofs.Except
import FlowShader.Proofs.Expr.Derivative

namespace FlowShader.Expr

variable {L : Type} [Literal L] {ρ ρ' : Valuation L ℝ} {e : Expr L} {v : String} {n : Nat} {names : List String}

section Constants

theorem HasValue.contains_eq_false {c : ℝ} (h : e.HasValue ρ c) (hv : ρ.binding v = none) : e.contains v = false := by
  induction h with
  | literal | constant => rfl
  | @var w z hw =>
      refine beq_eq_false_iff_ne.2 ?_
      rintro rfl
      rw [hv] at hw
      cases hw
  | call _ _ ih => exact ih
  | call₂ _ _ iha ihb | op _ _ _ iha ihb => exact Bool.or_eq_false_iff.2 ⟨iha, ihb⟩

omit [Literal L] in
theorem Smooth.of_not_contains (h : e.contains v = false) : e.Smooth v := by
  induction e with
  | literal | constant | var => exact trivial
  | call f a ih => exact ⟨.inr h, ih h⟩
  | call₂ f a b iha ihb =>
      obtain ⟨ha, hb⟩ := Bool.or_eq_false_iff.1 h
      exact ⟨.inr ⟨ha, hb⟩, iha ha, ihb hb⟩
  | op o a b iha ihb =>
      obtain ⟨ha, hb⟩ := Bool.or_eq_false_iff.1 h
      exact ⟨iha ha, ihb hb⟩

omit [Literal L] in
theorem Smooth.roughCalls_eq_nil (h : e.Smooth v) : e.roughCalls v = [] := by
  simp only [roughCalls, List.eq_nil_iff_forall_not_mem, mem_sortNames]
  rw [← List.eq_nil_iff_forall_not_mem, List.filterMap_eq_nil_iff]
  induction e with
  | literal | constant | var => simp [subtrees]
  | call f a ih =>
      simp only [subtrees, List.forall_mem_cons]
      exact ⟨by simpa [or_iff_not_imp_left] using h.1, ih h.2⟩
  | call₂ f a b iha ihb =>
      simp only [subtrees, List.forall_mem_cons, List.forall_mem_append]
      exact ⟨by simpa [or_iff_not_imp_left] using h.1, iha h.2.1, ihb h.2.2⟩
  | op o a b iha ihb =>
      simp only [subtrees, List.forall_mem_cons, List.forall_mem_append]
      exact ⟨trivial, iha h.1, ihb h.2⟩

variable [LawfulBEq L] (hfaithful : Literal.Faithful ρ.literal)
include hfaithful

theorem HasValue.derivative_zero {c : ℝ} (h : e.HasValue ρ c) (hv : e.contains v = false) :
    (e.derivative v).HasValue ρ 0 := by
  have hzero : (zero : Expr L).HasValue ρ 0 := hasValue_zero hfaithful
  induction h with
  | literal | constant => exact hzero
  | @var w z hw =>
      have hne : (w == v) = false := hv
      rw [derivative, hne]
      exact hzero
  | @call f a x _ _ ih =>
      have ha : a.contains v = false := hv
      rw [derivative, ha]
      exact hzero
  | @call₂ f a b _ _ _ _ _ _ =>
      have hderivative : (Expr.call₂ f a b).derivative v = zero := if_neg (ne_true_of_eq_false hv)
      rw [hderivative]
      exact hzero
  | @op o a b x y ha hb ho iha ihb =>
      obtain ⟨hav, hbv⟩ := Bool.or_eq_false_iff.1 hv
      have hda := iha hav
      have hdb := ihb hbv
      cases o with
      | add => simpa [derivative] using hda.add hfaithful hdb
      | sub => simpa [derivative] using hda.sub hfaithful hdb
      | mul => simpa [derivative] using (hda.mul hfaithful hb).add hfaithful (ha.mul hfaithful hdb)
      | div =>
          have hquotient := ((hda.mul hfaithful hb).sub hfaithful (ha.mul hfaithful hdb)).div hfaithful
            (hb.square hfaithful) (pow_ne_zero 2 ho)
          simpa [derivative] using hquotient
      | pow =>
          rw [derivative, powDerivative, hav, hbv]
          exact hzero
      | mod =>
          have hfloor := HasValue.call (f := .floor) (ha.div hfaithful hb ho) trivial
          simpa [derivative] using hda.sub hfaithful (hdb.mul hfaithful hfloor)

end Constants

/-- A sum of multiples of the named coordinates, with the coefficients `s`, and of the number `t`. Coefficients
are formulas without coordinates; `ρ` gives their values. -/
inductive Affine (ρ : Valuation L ℝ) (names : List String) : Expr L → (Fin n → ℝ) → ℝ → Prop
  | number {a : Expr L} {c : ℝ} : a.HasValue ρ c → Affine ρ names a 0 c
  | coordinate {i : Fin n} {v : String} : names[i.val]? = some v → Affine ρ names (var v) (Pi.single i 1) 0
  | add {a b : Expr L} {s s' : Fin n → ℝ} {t t' : ℝ} : Affine ρ names a s t → Affine ρ names b s' t' →
      Affine ρ names (op .add a b) (s + s') (t + t')
  | sub {a b : Expr L} {s s' : Fin n → ℝ} {t t' : ℝ} : Affine ρ names a s t → Affine ρ names b s' t' →
      Affine ρ names (op .sub a b) (s - s') (t - t')
  | mul {a b : Expr L} {c : ℝ} {s : Fin n → ℝ} {t : ℝ} : a.HasValue ρ c → Affine ρ names b s t →
      Affine ρ names (op .mul a b) (c • s) (c * t)
  | mul_number {a b : Expr L} {s : Fin n → ℝ} {t c : ℝ} : Affine ρ names a s t → b.HasValue ρ c →
      Affine ρ names (op .mul a b) (c • s) (c * t)
  | div {a b : Expr L} {s : Fin n → ℝ} {t c : ℝ} : Affine ρ names a s t → b.HasValue ρ c → c ≠ 0 →
      Affine ρ names (op .div a b) (c⁻¹ • s) (c⁻¹ * t)

/-- The valuation gives coordinates to the names, and further values to no others. -/
structure Places (ρ : Valuation L ℝ) (names : List String) (q : Fin n → ℝ) (ρ' : Valuation L ℝ) : Prop where
  literal : ρ'.literal = ρ.literal
  unbound : ∀ v ∈ names, ρ.binding v = none
  mono (v : String) (z : ℝ) : ρ.binding v = some z → ρ'.binding v = some z
  coordinate (i : Fin n) (v : String) : names[i.val]? = some v → ρ'.binding v = some (q i)

namespace Affine

variable {q s : Fin n → ℝ} {t : ℝ}

theorem smooth (h : Affine ρ names e s t) (hunbound : ∀ v ∈ names, ρ.binding v = none) (hv : v ∈ names) :
    e.Smooth v := by
  have hnumber {a : Expr L} {c : ℝ} (ha : a.HasValue ρ c) : a.Smooth v :=
    .of_not_contains (ha.contains_eq_false (hunbound v hv))
  induction h with
  | number ha => exact hnumber ha
  | coordinate => exact trivial
  | add _ _ iha ihb | sub _ _ iha ihb => exact ⟨iha, ihb⟩
  | mul ha _ ih => exact ⟨hnumber ha, ih⟩
  | mul_number _ hb ih | div _ hb _ ih => exact ⟨ih, hnumber hb⟩

variable (hplaces : Places ρ names q ρ')
include hplaces

theorem hasValue (h : Affine ρ names e s t) : e.HasValue ρ' (s ⬝ᵥ q + t) := by
  have hnumber {a : Expr L} {c : ℝ} (ha : a.HasValue ρ c) : a.HasValue ρ' c :=
    ha.mono hplaces.literal fun v _ => hplaces.mono v
  induction h with
  | number ha =>
      rw [zero_dotProduct, zero_add]
      exact hnumber ha
  | coordinate hi =>
      rw [single_one_dotProduct, add_zero]
      exact .var (hplaces.coordinate _ _ hi)
  | @add a b s s' t t' _ _ iha ihb =>
      have hvalue : (s + s') ⬝ᵥ q + (t + t') = Operator.add.apply (s ⬝ᵥ q + t) (s' ⬝ᵥ q + t') := by
        rw [add_dotProduct]
        exact add_add_add_comm _ _ _ _
      exact hvalue ▸ .op iha ihb trivial
  | @sub a b s s' t t' _ _ iha ihb =>
      have hvalue : (s - s') ⬝ᵥ q + (t - t') = Operator.sub.apply (s ⬝ᵥ q + t) (s' ⬝ᵥ q + t') := by
        rw [sub_dotProduct]
        exact (add_sub_add_comm _ _ _ _).symm
      exact hvalue ▸ .op iha ihb trivial
  | @mul a b c s t ha _ ih =>
      have hvalue : (c • s) ⬝ᵥ q + c * t = Operator.mul.apply c (s ⬝ᵥ q + t) := by
        rw [smul_dotProduct, smul_eq_mul]
        exact (mul_add _ _ _).symm
      exact hvalue ▸ .op (hnumber ha) ih trivial
  | @mul_number a b s t c _ hb ih =>
      have hvalue : (c • s) ⬝ᵥ q + c * t = Operator.mul.apply (s ⬝ᵥ q + t) c := by
        rw [smul_dotProduct, smul_eq_mul, ← mul_add]
        exact mul_comm _ _
      exact hvalue ▸ .op ih (hnumber hb) trivial
  | @div a b s t c _ hb hc ih =>
      have hvalue : (c⁻¹ • s) ⬝ᵥ q + c⁻¹ * t = Operator.div.apply (s ⬝ᵥ q + t) c := by
        rw [smul_dotProduct, smul_eq_mul, ← mul_add]
        exact (div_eq_inv_mul _ _).symm
      exact hvalue ▸ .op ih (hnumber hb) hc

theorem derivative_hasValue [LawfulBEq L] (hfaithful : Literal.Faithful ρ.literal) (hnodup : names.Nodup)
    (h : Affine ρ names e s t) {j : Fin n} (hj : names[j.val]? = some v) : (e.derivative v).HasValue ρ' (s j) := by
  have hfaithful' : Literal.Faithful ρ'.literal := hplaces.literal ▸ hfaithful
  have hv : v ∈ names := List.mem_of_getElem? hj
  have hnumber {a : Expr L} {c : ℝ} (ha : a.HasValue ρ c) : a.HasValue ρ' c ∧ (a.derivative v).HasValue ρ' 0 := by
    have ha' : a.HasValue ρ' c := ha.mono hplaces.literal fun v _ => hplaces.mono v
    exact ⟨ha', ha'.derivative_zero hfaithful' (ha.contains_eq_false (hplaces.unbound v hv))⟩
  induction h with
  | number ha => exact (hnumber ha).2
  | @coordinate i w hi =>
      rw [derivative]
      by_cases hij : j = i
      · subst hij
        obtain rfl := Option.some.inj (hi.symm.trans hj)
        rw [beq_self_eq_true, Pi.single_eq_same]
        exact hasValue_one hfaithful'
      · have hne : (w == v) = false := by
          refine beq_eq_false_iff_ne.2 ?_
          rintro rfl
          exact hij (Fin.ext ((List.getElem?_inj (List.getElem?_eq_some_iff.1 hj).1 hnodup).1 (hj.trans hi.symm)))
        rw [hne, Pi.single_eq_of_ne hij]
        exact hasValue_zero hfaithful'
  | add _ _ iha ihb => exact iha.add hfaithful' ihb
  | sub _ _ iha ihb => exact iha.sub hfaithful' ihb
  | mul ha hb ih =>
      have hproduct := ((hnumber ha).2.mul hfaithful' (hb.hasValue hplaces)).add hfaithful'
        ((hnumber ha).1.mul hfaithful' ih)
      simpa [derivative] using hproduct
  | @mul_number a b s t c ha hb ih =>
      have hproduct := (ih.mul hfaithful' (hnumber hb).1).add hfaithful'
        ((ha.hasValue hplaces).mul hfaithful' (hnumber hb).2)
      simpa [derivative, mul_comm] using hproduct
  | @div a b s t c ha hb hc ih =>
      -- The derivative is a quotient by the square of the divisor, whose own derivative is zero.
      have hvalue : c⁻¹ * s j = (s j * c - (s ⬝ᵥ q + t) * 0) / c ^ 2 := by
        field_simp
        ring
      have hquotient := ((ih.mul hfaithful' (hnumber hb).1).sub hfaithful'
        ((ha.hasValue hplaces).mul hfaithful' (hnumber hb).2)).div hfaithful' ((hnumber hb).1.square hfaithful')
        (pow_ne_zero 2 hc)
      rwa [← hvalue] at hquotient

end Affine

def AffineField (ρ : Valuation L ℝ) (names : List String) (es : List (Expr L)) (A : Fin n → Fin n → ℝ)
    (b : Fin n → ℝ) : Prop :=
  List.Forall₂ (fun e i => Affine ρ names e (A i) (b i)) es (List.finRange n)

namespace AffineField

variable {es : List (Expr L)} {A : Fin n → Fin n → ℝ} {b q : Fin n → ℝ}

theorem smooth (h : AffineField ρ names es A b) (hunbound : ∀ v ∈ names, ρ.binding v = none) :
    ∀ e ∈ es, ∀ v ∈ names, e.Smooth v := by
  intro e he v hv
  obtain ⟨i, -, hi⟩ := exists_of_mem_forall₂ h.flip he
  exact hi.smooth hunbound hv

theorem affine (h : AffineField ρ names es A b) {i : Fin n} (hi : es[i.val]? = some e) :
    Affine ρ names e (A i) (b i) := by
  obtain ⟨hlt, rfl⟩ := List.getElem?_eq_some_iff.1 hi
  simpa using h.get hlt (by simp)

variable (hplaces : Places ρ names q ρ')
include hplaces

theorem hasValue (h : AffineField ρ names es A b) :
    List.Forall₂ (HasValue ρ') es (List.ofFn ((Matrix.of A).mulVec q + b)) := by
  rw [List.ofFn_eq_map, List.forall₂_map_right_iff]
  exact h.imp fun _ _ he => he.hasValue hplaces

end AffineField

end FlowShader.Expr
