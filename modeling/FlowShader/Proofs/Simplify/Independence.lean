import Mathlib.Analysis.Analytic.IsolatedZeros
import FlowShader.Proofs.EGraph.Evaluation
import FlowShader.Proofs.Expr.Derivative
import FlowShader.Proofs.Scalar.Whole
import FlowShader.Proofs.Simplify

namespace FlowShader

open Filter Topology

variable {L : Type} {ρ : Valuation L ℝ} {x : String} {t : ℝ}

theorem Valuation.update_eq_self (hx : ρ.binding x = some t) : ρ.update x t = ρ := by
  rw [Valuation.update, ← hx, Function.update_eq_self]

namespace Expr

open EGraph

variable [Literal L] {e r : Expr L}

section Points

/-- Around `t` the formula is defined as a function of `x`, and at `t` it is continuous. -/
def Continues (ρ : Valuation L ℝ) (x : String) (t : ℝ) (e : Expr L) : Prop :=
  ∃ f : ℝ → ℝ, (∀ᶠ s in 𝓝 t, e.HasValue (ρ.update x s) (f s)) ∧ ContinuousAt f t

theorem HasTangent.continues {y d : ℝ} (h : HasTangent ρ x t e y d) : Continues ρ x t e := by
  obtain ⟨f, hvalue, _, hderiv⟩ := h
  exact ⟨f, hvalue, hderiv.continuousAt⟩

theorem Continues.sameValue (hx : ρ.binding x = some t) (he : Continues ρ x t e) (hr : Continues ρ x t r)
    (hnear : ∃ᶠ s in 𝓝 t, SameValue (ρ.update x s) e r) : SameValue ρ e r := by
  obtain ⟨f, hf, hcontf⟩ := he
  obtain ⟨k, hk, hcontk⟩ := hr
  have hequal : f t = k t := by
    by_contra hne
    refine hnear ?_
    filter_upwards [hf, hk, hcontf.ne_iff_eventually_ne hcontk |>.1 hne] with s hfs hks hs
    rintro ⟨y, hy, hy'⟩
    exact hs ((hfs.unique hy).trans (hy'.unique hks))
  have hft := hf.self_of_nhds
  have hkt := hk.self_of_nhds
  rw [Valuation.update_eq_self hx] at hft hkt
  exact ⟨f t, hft, hequal ▸ hkt⟩

/-- Throughout `U` the formula is defined and analytic as a function of `x`. -/
def Analytic (ρ : Valuation L ℝ) (x : String) (U : Set ℝ) (e : Expr L) : Prop :=
  ∃ f : ℝ → ℝ, (∀ s ∈ U, e.HasValue (ρ.update x s) (f s)) ∧ AnalyticOnNhd ℝ f U

theorem Analytic.var_self (ρ : Valuation L ℝ) (x : String) (U : Set ℝ) : Analytic ρ x U (.var x) :=
  ⟨fun s => s, fun s _ => .var (ρ.binding_update_self x s), analyticOnNhd_id⟩

theorem Analytic.sameValue {U : Set ℝ} (hopen : IsOpen U) (hconn : IsPreconnected U) (hx : ρ.binding x = some t)
    (ht : t ∈ U) (he : Analytic ρ x U e) (hr : Analytic ρ x U r) {t₀ : ℝ} (ht₀ : t₀ ∈ U)
    (hnear : ∃ᶠ s in 𝓝[≠] t₀, SameValue (ρ.update x s) e r) : SameValue ρ e r := by
  obtain ⟨f, hf, hanf⟩ := he
  obtain ⟨k, hk, hank⟩ := hr
  have hinside : ∀ᶠ s in 𝓝[≠] t₀, s ∈ U := nhdsWithin_le_nhds (hopen.mem_nhds ht₀)
  have hfrequently : ∃ᶠ s in 𝓝[≠] t₀, f s = k s := by
    refine (hnear.and_eventually hinside).mono ?_
    rintro s ⟨⟨y, hy, hy'⟩, hs⟩
    exact ((hf s hs).unique hy).trans (hy'.unique (hk s hs))
  have hequal : f t = k t := hanf.eqOn_of_preconnected_of_frequently_eq hank hconn ht₀ hfrequently ht
  have hft := hf t ht
  have hkt := hk t ht
  rw [Valuation.update_eq_self hx] at hft hkt
  exact ⟨f t, hft, hequal ▸ hkt⟩

theorem SameValue.of_agree {ρ' : Valuation L ℝ} (h : SameValue ρ' e r) (hl : ρ'.literal = ρ.literal)
    (hnames : ∀ v ∈ e.names ++ r.names, ρ'.binding v = ρ.binding v) : SameValue ρ e r := by
  obtain ⟨y, he, hr⟩ := h
  refine ⟨y, he.mono hl.symm fun v hv z hz => ?_, hr.mono hl.symm fun v hv z hz => ?_⟩
  · rw [← hnames v (List.mem_append_left _ hv), hz]
  · rw [← hnames v (List.mem_append_right _ hv), hz]

theorem simplifyAll_getElem?_sameValue [LawfulBEq L] (hexact : Literal.Exact ρ.literal) {es : List (Expr L)}
    (hes : ∀ e ∈ es, ∃ y, e.HasValue ρ y) {effort : Effort} {i : Nat} (he : es[i]? = some e)
    (hr : (simplifyAll es effort)[i]? = some r) : SameValue ρ e r := by
  obtain ⟨hi, rfl⟩ := List.getElem?_eq_some_iff.1 he
  obtain ⟨hi', rfl⟩ := List.getElem?_eq_some_iff.1 hr
  exact (simplifyAll_sameValue hexact hes effort).get hi hi'

end Points

/-- Formulas simplified together keep each its own value at a point, whatever becomes of the others there, if the others
have values somewhere: at a point that gives the same numbers to the variables of the formula and of what it becomes; at
points as near as one likes, and both are continuous; or near some number from which both continue analytically. -/
theorem simplifyAll_independent [LawfulBEq L] (ρ : Valuation L ℝ) (hexact : Literal.Exact ρ.literal)
    (es : List (Expr L)) (effort : Effort) :
    (simplifyAll es effort).length = es.length ∧
      ∀ (i : Nat) (e r : Expr L), es[i]? = some e → (simplifyAll es effort)[i]? = some r →
        (∀ ρ', ρ'.literal = ρ.literal → (∀ v ∈ e.names ++ r.names, ρ'.binding v = ρ.binding v) →
          (∀ e' ∈ es, ∃ y, e'.HasValue ρ' y) → SameValue ρ e r) ∧
        (∀ x t, ρ.binding x = some t → Continues ρ x t e → Continues ρ x t r →
          (∃ᶠ s in 𝓝 t, ∀ e' ∈ es, ∃ y, e'.HasValue (ρ.update x s) y) → SameValue ρ e r) ∧
        ∀ x t U, ρ.binding x = some t → IsOpen U → IsPreconnected U → t ∈ U → Analytic ρ x U e → Analytic ρ x U r →
          (∃ t₀ ∈ U, ∃ᶠ s in 𝓝[≠] t₀, ∀ e' ∈ es, ∃ y, e'.HasValue (ρ.update x s) y) → SameValue ρ e r := by
  refine ⟨length_simplifyAll es effort, fun i e r he hr => ⟨?_, ?_, ?_⟩⟩
  · intro ρ' hl hnames hes
    exact (simplifyAll_getElem?_sameValue (hl ▸ hexact) hes he hr).of_agree hl hnames
  · intro x t hx hce hcr hnear
    refine hce.sameValue hx hcr (hnear.mono fun s hes => ?_)
    exact simplifyAll_getElem?_sameValue hexact hes he hr
  · rintro x t U hx hopen hconn ht hae har ⟨t₀, ht₀, hnear⟩
    refine hae.sameValue hopen hconn hx ht har ht₀ (hnear.mono fun s hes => ?_)
    exact simplifyAll_getElem?_sameValue hexact hes he hr

namespace Apart

def formulas : List (Expr Whole) := [.var "x", .var "y", .op .div .one (.call .sqrt (.var "y"))]

def entered : EGraph Whole where
  leader := #[0, 1, 2, 3, 4]
  values := #[none, none, some 1, none, none]
  uses := #[#[], #[(.call .sqrt 1, 3)], #[(.op .div 2 3, 4)], #[(.op .div 2 3, 4)], #[]]
  nodes := #[(.var "x", 0), (.var "y", 1), (.literal 1, 2), (.call .sqrt 1, 3), (.op .div 2 3, 4)]
  table := enterEntries {} [(.var "x", 0), (.var "y", 1), (.literal 1, 2), (.call .sqrt 1, 3), (.op .div 2 3, 4)]

theorem rebuild_enterAll : (enterAll {} formulas).1.rebuild = entered := by cbv

theorem simplifyAll_formulas : simplifyAll formulas {} = formulas := by
  have hclasses : (enterAll {} formulas).2 = formulas.zip [0, 1, 4] := by cbv
  have hquiet : entered.rebuild = entered := by cbv
  have hsize : entered.table.size ≤ ({} : Effort).nodes := (size_enterEntries_le _ _).trans (by decide)
  have hnone : searched {} Rule.all entered = [] := by cbv
  rw [simplifyAll_eq, if_neg (by decide), saturate_of_no_match rebuild_enterAll hquiet hsize hnone, hclasses]
  cbv

noncomputable def point (y : ℝ) : Valuation Whole ℝ :=
  (Valuation.update ⟨Whole.toReal, fun _ => none⟩ "x" 1).update "y" y

theorem formulas_defined {ρ : Valuation Whole ℝ} {x y : ℝ} (hx : ρ.binding "x" = some x) (hy : ρ.binding "y" = some y)
    (hpos : 0 < y) : ∀ e ∈ formulas, ∃ z, e.HasValue ρ z := by
  have hsqrt : (Expr.call .sqrt (.var "y") : Expr Whole).HasValue ρ (√y) := .call (.var hy) hpos.le
  simp only [formulas, List.forall_mem_cons, List.not_mem_nil, IsEmpty.forall_iff, implies_true, and_true]
  exact ⟨⟨x, .var hx⟩, ⟨y, .var hy⟩, ⟨_, .op (.literal rfl) hsqrt (Real.sqrt_pos.2 hpos).ne'⟩⟩

theorem inverse_undefined {y : ℝ} (hy : y ≤ 0) :
    ¬ ∃ z, (Expr.op .div .one (.call .sqrt (.var "y"))).HasValue (point y) z := by
  rintro ⟨z, hz⟩
  cases hz with
  | op _ hroot hne =>
      cases hroot with
      | call hvar hdefined =>
          obtain rfl := hvar.unique (.var rfl : (Expr.var "y").HasValue (point y) y)
          exact hne (Real.sqrt_eq_zero_of_nonpos hy)

end Apart

/-- Next to the inverse of `√y`, which has no value unless `y` is positive: `x` keeps its value as there are other `y`,
and `y` keeps its own, at zero by continuity and below zero by analytic continuation. -/
theorem simplifyAll_independent_root :
    (¬ ∃ z, (Expr.op .div .one (.call .sqrt (.var "y"))).HasValue (Apart.point 0) z) ∧
      (¬ ∃ z, (Expr.op .div .one (.call .sqrt (.var "y"))).HasValue (Apart.point (-1)) z) ∧
      (∃ r, (simplifyAll Apart.formulas {})[0]? = some r ∧ SameValue (Apart.point 0) (.var "x") r) ∧
      ∃ r, (simplifyAll Apart.formulas {})[1]? = some r ∧ SameValue (Apart.point 0) (.var "y") r ∧
        SameValue (Apart.point (-1)) (.var "y") r := by
  have hx : (simplifyAll Apart.formulas {})[0]? = some (.var "x") := by
    rw [Apart.simplifyAll_formulas]
    rfl
  have hy : (simplifyAll Apart.formulas {})[1]? = some (.var "y") := by
    rw [Apart.simplifyAll_formulas]
    rfl
  have hdefined (t : ℝ) {s : ℝ} (hs : 0 < s) : ∀ e ∈ Apart.formulas, ∃ z, e.HasValue ((Apart.point t).update "y" s) z :=
    Apart.formulas_defined rfl rfl hs
  obtain ⟨-, hzero⟩ := simplifyAll_independent (Apart.point 0) Whole.exact_toReal Apart.formulas {}
  obtain ⟨-, hneg⟩ := simplifyAll_independent (Apart.point (-1)) Whole.exact_toReal Apart.formulas {}
  refine ⟨Apart.inverse_undefined le_rfl, Apart.inverse_undefined (by norm_num), ⟨_, hx, ?_⟩, ⟨_, hy, ?_, ?_⟩⟩
  · refine (hzero 0 _ _ rfl hx).1 ((Apart.point 0).update "y" 1) rfl ?_ (hdefined 0 one_pos)
    simp [names, Valuation.update]
  · have hcontinues : Continues (Apart.point 0) "y" 0 (.var "y") := (HasTangent.var rfl rfl).continues
    have hnear : ∃ᶠ s in 𝓝[>] (0 : ℝ), s ∈ Set.Ioi 0 := eventually_mem_nhdsWithin.frequently
    refine (hzero 1 _ _ rfl hy).2.1 "y" 0 rfl hcontinues hcontinues ?_
    exact (hnear.filter_mono nhdsWithin_le_nhds).mono fun s hs => hdefined 0 hs
  · have hanalytic := Analytic.var_self (Apart.point (-1)) "y" Set.univ
    have hnear : ∀ᶠ s in 𝓝[≠] (1 : ℝ), 0 < s := nhdsWithin_le_nhds (lt_mem_nhds one_pos)
    refine (hneg 1 _ _ rfl hy).2.2 "y" (-1) Set.univ rfl isOpen_univ isPreconnected_univ trivial hanalytic hanalytic ?_
    exact ⟨1, trivial, (hnear.mono fun s hs => hdefined (-1) hs).frequently⟩

namespace Clash

def formulas : List (Expr Whole) :=
  [.op .mul .zero (.op .pow .zero (.literal (-1))), .op .mul (.op .pow .zero (.literal (-1))) .zero, .one]

def entered : EGraph Whole where
  leader := #[0, 1, 2, 3, 4, 5]
  values := #[some 0, some (-1), none, none, none, some 1]
  uses := #[#[(.op .pow 0 1, 2), (.op .mul 0 2, 3), (.op .mul 2 0, 4)], #[(.op .pow 0 1, 2)],
    #[(.op .mul 0 2, 3), (.op .mul 2 0, 4)], #[], #[], #[]]
  nodes := #[(.literal 0, 0), (.literal (-1), 1), (.op .pow 0 1, 2), (.op .mul 0 2, 3), (.op .mul 2 0, 4), (.literal 1, 5)]
  table := enterEntries {} [(.literal 0, 0), (.literal (-1), 1), (.op .pow 0 1, 2), (.op .mul 0 2, 3), (.op .mul 2 0, 4),
    (.literal 1, 5)]

theorem rebuild_enterAll : (enterAll {} formulas).1.rebuild = entered := by cbv

def swap : Rule Whole := { lhs := Rule.times (Rule.v "a") (Rule.v "b"), rhs := Rule.times (Rule.v "b") (Rule.v "a") }

def annihilate : Rule Whole := { lhs := Rule.times .zero (Rule.v "a"), rhs := .zero }

def raise : Rule Whole :=
  { lhs := Rule.times (Rule.power (Rule.v "a") (Rule.v "b")) (Rule.v "a"),
    rhs := Rule.power (Rule.v "a") (Rule.plus (Rule.v "b") .one), condition := .known ["b"] }

def found : List (Rule Whole × Array (Nat × Assignment)) :=
  [(swap, #[(3, [("b", 2), ("a", 0)]), (4, [("b", 0), ("a", 2)])]), (annihilate, #[(3, [("a", 2)])]),
    (raise, #[(4, [("b", 1), ("a", 0)])])]

theorem searched_entered : searched {} Rule.all entered = found := by cbv

def swapped : EGraph Whole := entered.union 3 4

def annihilated : EGraph Whole := swapped.union 3 0

def clashed : EGraph Whole where
  leader := #[0, 1, 2, 0, 0, 0, 0, 0]
  values := entered.values ++ #[some 0, some 1]
  uses := #[#[(.op .pow 0 1, 2), (.op .mul 0 2, 3), (.op .mul 2 0, 4), (.op .pow 0 0, 7), (.op .pow 0 0, 7), (.op .add 1 5, 6)],
    #[(.op .pow 0 1, 2), (.op .add 1 5, 6)], #[(.op .mul 0 2, 3), (.op .mul 2 0, 4)], #[], #[], #[(.op .add 1 5, 6)], #[], #[]]
  nodes := entered.nodes ++ #[(.op .add 1 5, 6), (.op .pow 0 0, 7)]
  table := enterEntries entered.table [(.op .add 1 5, 6), (.op .pow 0 0, 7)]
  stale := [(.op .add 1 5, 6)]

theorem size_entered : entered.table.size ≤ 6 := size_enterEntries_le _ _

theorem size_clashed : clashed.table.size ≤ 6 + 2 :=
  (size_enterEntries_le _ _).trans (Nat.add_le_add_right size_entered _)

theorem applyAll_found : applyAll {} found (entered, false) = (clashed, true) := by
  have hswap : [(3, [("b", 2), ("a", 0)]), (4, [("b", 0), ("a", 2)])].foldl (applyMatch swap) (entered, false) =
      (swapped, true) := by cbv
  have hannihilate : [(3, [("a", 2)])].foldl (applyMatch annihilate) (swapped, true) = (annihilated, true) := by cbv
  have hraise : [(4, [("b", 1), ("a", 0)])].foldl (applyMatch raise) (annihilated, true) = (clashed, true) := by cbv
  have hswapped : swapped.table.size ≤ 6 := table_union entered 3 4 ▸ size_entered
  have hannihilated : annihilated.table.size ≤ 6 := table_union swapped 3 0 ▸ hswapped
  rw [found, applyAll_cons hswap (hswapped.trans (by decide)), applyAll_cons hannihilate (hannihilated.trans (by decide)),
    applyAll_cons hraise (size_clashed.trans (by decide)), applyAll]

def collapsed : EGraph Whole where
  leader := clashed.leader
  values := clashed.values
  uses := clashed.uses
  nodes := #[(.op .add 1 0, 0), (.op .mul 0 2, 0), (.op .mul 2 0, 0), (.op .pow 0 0, 0), (.literal 0, 0), (.literal 1, 0),
    (.literal (-1), 1), (.op .pow 0 1, 2)]
  table := enterEntries clashed.table [(.op .add 1 0, 6)]

theorem saturate_enterAll : (enterAll {} formulas).1.saturate {} Rule.all = collapsed := by
  have hcollapsed : collapsed.table.size ≤ 6 + 2 + 1 :=
    (size_enterEntries_le _ _).trans (Nat.add_le_add_right size_clashed _)
  exact saturate_of_one_round rfl rebuild_enterAll (size_entered.trans (by decide)) searched_entered (by decide) applyAll_found
    (by cbv) (by cbv) (hcollapsed.trans (by decide)) (by cbv)

theorem simplifyAll_formulas : simplifyAll formulas {} = [.zero, .zero, .zero] := by
  have hclasses : (enterAll {} formulas).2 = formulas.zip [3, 4, 5] := by cbv
  rw [simplifyAll_eq, if_neg (by decide), saturate_enterAll, hclasses]
  cbv

end Clash

/-- Next to formulas that have no value anywhere, one becomes zero. -/
theorem simplifyAll_one_corrupted :
    let ρ : Valuation Whole ℝ := ⟨Whole.toReal, fun _ => none⟩
    Literal.Exact ρ.literal ∧ Clash.formulas[2]? = some .one ∧ (.one : Expr Whole).HasValue ρ 1 ∧
      (simplifyAll Clash.formulas {})[2]? = some .zero ∧ ¬ SameValue ρ .one .zero := by
  intro ρ
  have hone : (.one : Expr Whole).HasValue ρ 1 := by
    have h : (Expr.literal (1 : Whole)).HasValue ρ (Whole.toReal 1) := .literal rfl
    rwa [Whole.exact_toReal.one] at h
  have hzero : (.zero : Expr Whole).HasValue ρ 0 := by
    have h : (Expr.literal (0 : Whole)).HasValue ρ (Whole.toReal 0) := .literal rfl
    rwa [Whole.exact_toReal.zero] at h
  refine ⟨Whole.exact_toReal, rfl, hone, by rw [Clash.simplifyAll_formulas]; rfl, ?_⟩
  rintro ⟨y, hy, hy'⟩
  exact one_ne_zero ((hone.unique hy).trans (hy'.unique hzero))

end Expr

end FlowShader
