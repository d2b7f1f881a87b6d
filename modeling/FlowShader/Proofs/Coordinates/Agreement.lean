import FlowShader.Proofs.Coordinates.Velocity
import FlowShader.Proofs.Expr.Derivative
import FlowShader.Proofs.Expr.Winding

namespace FlowShader

open Real (pi)

variable {L : Type} [Literal L] {ρ : Valuation L ℝ} {a b : Expr L} {x : String} {t : ℝ}

namespace Coordinates

open FlowShader.Expr (Agree Apart)

namespace Atlas

theorem swapAzimuth_eq (a b : Expr L) :
    swapAzimuth a b = .op .sub (.constant .pi / .nat 2) (.call₂ .atan2 b a) := by
  change Expr.sub _ _ = _
  cases (Expr.constant .pi / Expr.nat 2 : Expr L) <;> rfl

theorem contains_half_pi (x : String) : (Expr.constant .pi / Expr.nat 2 : Expr L).contains x = false := by
  have hdiv (a b : Expr L) (ha : a.contains x = false) (hb : b.contains x = false) :
      (Expr.div a b).contains x = false := by
    fun_cases Expr.div a b with
    | case1 | case2 | case4 => rfl
    | case3 => exact ha
    | case5 => exact Bool.or_eq_false_iff.2 ⟨ha, hb⟩
  exact hdiv _ _ rfl rfl

theorem contains_swapAzimuth (a b : Expr L) (x : String) :
    (swapAzimuth a b).contains x = (Expr.call₂ .atan2 a b).contains x := by
  have hhalf := contains_half_pi (L := L) x
  rw [swapAzimuth_eq]
  change (Expr.contains x _ || (b.contains x || a.contains x)) = (a.contains x || b.contains x)
  rw [hhalf, Bool.false_or, Bool.or_comm]

/-- The swapped chart has the formulas with the last azimuth in its other form. -/
theorem forward_of_swapped {axes : List String} {forward : List (Expr L)} (hlast : lastAzimuth? forward = some (a, b))
    {c : Chart L} (hc : c ∈ (generate axes forward).charts) (hswapped : c.kind = .swapped) :
    c.forward = forward.map (Expr.replace (.call₂ .atan2 a b) (swapAzimuth a b)) := by
  unfold generate at hc
  rw [hlast] at hc
  simp only [List.mem_append, List.mem_map, List.mem_cons, List.not_mem_nil, or_false] at hc
  rcases hc with ⟨_, -, rfl⟩ | rfl | rfl
  · cases hswapped
  · cases hswapped
  · rfl

theorem exists_lastAzimuth?_of_swapped {axes : List String} {forward : List (Expr L)} {c : Chart L}
    (hc : c ∈ (generate axes forward).charts) (hswapped : c.kind = .swapped) :
    ∃ a b, lastAzimuth? forward = some (a, b) := by
  cases hlast : lastAzimuth? forward with
  | some ab => exact ⟨ab.1, ab.2, rfl⟩
  | none =>
      unfold generate at hc
      rw [hlast] at hc
      simp only [single, List.mem_append, List.mem_map, List.mem_singleton] at hc
      rcases hc with ⟨_, -, rfl⟩ | rfl
      · cases hswapped
      · cases hswapped

variable [LawfulBEq L] (hfaithful : Literal.Faithful ρ.literal)
include hfaithful

theorem apart_swapAzimuth (hswap : ∀ u v, a.HasValue ρ u → b.HasValue ρ v →
      pi / 2 - Complex.arg ⟨u, v⟩ = Complex.arg ⟨v, u⟩ + t) :
    Apart ρ t (.call₂ .atan2 a b) (swapAzimuth a b) := by
  intro w w' hw hw'
  rw [swapAzimuth_eq] at hw'
  obtain ⟨u, v, hu, hv, rfl⟩ := hw.of_call₂
  obtain ⟨y, y', hy, hy', rfl⟩ := hw'.of_op
  obtain ⟨v', u', hv', hu', rfl⟩ := hy'.of_call₂
  obtain rfl := hu.unique hu'
  obtain rfl := hv.unique hv'
  have hhalf : (Expr.constant .pi / Expr.nat 2 : Expr L).HasValue ρ (pi / 2) :=
    Expr.HasValue.div hfaithful .constant (Expr.hasValue_nat hfaithful 2) two_ne_zero
  rw [hy.unique hhalf]
  exact hswap u v hu hv

theorem exists_of_derivative_atan2 (hx : (a.contains x || b.contains x) = true) {w : ℝ}
    (h : ((Expr.call₂ .atan2 a b).derivative x).HasValue ρ w) :
    ∃ p q, (b * a.derivative x).HasValue ρ p ∧ (a * b.derivative x).HasValue ρ q ∧
      (p = q ∧ w = 0 ∨ ∃ u v, a.HasValue ρ u ∧ b.HasValue ρ v ∧ w = (p - q) / (v ^ 2 + u ^ 2)) := by
  rw [Expr.derivative, if_pos hx] at h
  have hne := Expr.add_ne_literal (L := L) b.square (Expr.op_ne_literal .pow a (.nat 2))
  -- Where the numerator was folded to zero, there is no quotient left, and the parts need not have values.
  rcases Expr.HasValue.of_div hfaithful h hne with ⟨n, d, hn, hd, rfl⟩ | ⟨rfl, hn⟩
  · obtain ⟨p, q, hp, hq, rfl⟩ := hn.of_sub hfaithful
    obtain ⟨y, z, hy, hz, rfl⟩ := hd.of_add hfaithful
    obtain ⟨v, hv, rfl⟩ := hy.of_square hfaithful
    obtain ⟨u, hu, rfl⟩ := hz.of_square hfaithful
    exact ⟨p, q, hp, hq, .inr ⟨u, v, hu, hv, rfl⟩⟩
  · obtain ⟨p, q, hp, hq, hpq⟩ := hn.of_sub hfaithful
    exact ⟨p, q, hp, hq, .inl ⟨(sub_eq_zero.1 hpq.symm), rfl⟩⟩

theorem agree_derivative_swapAzimuth (x : String) :
    Agree ρ ((Expr.call₂ .atan2 a b).derivative x) ((swapAzimuth a b).derivative x) := by
  intro w w' h h'
  rw [swapAzimuth_eq] at h'
  obtain ⟨y, y', hy, hy', rfl⟩ := Expr.HasValue.of_sub hfaithful h'
  rw [hy.derivative_eq_zero hfaithful (contains_half_pi x)]
  cases hx : (a.contains x || b.contains x) with
  | false =>
      have hzero := Expr.HasValue.derivative_eq_zero (e := .call₂ .atan2 a b) hfaithful hx h
      have hzero' := Expr.HasValue.derivative_eq_zero (e := .call₂ .atan2 b a) hfaithful
        ((Bool.or_comm _ _).trans hx) hy'
      rw [hzero, hzero', sub_zero]
  | true =>
      obtain ⟨p, q, hp, hq, hw⟩ := exists_of_derivative_atan2 hfaithful hx h
      obtain ⟨q', p', hq', hp', hw'⟩ := exists_of_derivative_atan2 hfaithful ((Bool.or_comm _ _).trans hx) hy'
      obtain rfl := hp.unique hp'
      obtain rfl := hq.unique hq'
      rcases hw with ⟨rfl, rfl⟩ | ⟨u, v, hu, hv, rfl⟩
      · rcases hw' with ⟨-, rfl⟩ | ⟨_, _, -, -, rfl⟩
        · rw [sub_zero]
        · rw [sub_self, zero_div, sub_zero]
      · rcases hw' with ⟨rfl, rfl⟩ | ⟨v', u', hv', hu', rfl⟩
        · rw [sub_self, zero_div, sub_zero]
        · obtain rfl := hu.unique hu'
          obtain rfl := hv.unique hv'
          ring

end Atlas

/-- The azimuth is an angle, and is the same in its two forms unless the formulas do not see a turn. -/
structure Alike (ρ : Valuation L ℝ) (a b : Expr L) (forward : List (Expr L)) : Prop where
  angle (u v : ℝ) : a.HasValue ρ u → b.HasValue ρ v → u ≠ 0 ∨ v ≠ 0
  turn (f : Expr L) : f ∈ forward → (∃ k, Expr.Winds ρ.literal a b f k) ∨
    ∀ u v, a.HasValue ρ u → b.HasValue ρ v → 0 ≤ u ∨ 0 ≤ v

theorem Alike.agree_derivative [LawfulBEq L] (hfaithful : Literal.Faithful ρ.literal) {forward : List (Expr L)}
    (h : Alike ρ a b forward) {f : Expr L} (hf : f ∈ forward) (x : String) :
    Agree ρ (f.derivative x)
      ((Expr.replace (.call₂ .atan2 a b) (Atlas.swapAzimuth a b) f).derivative x) := by
  have hcontains := Atlas.contains_swapAzimuth a b
  have hderivative := Atlas.agree_derivative_swapAzimuth (a := a) (b := b) hfaithful
  have hsame (hle : ∀ u v, a.HasValue ρ u → b.HasValue ρ v → 0 ≤ u ∨ 0 ≤ v) :
      Agree ρ (f.derivative x) ((Expr.replace (.call₂ .atan2 a b) (Atlas.swapAzimuth a b) f).derivative x) := by
    have hvalue : Apart ρ 0 (.call₂ .atan2 a b) (Atlas.swapAzimuth a b) :=
      Atlas.apart_swapAzimuth hfaithful fun u v hu hv => by
        rw [arg_swap (h.angle u v hu hv) (hle u v hu hv), add_zero]
    exact (Agree.replace hfaithful (hcontains x) hvalue.agree (hderivative x) f).2
  rcases h.turn f hf with ⟨k, hk⟩ | hle
  -- A formula that winds is a turn ahead only where both parts are negative.
  · by_cases hneg : ∃ u v, a.HasValue ρ u ∧ b.HasValue ρ v ∧ u < 0 ∧ v < 0
    · obtain ⟨u, v, hu, hv, hu0, hv0⟩ := hneg
      have hvalue : Apart ρ (2 * pi) (.call₂ .atan2 a b) (Atlas.swapAzimuth a b) :=
        Atlas.apart_swapAzimuth hfaithful fun u' v' hu' hv' => by
          rw [hu'.unique hu, hv'.unique hv, arg_swap_of_neg hu0 hv0]
      exact (hk.replace hfaithful hcontains hvalue hderivative).2 x
    · refine hsame fun u v hu hv => ?_
      by_contra hlt
      rw [not_or, not_le, not_le] at hlt
      exact hneg ⟨u, v, hu, hv, hlt⟩
  · exact hsame hle

namespace Frame

open Shader (Module Env Builtin)

variable {n : Nat}

/-- Both charts of the last azimuth have a Jacobian at the point, and are alike there. -/
structure Overlap (literal : L → ℝ) (axes : List String) (forward : List (Expr L)) (primary swapped : Chart L)
    (q : Fin n → ℝ) (J J' : Fin n → Fin n → ℝ) : Prop where
  mem : primary ∈ (Atlas.generate axes forward).charts
  kind : primary.kind = .primary
  mem' : swapped ∈ (Atlas.generate axes forward).charts
  kind' : swapped.kind = .swapped
  jacobian : HasJacobian literal axes primary q J
  jacobian' : HasJacobian literal axes swapped q J'
  alike (a b : Expr L) : Atlas.lastAzimuth? forward = some (a, b) →
    Alike (.ofPoint literal axes (List.ofFn q)) a b forward

theorem HasJacobian.congr {literal : L → ℝ} {names : List String} {c c' : Chart L} {q : Fin n → ℝ}
    {J : Fin n → Fin n → ℝ} (h : HasJacobian literal names c q J) (hc : c'.forward = c.forward) :
    HasJacobian literal names c' q J := by
  intro i j f x hf
  rw [hc] at hf
  exact h i j f x hf

theorem Overlap.eq [LawfulBEq L] {literal : L → ℝ} (hfaithful : Literal.Faithful literal) {axes : List String}
    {forward : List (Expr L)} {primary swapped : Chart L} {q : Fin n → ℝ} {J J' : Fin n → Fin n → ℝ}
    (h : Overlap literal axes forward primary swapped q J J') (i j : Fin n) (hi : i.val < forward.length)
    (hj : j.val < axes.length) : J i j = J' i j := by
  obtain ⟨a, b, hlast⟩ := Atlas.exists_lastAzimuth?_of_swapped h.mem' h.kind'
  have hx := List.getElem?_eq_getElem hj
  have hf : primary.forward[i.val]? = some forward[i.val] := by
    rw [Atlas.forward_of_primary h.mem h.kind, List.getElem?_eq_getElem hi]
  have hf' : swapped.forward[i.val]? =
      some (Expr.replace (.call₂ .atan2 a b) (Atlas.swapAzimuth a b) forward[i.val]) := by
    rw [Atlas.forward_of_swapped hlast h.mem' h.kind', List.getElem?_map, List.getElem?_eq_getElem hi]
    rfl
  exact (h.alike a b hlast).agree_derivative hfaithful (List.getElem_mem hi) _ _ _ (h.jacobian i j _ _ hf hx)
    (h.jacobian' i j _ _ hf' hx)

/-- The two charts of the last azimuth agree. Wherever both have a Jacobian and are alike, it is the same one; and
the Cartesian velocity does not depend on which of the two owns the position. -/
theorem jacobian_swapped_eq [LawfulBEq L] [Literal.Legible L] (literal : L → ℝ)
    (hfaithful : Literal.Faithful literal) :
    (∀ (n : Nat) (axes : List String) (forward : List (Expr L)) (primary swapped : Chart L) (q : Fin n → ℝ)
      (J J' : Fin n → Fin n → ℝ), Overlap literal axes forward primary swapped q J J' →
      ∀ i j : Fin n, i.val < forward.length → j.val < axes.length → J i j = J' i j) ∧
    ∀ (r : Record) (s : Frame L), ofRecord r = .ok s →
      ∃ body diagnostics, s.velocityToCartesian = .ok (velocityFunction s body, diagnostics) ∧
        ∀ (m : Module L) (globals : Env ℝ) (pos v : Fin s.dimensions → ℝ) (primary swapped : Chart L)
          (J J' : Fin s.dimensions → Fin s.dimensions → ℝ) (i : Nat) (c : Chart L),
          m.function? Names.velocityToCartesian = some (velocityFunction s body) →
          (∀ b : Builtin, m.defines b.name = false) →
          Overlap literal s.axes s.forward primary swapped pos J J' → (Matrix.of J).det ≠ 0 →
          s.atlas.select (.ofPoint literal s.axes (List.ofFn pos)) = .ok i → s.atlas.charts[i]? = some c →
          c.kind = .primary ∨ c.kind = .swapped →
          ∃ w, m.call literal globals Names.velocityToCartesian [.vec (List.ofFn v), .vec (List.ofFn pos)] =
              .ok (.vec (List.ofFn w)) ∧
            (Matrix.of J).mulVec w = v := by
  refine ⟨fun n axes forward primary swapped q J J' h => h.eq hfaithful, fun r s hrecord => ?_⟩
  have hs := checked_of_ofRecord hrecord
  obtain ⟨body, diagnostics, hfunction, hrun⟩ := hs.exists_velocityToCartesian hfaithful
  refine ⟨body, diagnostics, hfunction, ?_⟩
  intro m globals pos v primary swapped J J' i c hm hbuiltins h hdet hi hc hkind
  obtain ⟨ctx, hplain, hliteral, hcall⟩ := call_eq_run hm hbuiltins literal globals
  obtain ⟨i', c', hi', hc', ⟨-, htransforms⟩, -⟩ := hrun ctx hplain hliteral pos v
  obtain rfl : i = i' := Except.ok.inj (hi.symm.trans hi')
  obtain rfl : c = c' := Option.some.inj (hc.symm.trans hc')
  have hmem : c ∈ (Atlas.generate s.axes s.forward).charts := hs.atlas ▸ List.mem_of_getElem? hc
  have hJ : HasJacobian literal s.axes c (c.kind.sample pos) J := by
    rcases hkind with hkind | hkind
    · rw [hkind]
      exact h.jacobian.congr ((Atlas.forward_of_primary hmem hkind).trans
        (Atlas.forward_of_primary h.mem h.kind).symm)
    · obtain ⟨a, b, hlast⟩ := Atlas.exists_lastAzimuth?_of_swapped hmem hkind
      have heq : J = J' := funext fun i => funext fun j => h.eq hfaithful i j i.isLt (hs.length_axes.symm ▸ j.isLt)
      rw [hkind, heq]
      exact h.jacobian'.congr ((Atlas.forward_of_swapped hlast hmem hkind).trans
        (Atlas.forward_of_swapped hlast h.mem' h.kind').symm)
  obtain ⟨w, hw, hgives⟩ := htransforms J hJ hdet
  exact ⟨w, (hcall _).trans hgives, hw⟩

section BehindOrigin

noncomputable def behindOrigin (y : ℝ) : Valuation Elementary ℝ := .ofPoint Elementary.toReal ["x", "y"] [-1, y]

def azimuth : Expr Elementary := .call₂ .atan2 (.var "y") (.var "x")

noncomputable def swappedAzimuth : Expr Elementary := Atlas.swapAzimuth (.var "y") (.var "x")

def withHyperbolas (e : Expr Elementary) : List (Expr Elementary) := [.op .mul (.var "x") (.var "y"), e]

def primaryChart (e : Expr Elementary) : Chart Elementary :=
  ⟨.atLeast (.var "x") (.var "y"), withHyperbolas e, .primary⟩

def swappedChart (e : Expr Elementary) : Chart Elementary :=
  ⟨.below (.var "x") (.var "y"), withHyperbolas e, .swapped⟩

theorem hasValue_x {y : ℝ} : (Expr.var "x").HasValue (behindOrigin y) (-1) := .var rfl

theorem hasValue_y {y : ℝ} : (Expr.var "y").HasValue (behindOrigin y) y := .var rfl

theorem hasJacobian_withHyperbolas {e : Expr Elementary} {p q : ℝ} {c : Chart Elementary}
    (hc : c.forward = withHyperbolas e) (hp : (e.derivative "x").HasValue (behindOrigin (-2)) p)
    (hq : (e.derivative "y").HasValue (behindOrigin (-2)) q) :
    HasJacobian Elementary.toReal ["x", "y"] c ![-1, -2] ![![-2, -1], ![p, q]] := by
  have hfaithful := Elementary.faithful_toReal
  have hproduct (v : String) {x' y' : ℝ} (hx' : ((Expr.var "x").derivative v).HasValue (behindOrigin (-2)) x')
      (hy' : ((Expr.var "y").derivative v).HasValue (behindOrigin (-2)) y') :
      ((Expr.op .mul (.var "x") (.var "y")).derivative v).HasValue (behindOrigin (-2)) (x' * -2 + -1 * y') :=
    (hx'.mul hfaithful hasValue_y).add hfaithful (hasValue_x.mul hfaithful hy')
  have hzero := Expr.hasValue_zero (ρ := behindOrigin (-2)) hfaithful
  have hone := Expr.hasValue_one (ρ := behindOrigin (-2)) hfaithful
  have hvalues : ![![-2, -1], ![p, q]] = ![![1 * -2 + -1 * 0, 0 * -2 + -1 * 1], ![p, q]] := by norm_num
  rw [hvalues]
  intro i j f v hf hv
  rw [hc] at hf
  fin_cases i <;> fin_cases j <;> cases hf <;> cases hv
  · exact hproduct "x" hone hzero
  · exact hproduct "y" hzero hone
  · exact hp
  · exact hq

theorem derivative_azimuth : (azimuth.derivative "x").HasValue (behindOrigin (-2)) (2 / 5) ∧
    (azimuth.derivative "y").HasValue (behindOrigin (-2)) (-1 / 5) := by
  have hfaithful := Elementary.faithful_toReal
  have hzero := Expr.hasValue_zero (ρ := behindOrigin (-2)) hfaithful
  have hone := Expr.hasValue_one (ρ := behindOrigin (-2)) hfaithful
  have hx : (2 / 5 : ℝ) = (-1 * 0 - -2 * 1) / ((-1) ^ 2 + (-2) ^ 2) := by norm_num
  have hy : (-1 / 5 : ℝ) = (-1 * 1 - -2 * 0) / ((-1) ^ 2 + (-2) ^ 2) := by norm_num
  rw [hx, hy]
  exact ⟨hasValue_y.derivative_atan2 hfaithful hzero hasValue_x hone (by norm_num),
    hasValue_y.derivative_atan2 hfaithful hone hasValue_x hzero (by norm_num)⟩

theorem half_pi_eq : (Expr.constant .pi / Expr.nat 2 : Expr Elementary) = .op .div (.constant .pi) (.nat 2) := by
  have hone : (Expr.nat 2 : Expr Elementary).isOne = false := by
    by_contra h
    have hvalue := (Expr.hasValue_nat (ρ := behindOrigin (-2)) Elementary.faithful_toReal 2).eq_one
      Elementary.faithful_toReal (Bool.eq_true_of_not_eq_false h)
    norm_num at hvalue
  change Expr.div _ _ = _
  rw [Expr.div, hone]
  · rfl
  · intro _ _ h
    cases h

theorem derivative_swappedAzimuth : (swappedAzimuth.derivative "x").HasValue (behindOrigin (-2)) (2 / 5) ∧
    (swappedAzimuth.derivative "y").HasValue (behindOrigin (-2)) (-1 / 5) := by
  have hfaithful := Elementary.faithful_toReal
  have hzero := Expr.hasValue_zero (ρ := behindOrigin (-2)) hfaithful
  have hone := Expr.hasValue_one (ρ := behindOrigin (-2)) hfaithful
  have htwo := Expr.hasValue_nat (ρ := behindOrigin (-2)) hfaithful 2
  have hpi : (Expr.constant .pi : Expr Elementary).HasValue (behindOrigin (-2)) pi := .constant
  have hhalf (v : String) : ((Expr.op .div (.constant .pi) (.nat 2) : Expr Elementary).derivative v).HasValue
      (behindOrigin (-2)) ((0 * (2 : ℕ) - pi * 0) / (2 : ℕ) ^ 2) :=
    ((hzero.mul hfaithful htwo).sub hfaithful (hpi.mul hfaithful hzero)).div hfaithful (htwo.square hfaithful)
      (by norm_num)
  have hx : (2 / 5 : ℝ) = (0 * (2 : ℕ) - pi * 0) / (2 : ℕ) ^ 2 - (-2 * 1 - -1 * 0) / ((-2) ^ 2 + (-1) ^ 2) := by
    norm_num
  have hy : (-1 / 5 : ℝ) = (0 * (2 : ℕ) - pi * 0) / (2 : ℕ) ^ 2 - (-2 * 0 - -1 * 1) / ((-2) ^ 2 + (-1) ^ 2) := by
    norm_num
  rw [swappedAzimuth, Atlas.swapAzimuth_eq, half_pi_eq, hx, hy]
  exact ⟨(hhalf "x").sub hfaithful (hasValue_x.derivative_atan2 hfaithful hone hasValue_y hzero (by norm_num)),
    (hhalf "y").sub hfaithful (hasValue_x.derivative_atan2 hfaithful hzero hasValue_y hone (by norm_num))⟩

theorem select_behindOrigin : hyperbolicFrame.atlas.select (behindOrigin (-2)) = .ok 1 := by
  have hle : Scalar.le (Scalar.abs (-2 : ℝ)) (Scalar.abs (-1)) = false := by
    change decide (|(-2 : ℝ)| ≤ |-1|) = false
    norm_num
  have hlt : Scalar.lt (Scalar.abs (-1 : ℝ)) (Scalar.abs (-2)) = true := by
    change decide (|(-1 : ℝ)| < |-2|) = true
    norm_num
  change (do
    let i ← (if Scalar.le (Scalar.abs (-2 : ℝ)) (Scalar.abs (-1)) then pure (some 0) else do
      return (← (if Scalar.lt (Scalar.abs (-1 : ℝ)) (Scalar.abs (-2)) then pure (some 0) else _ :
        Except Unbound (Option Nat))).map (· + 1) : Except Unbound (Option Nat))
    return i.getD 1) = _
  rw [hle, hlt]
  rfl

theorem overlap_behindOrigin :
    Overlap Elementary.toReal ["x", "y"] (withHyperbolas azimuth) (primaryChart azimuth) (swappedChart swappedAzimuth)
      ![-1, -2] ![![-2, -1], ![2 / 5, -1 / 5]] ![![-2, -1], ![2 / 5, -1 / 5]] := by
  have hcharts : (Atlas.generate ["x", "y"] (withHyperbolas azimuth)).charts =
      [primaryChart azimuth, swappedChart swappedAzimuth] := rfl
  refine ⟨hcharts ▸ List.mem_cons_self, rfl, hcharts ▸ List.mem_cons_of_mem _ List.mem_cons_self, rfl,
    hasJacobian_withHyperbolas rfl derivative_azimuth.1 derivative_azimuth.2,
    hasJacobian_withHyperbolas rfl derivative_swappedAzimuth.1 derivative_swappedAzimuth.2, ?_⟩
  intro a b hlast
  obtain ⟨rfl, rfl⟩ := Prod.mk.inj (Option.some.inj hlast)
  refine ⟨fun u v hu _ => .inl ?_, fun f hf => .inl ?_⟩
  · rw [hu.unique hasValue_y]
    norm_num
  · simp only [withHyperbolas, List.mem_cons, List.not_mem_nil, or_false] at hf
    rcases hf with rfl | rfl
    · exact ⟨0, .op (.var _) (.var _)⟩
    · exact ⟨1, .azimuth⟩

theorem ofFn_of_mulVec_behindOrigin {w : Fin 2 → ℝ}
    (hw : (Matrix.of ![![-2, -1], ![2 / 5, -1 / 5]]).mulVec w = ![4, 0]) : List.ofFn w = [-1, -2] := by
  have h₀ : -(2 * w 0) + -w 1 = 4 := by simpa [Matrix.mulVec, dotProduct] using congrFun hw 0
  have h₁ : 2 / 5 * w 0 + -1 / 5 * w 1 = 0 := by simpa [Matrix.mulVec, dotProduct] using congrFun hw 1
  obtain rfl : w = ![-1, -2] := by
    funext i
    fin_cases i
    · change w 0 = -1
      linarith
    · change w 1 = -2
      linarith
  rfl

/-- Hyperbolas and rays once more, on the other side of the origin: the swapped chart owns the position, and the
native velocity that only scales the hyperbolas points away from the origin. -/
theorem jacobian_swapped_eq_behind_origin :
    ∃ (s : Frame Elementary) (body : List (Shader.Stmt Elementary)) (diagnostics : List Diagnostic),
      ofRecord hyperbolic = .ok s ∧ s.velocityToCartesian = .ok (velocityFunction s body, diagnostics) ∧
      Module.call ⟨[], [], [velocityFunction s body]⟩ Elementary.toReal [] Names.velocityToCartesian
        [.vec [4, 0], .vec [-1, -2]] = .ok (.vec [-1, -2]) := by
  obtain ⟨body, diagnostics, hfunction, hcalls⟩ := (jacobian_swapped_eq Elementary.toReal
    Elementary.faithful_toReal).2 hyperbolic hyperbolicFrame ofRecord_hyperbolic
  refine ⟨hyperbolicFrame, body, diagnostics, ofRecord_hyperbolic, hfunction, ?_⟩
  have hdet : (Matrix.of (![![-2, -1], ![2 / 5, -1 / 5]] : Fin 2 → Fin 2 → ℝ)).det ≠ 0 := by
    norm_num [Matrix.det_fin_two]
  obtain ⟨w, hcall, hw⟩ := hcalls ⟨[], [], [velocityFunction hyperbolicFrame body]⟩ [] ![-1, -2] ![4, 0] _ _ _ _ 1
    (swappedChart swappedAzimuth) rfl (fun b => by rcases b with ⟨⟨⟩⟩ | _ <;> rfl) overlap_behindOrigin hdet
    select_behindOrigin rfl (.inr rfl)
  exact hcall.trans (congrArg (fun xs => Except.ok (Shader.Value.vec xs)) (ofFn_of_mulVec_behindOrigin hw))

def squaredAngle : Record :=
  ⟨"squared angle", 2, [⟨"u", ""⟩, ⟨"t", ""⟩], ["x * y", "atan2(y, x)^2"], none, false⟩

noncomputable def squared (e : Expr Elementary) : Expr Elementary := .op .pow e (.literal (Literal.ofDecimal ⟨2, 0⟩))

noncomputable def squaredFrame : Frame Elementary :=
  ⟨"squared angle", [⟨"u", "u"⟩, ⟨"t", "t"⟩], withHyperbolas (squared azimuth), none, false,
    .generate ["x", "y"] (withHyperbolas (squared azimuth))⟩

theorem readFormulas_squaredAngle :
    readFormulas .forward (Names.axes 2) squaredAngle.forward = .ok (withHyperbolas (squared azimuth)) := by cbv

theorem ofRecord_squaredAngle : ofRecord squaredAngle = .ok squaredFrame := by
  have hlabels : checkLabels [] ["u", "t"] = .ok () := rfl
  unfold ofRecord
  simp only [squaredAngle, checkCount, List.map, List.length, hlabels]
  change (readFormulas .forward (Names.axes 2) squaredAngle.forward >>= _) = _
  exact bind_eq_ok_of readFormulas_squaredAngle rfl

theorem derivative_squared {e : Expr Elementary} {x : String} {θ d : ℝ} (he : e.HasValue (behindOrigin (-2)) θ)
    (hx : e.contains x = true) (hd : (e.derivative x).HasValue (behindOrigin (-2)) d) :
    ((squared e).derivative x).HasValue (behindOrigin (-2)) (2 * θ * d) := by
  have hfaithful := Elementary.faithful_toReal
  have htwo : (Expr.literal (Literal.ofDecimal ⟨2, 0⟩) : Expr Elementary).HasValue (behindOrigin (-2)) 2 :=
    .ofLiteral hfaithful ((hfaithful.decimal ⟨2, 0⟩).trans (by norm_num))
  have hexponent : (2 - 1 : ℝ) = (1 : ℕ) := by norm_num
  have hpow : (Expr.op .pow e (Expr.lowered (.literal (Literal.ofDecimal ⟨2, 0⟩)))).HasValue
      (behindOrigin (-2)) θ := by
    have hlow := htwo.lowered hfaithful
    rw [hexponent] at hlow
    have hvalue : Operator.pow.apply θ ((1 : ℕ) : ℝ) = θ := (Real.rpow_natCast θ 1).trans (pow_one θ)
    exact hvalue ▸ .op he hlow (Operator.pow_defined_natCast θ 1)
  rw [squared, Expr.derivative, Expr.powDerivative, hx]
  exact (htwo.mul hfaithful hpow).mul hfaithful hd

/-- The square of the azimuth sees the turn: the charts disagree on it. -/
theorem jacobian_swapped_ne_squared_angle :
    ∃ (s : Frame Elementary) (primary swapped : Chart Elementary) (J J' : Fin 2 → Fin 2 → ℝ),
      ofRecord squaredAngle = .ok s ∧ primary ∈ s.atlas.charts ∧ primary.kind = .primary ∧
      swapped ∈ s.atlas.charts ∧ swapped.kind = .swapped ∧
      HasJacobian Elementary.toReal s.axes primary ![-1, -2] J ∧
      HasJacobian Elementary.toReal s.axes swapped ![-1, -2] J' ∧ J ≠ J' := by
  have hcharts : squaredFrame.atlas.charts = [primaryChart (squared azimuth), swappedChart (squared swappedAzimuth)] :=
    rfl
  have hvalue : azimuth.HasValue (behindOrigin (-2)) (Complex.arg ⟨-1, -2⟩) := .call₂ hasValue_y hasValue_x
  have hvalue' : swappedAzimuth.HasValue (behindOrigin (-2)) (pi / 2 - Complex.arg ⟨-2, -1⟩) := by
    have hfaithful := Elementary.faithful_toReal
    rw [swappedAzimuth, Atlas.swapAzimuth_eq]
    exact .op (Expr.HasValue.div hfaithful .constant (Expr.hasValue_nat hfaithful 2) two_ne_zero)
      (.call₂ hasValue_x hasValue_y) trivial
  refine ⟨squaredFrame, primaryChart (squared azimuth), swappedChart (squared swappedAzimuth), _, _,
    ofRecord_squaredAngle, hcharts ▸ List.mem_cons_self, rfl,
    hcharts ▸ List.mem_cons_of_mem _ List.mem_cons_self, rfl,
    hasJacobian_withHyperbolas rfl (derivative_squared hvalue rfl derivative_azimuth.1)
      (derivative_squared hvalue rfl derivative_azimuth.2),
    hasJacobian_withHyperbolas rfl
      (derivative_squared hvalue' (Atlas.contains_swapAzimuth _ _ _) derivative_swappedAzimuth.1)
      (derivative_squared hvalue' (Atlas.contains_swapAzimuth _ _ _) derivative_swappedAzimuth.2), ?_⟩
  rw [arg_swap_of_neg (by norm_num) (by norm_num)]
  intro heq
  have hentry : 2 * Complex.arg ⟨-1, -2⟩ * (2 / 5) = 2 * (Complex.arg ⟨-1, -2⟩ + 2 * pi) * (2 / 5) :=
    congrFun (congrFun heq 1) 0
  linarith [Real.pi_pos]

end BehindOrigin

end Frame

end Coordinates

end FlowShader
