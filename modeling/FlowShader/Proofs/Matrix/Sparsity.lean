import FlowShader.Proofs.Expr.Sparsity
import FlowShader.Proofs.Matrix.Application
import FlowShader.Proofs.Simplify.Ground

namespace FlowShader

instance : Literal.Annihilates Whole where
  zero_beq := rfl
  add x y hx hy := by
    rw [eq_of_beq hx, eq_of_beq hy]
    rfl
  sub x y hx hy := by
    rw [eq_of_beq hx, eq_of_beq hy]
    rfl
  mul_left x y hx hy := by
    obtain ⟨n, rfl⟩ := Whole.exists_of_isFinite hy
    rw [eq_of_beq hx]
    exact beq_iff_eq.2 (congrArg Whole.int (Int.zero_mul n))
  mul_right x y hx hy := by
    obtain ⟨n, rfl⟩ := Whole.exists_of_isFinite hx
    rw [eq_of_beq hy]
    exact beq_iff_eq.2 (congrArg Whole.int (Int.mul_zero n))

namespace Matrix

section Positions

variable {L : Type} [Literal L] {functions : List (Expr L)} {names : List String} {i j : Nat} {f : Expr L} {x : String}

theorem getElem?_chunks {α : Type} {n : Nat} (hj : j < n) (l : List α) (i : Nat) :
    (chunks n l)[i]?.bind (·[j]?) = l[i * n + j]? := by
  fun_induction chunks n l generalizing i with
  | case1 => simp
  | case2 x xs ih =>
      cases i with
      | zero =>
          have htake : x :: xs.take (n - 1) = (x :: xs).take n := by
            rw [← List.take_succ_cons, Nat.sub_add_cancel (Nat.zero_lt_of_lt hj)]
          simp [htake, List.getElem?_take_of_lt hj]
      | succ i =>
          have hposition : (i + 1) * n + j = n - 1 + (i * n + j) + 1 := by
            rw [Nat.succ_mul]
            omega
          rw [List.getElem?_cons_succ, ih, List.getElem?_drop, hposition, List.getElem?_cons_succ]

theorem getElem?_partials (hf : functions[i]? = some f) (hx : names[j]? = some x) :
    (partials functions names)[i * names.length + j]? = some (f.derivative x) := by
  have hj : j < (names.map fun x => f.derivative x).length := by
    rw [List.length_map]
    exact (List.getElem?_eq_some_iff.1 hx).1
  induction functions generalizing i with
  | nil => cases hf
  | cons g functions ih =>
      rw [partials, List.flatMap_cons]
      cases i with
      | zero =>
          obtain rfl : g = f := Option.some.inj hf
          rw [Nat.zero_mul, Nat.zero_add, List.getElem?_append_left hj, List.getElem?_map, hx, Option.map_some]
      | succ i =>
          have hposition : (i + 1) * names.length + j =
              (names.map fun x => g.derivative x).length + (i * names.length + j) := by
            rw [List.length_map, Nat.succ_mul]
            omega
          rw [hposition, List.getElem?_append_right (Nat.le_add_right _ _), Nat.add_sub_cancel_left]
          exact ih hf

theorem get?_jacobian (hx : names[j]? = some x) (i : Nat) :
    (jacobian functions names).get? i j = (Expr.simplifyAll (partials functions names))[i * names.length + j]? := by
  have hj : j < names.length := (List.getElem?_eq_some_iff.1 hx).1
  rw [get?, jacobian, Nat.max_eq_right (Nat.zero_lt_of_lt hj), getElem?_chunks hj]

theorem exists_get?_jacobian_isNumber [LawfulBEq L] (hf : functions[i]? = some f) (hx : names[j]? = some x)
    (hzero : (f.derivative x).isZero = true) : ∃ d, (jacobian functions names).get? i j = some d ∧ d.IsNumber := by
  obtain ⟨hi, hpartial⟩ := List.getElem?_eq_some_iff.1 (getElem?_partials hf hx)
  have hi' : i * names.length + j < (Expr.simplifyAll (partials functions names)).length := by
    rwa [Expr.length_simplifyAll]
  refine ⟨_, (get?_jacobian hx i).trans (List.getElem?_eq_getElem hi'), Expr.leaf_of_price_le_one ?_⟩
  -- A literal has the least price there is, and only literals and named constants have it.
  obtain ⟨z, hz, -⟩ := Expr.exists_literal_of_isZero hzero
  have hcheap := (Expr.simplifyAll_price_le (partials functions names) {}).get hi hi'
  rw [List.get_eq_getElem, List.get_eq_getElem, hpartial, hz] at hcheap
  exact hcheap

theorem isZero_get?_jacobian [LawfulBEq L] {ρ : Valuation L ℝ} (hexact : Literal.Exact ρ.literal)
    (hliteral : ∀ z, Literal.isFinite z = true → ρ.literal z = 0 → z = 0)
    (hvalues : ∀ p ∈ partials functions names, ∃ y, p.HasValue ρ y) (hf : functions[i]? = some f)
    (hx : names[j]? = some x) (hzero : (f.derivative x).isZero = true) {d : Expr L}
    (hd : (jacobian functions names).get? i j = some d) (hnumber : d.IsNumber) : d.isZero = true := by
  rw [get?_jacobian hx] at hd
  obtain ⟨y, hy, hdy⟩ := Expr.simplifyAll_getElem?_sameValue hexact hvalues (getElem?_partials hf hx) hd
  rw [Expr.eq_zero_of_isZero hzero] at hy
  obtain rfl : y = 0 := hy.literal_eq.symm.trans hexact.zero
  exact isZero_of_isNumber hliteral hdy hnumber

end Positions

/-- Derivatives are sparse and closed: in a variable that a formula with finite literals does not contain, the
derivative is a literal zero, and in any variable it has no variables but those of the formula. So the structural zeros
of a Jacobian are literal zeros when simplification gets them; what it gives back are numbers, and zeros again if all
partial derivatives have values at one point. -/
theorem jacobian_sparse {L : Type} [Literal L] [Literal.Annihilates L] :
    (∀ (e : Expr L) (x : String),
      (e.FiniteLiterals → e.contains x = false → (e.derivative x).isZero = true) ∧
        ∀ v ∈ (e.derivative x).vars, v ∈ e.vars) ∧
    ∀ (functions : List (Expr L)) (names : List String) (i j : Nat) (f : Expr L) (x : String),
      functions[i]? = some f → names[j]? = some x → f.FiniteLiterals → f.contains x = false →
        (∃ p, (partials functions names)[i * names.length + j]? = some p ∧ p.isZero = true) ∧
        ∀ [LawfulBEq L], ∃ d, (jacobian functions names).get? i j = some d ∧ d.IsNumber ∧
          ∀ ρ : Valuation L ℝ, Literal.Exact ρ.literal →
            (∀ z, Literal.isFinite z = true → ρ.literal z = 0 → z = 0) →
            (∀ p ∈ partials functions names, ∃ y, p.HasValue ρ y) → d.isZero = true := by
  refine ⟨fun e x => ⟨Expr.isZero_derivative, fun v hv => ?_⟩, ?_⟩
  · rw [Expr.vars, Expr.mem_sortNames] at hv ⊢
    have hover : e.Over e.names := fun _ h => h
    exact hover.derivative x v hv
  · intro functions names i j f x hf hx hfinite hcontains
    have hzero := Expr.isZero_derivative hfinite hcontains
    refine ⟨⟨_, getElem?_partials hf hx, hzero⟩, ?_⟩
    intro _
    obtain ⟨d, hd, hnumber⟩ := exists_get?_jacobian_isNumber hf hx hzero
    exact ⟨d, hd, hnumber, fun ρ hexact hliteral hvalues =>
      isZero_get?_jacobian hexact hliteral hvalues hf hx hzero hd hnumber⟩

/-- A derivative of doubles, and the Jacobian of two products at the point with both coordinates one. -/
theorem jacobian_sparse_products :
    let e : Expr Float := .op .mod (.op .div (.var "y") (.literal 0.1)) (.op .mul (.literal 2.5) (.literal (-3)))
    let x : Expr Whole := .var "x"
    let functions := [.op .mul x x, .op .mul (.var "y") x]
    (e.FiniteLiterals ∧ e.contains "x" = false ∧ (e.derivative "x").isZero = true) ∧
      (Expr.op .mul x x).FiniteLiterals ∧ (Expr.op .mul x x).contains "y" = false ∧
      ∃ d, (jacobian functions ["x", "y"]).get? 0 1 = some d ∧ d.isZero = true := by
  intro e x functions
  have hfinite : e.FiniteLiterals := by decide
  refine ⟨⟨hfinite, rfl, (jacobian_sparse.1 e "x").1 hfinite rfl⟩, by decide, rfl, ?_⟩
  let ρ : Valuation Whole ℝ := ⟨Whole.toReal, fun _ => some 1⟩
  have hx : x.HasValue ρ 1 := .var rfl
  have hy : (Expr.var "y" : Expr Whole).HasValue ρ 1 := .var rfl
  have hpartials : partials functions ["x", "y"] = [.op .add x x, .zero, .var "y", x] := rfl
  obtain ⟨d, hd, -, hzero⟩ :=
    (jacobian_sparse.2 functions ["x", "y"] 0 1 (.op .mul x x) "y" rfl rfl (by decide) rfl).2
  refine ⟨d, hd, hzero ρ Whole.exact_toReal ?_ ?_⟩
  · intro z hz hvalue
    obtain ⟨n, rfl⟩ := Whole.exists_of_isFinite hz
    exact congrArg Whole.int (Int.cast_eq_zero.1 hvalue)
  · rw [hpartials]
    simp only [List.forall_mem_cons]
    exact ⟨⟨_, .op hx hx trivial⟩, ⟨_, .literal rfl⟩, ⟨1, hy⟩, ⟨1, hx⟩, List.forall_mem_nil _⟩

-- A structural zero next to a zero without an inverse. The products `0 * 0 ^ (2 - 3)` and `0 ^ (2 - 3) * 0` are equal;
-- the one is zero, the other is `0 ^ 0`, hence one. With zero and one in a class, `-1 + 0` and `-1 + 1` are in one too.
namespace Overwritten

open FlowShader.EGraph (searched enterEntries size_enterEntries_le table_union applyMatch applyAll applyAll_cons
  saturate_of_one_round)
open FlowShader.Expr (enterAll)
open FlowShader.Expr.Clash (swap annihilate raise)

def exponent : Expr Whole := .op .sub (.literal (.int 2)) (.literal (.int 3))

def reciprocal : Expr Whole := .op .pow .zero exponent

def sparse : Expr Whole := .op .mul (.var "y") (.op .mul reciprocal .zero)

def functions : List (Expr Whole) :=
  [.op .add (.op .mul (.var "x") (.op .add exponent .zero)) (.op .mul (.var "y") (.op .mul .zero reciprocal)), sparse]

def formulas : List (Expr Whole) :=
  [.op .add exponent .zero, .op .mul .zero reciprocal, .zero, .op .mul reciprocal .zero]

theorem partials_functions : partials functions ["x", "y"] = formulas := rfl

def seeds : List (Node Whole) :=
  [.literal (.int 2), .literal (.int 3), .op .sub 0 1, .literal (-1), .literal 0, .op .add 2 4, .op .pow 4 2,
    .op .mul 4 6, .op .mul 6 4]

def begun : EGraph Whole where
  leader := #[0, 1, 2, 2, 4, 2, 6, 7, 8]
  values := #[some (.int 2), some (.int 3), some (-1), some (-1), some 0, some (-1), none, none, none]
  uses := #[#[(.op .sub 0 1, 2)], #[(.op .sub 0 1, 2)], #[(.op .add 2 4, 5), (.op .pow 4 2, 6)], #[],
    #[(.op .add 2 4, 5), (.op .pow 4 2, 6), (.op .mul 4 6, 7), (.op .mul 6 4, 8)], #[],
    #[(.op .mul 4 6, 7), (.op .mul 6 4, 8)], #[], #[]]
  nodes := #[(.literal (.int 2), 0), (.literal (.int 3), 1), (.op .add 2 4, 2), (.op .sub 0 1, 2), (.literal (-1), 2),
    (.literal 0, 4), (.op .pow 4 2, 6), (.op .mul 4 6, 7), (.op .mul 6 4, 8)]
  table := enterEntries {} seeds.zipIdx

theorem rebuild_enterAll : (enterAll {} formulas).1.rebuild = begun := by cbv

theorem enterAll_entered : (enterAll {} formulas).2 = formulas.zip [5, 7, 4, 8] := by cbv

/-- What the first round finds: both products can be swapped, one of them is zero and the other a higher power. -/
def found : List (Rule Whole × Array (Nat × Assignment)) :=
  [(swap, #[(7, [("b", 6), ("a", 4)]), (8, [("b", 4), ("a", 6)])]), (annihilate, #[(7, [("a", 6)])]),
    (raise, #[(8, [("b", 2), ("a", 4)])])]

theorem searched_begun : searched {} Rule.all begun = found := by cbv

-- The graphs of the first round, each from the one before.

def swapped : EGraph Whole := begun.union 7 8

def annihilated : EGraph Whole := swapped.union 7 4

def clashed : EGraph Whole where
  leader := #[0, 1, 2, 2, 4, 2, 6, 4, 4, 4, 4, 4]
  values := begun.values ++ #[some 1, some 0, some 1]
  uses := #[#[(.op .sub 0 1, 2)], #[(.op .sub 0 1, 2)], #[(.op .add 2 4, 5), (.op .pow 4 2, 6), (.op .add 2 9, 10)],
    #[], #[(.op .add 2 4, 5), (.op .pow 4 2, 6), (.op .mul 4 6, 7), (.op .mul 6 4, 8), (.op .pow 4 4, 11),
      (.op .pow 4 4, 11), (.op .add 2 9, 10)], #[],
    #[(.op .mul 4 6, 7), (.op .mul 6 4, 8)], #[], #[], #[(.op .add 2 9, 10)], #[], #[]]
  nodes := begun.nodes ++ #[(.literal 1, 9), (.op .add 2 9, 10), (.op .pow 4 4, 11)]
  table := enterEntries begun.table [(.literal 1, 9), (.op .add 2 9, 10), (.op .pow 4 4, 11)]
  stale := [(.op .add 2 9, 10)]

theorem size_begun : begun.table.size ≤ 9 := size_enterEntries_le _ _

theorem size_clashed : clashed.table.size ≤ 9 + 3 :=
  (size_enterEntries_le _ _).trans (Nat.add_le_add_right size_begun _)

theorem applyAll_found : applyAll {} found (begun, false) = (clashed, true) := by
  have hswap : [(7, [("b", 6), ("a", 4)]), (8, [("b", 4), ("a", 6)])].foldl (applyMatch swap) (begun, false) =
      (swapped, true) := by cbv
  have hannihilate : [(7, [("a", 6)])].foldl (applyMatch annihilate) (swapped, true) = (annihilated, true) := by cbv
  have hraise : [(8, [("b", 2), ("a", 4)])].foldl (applyMatch raise) (annihilated, true) = (clashed, true) := by cbv
  have hswapped : swapped.table.size ≤ 9 := table_union begun 7 8 ▸ size_begun
  have hannihilated : annihilated.table.size ≤ 9 := table_union swapped 7 4 ▸ hswapped
  rw [found, applyAll_cons hswap (hswapped.trans (by decide)), applyAll_cons hannihilate (hannihilated.trans (by decide)),
    applyAll_cons hraise (size_clashed.trans (by decide)), applyAll]

def collapsed : EGraph Whole where
  leader := #[0, 1, 4, 4, 4, 4, 4, 4, 4, 4, 4, 4]
  values := clashed.values
  uses := #[#[(.op .sub 0 1, 2)], #[(.op .sub 0 1, 2)], #[(.op .add 2 4, 5), (.op .pow 4 2, 6), (.op .add 2 9, 10)],
    #[], #[(.op .add 2 4, 5), (.op .pow 4 2, 6), (.op .mul 4 6, 7), (.op .mul 6 4, 8), (.op .pow 4 4, 11),
      (.op .pow 4 4, 11), (.op .add 2 9, 10), (.op .add 2 4, 5), (.op .pow 4 2, 6), (.op .add 2 9, 10),
      (.op .mul 4 6, 7), (.op .mul 6 4, 8)],
    #[], #[(.op .mul 4 6, 7), (.op .mul 6 4, 8)], #[], #[], #[(.op .add 2 9, 10)], #[], #[]]
  nodes := #[(.literal (.int 2), 0), (.literal (.int 3), 1), (.op .add 4 4, 4), (.op .sub 0 1, 4), (.op .mul 4 4, 4),
    (.op .pow 4 4, 4), (.literal (-1), 4), (.literal 0, 4), (.literal 1, 4)]
  table := enterEntries clashed.table [(.op .add 2 4, 10), (.op .add 4 4, 10), (.op .pow 4 4, 6), (.op .mul 4 4, 8),
    (.op .mul 4 4, 7), (.op .add 4 4, 5)]

theorem saturate_enterAll : (enterAll {} formulas).1.saturate {} Rule.all = collapsed := by
  have hcollapsed : collapsed.table.size ≤ 9 + 3 + 6 :=
    (size_enterEntries_le _ _).trans (Nat.add_le_add_right size_clashed _)
  exact saturate_of_one_round rfl rebuild_enterAll (size_begun.trans (by decide)) searched_begun (by decide)
    applyAll_found (by cbv) (by cbv) (hcollapsed.trans (by decide)) (by cbv)

theorem simplifyAll_formulas : Expr.simplifyAll formulas {} = List.replicate 4 (.literal (-1)) := by
  rw [Expr.simplifyAll_eq, if_neg (by decide), saturate_enterAll, enterAll_entered]
  cbv

end Overwritten

/-- A structural zero of a Jacobian that simplification takes for minus one, because of a partial derivative next to it
that has no value. -/
theorem jacobian_zero_overwritten :
    Overwritten.functions[1]? = some Overwritten.sparse ∧ Overwritten.sparse.FiniteLiterals ∧
      Overwritten.sparse.contains "x" = false ∧ (Overwritten.sparse.derivative "x").isZero = true ∧
      (jacobian Overwritten.functions ["x", "y"]).get? 1 0 = some (.literal (-1)) ∧
      (Expr.literal (-1) : Expr Whole).isZero = false := by
  refine ⟨rfl, by decide, rfl, rfl, ?_, rfl⟩
  rw [get?_jacobian (x := "x") rfl, Overwritten.partials_functions, Overwritten.simplifyAll_formulas]
  rfl

end Matrix

end FlowShader
