import FlowShader.Proofs.Scalar.Real
import FlowShader.Proofs.Except
import FlowShader.Proofs.Matrix.Application

namespace FlowShader

/-- Literals are elements of a ring, and folding them computes in the ring. -/
structure Literal.FoldsExactly {L R : Type} [Literal L] [CommRing R] (literal : L → R) : Prop where
  zero : literal 0 = 0
  one : literal 1 = 1
  add (x y : L) : literal (x + y) = literal x + literal y
  sub (x y : L) : literal (x - y) = literal x - literal y
  mul (x y : L) : literal (x * y) = literal x * literal y
  eq_zero {x : L} : (x == 0) = true → literal x = 0
  eq_one {x : L} : (x == 1) = true → literal x = 1

theorem Literal.Faithful.foldsExactly {L : Type} [Literal L] [LawfulBEq L] {literal : L → ℝ}
    (hfaithful : Literal.Faithful literal) : Literal.FoldsExactly literal where
  zero := hfaithful.zero
  one := hfaithful.one
  add x y := hfaithful.operator .add x y (hfaithful.finite x) (hfaithful.finite y) (hfaithful.finite _) trivial
  sub x y := hfaithful.operator .sub x y (hfaithful.finite x) (hfaithful.finite y) (hfaithful.finite _) trivial
  mul x y := hfaithful.operator .mul x y (hfaithful.finite x) (hfaithful.finite y) (hfaithful.finite _) trivial
  eq_zero h := eq_of_beq h ▸ hfaithful.zero
  eq_one h := eq_of_beq h ▸ hfaithful.one

namespace Matrix

variable {L R : Type}

def Square (m : Matrix L) : Prop := ∀ row ∈ m.rows, row.length = m.height

variable [Literal L]

section Ring

variable [RingScalar R] {ρ : Valuation L R} {a b : Expr L} {x y : R}

omit [Literal L] in
theorem eval_op_eq_ok {o : Operator} (ha : a.eval ρ = .ok x) (hb : b.eval ρ = .ok y) :
    (Expr.op o a b).eval ρ = .ok (o.apply x y) := by
  rw [Expr.eval, ha, hb]
  rfl

omit [Literal L] in
theorem eval_literal_eq {z : L} (h : (Expr.literal z).eval ρ = .ok x) : ρ.literal z = x := Except.ok.inj h

theorem eq_zero_of_eval_eq_ok (hexact : Literal.FoldsExactly ρ.literal) (ha : a.eval ρ = .ok x)
    (hzero : a.isZero = true) : x = 0 := by
  cases a with
  | literal z => exact (eval_literal_eq ha).symm.trans (hexact.eq_zero hzero)
  | constant | var | call | call₂ | op => cases hzero

theorem eq_one_of_eval_eq_ok (hexact : Literal.FoldsExactly ρ.literal) (ha : a.eval ρ = .ok x)
    (hone : a.isOne = true) : x = 1 := by
  cases a with
  | literal z => exact (eval_literal_eq ha).symm.trans (hexact.eq_one hone)
  | constant | var | call | call₂ | op => cases hone

theorem eval_add_eq_ok (hexact : Literal.FoldsExactly ρ.literal) (ha : a.eval ρ = .ok x) (hb : b.eval ρ = .ok y) :
    (a + b).eval ρ = .ok (x + y) := by
  change (Expr.add a b).eval ρ = .ok (x + y)
  fun_cases Expr.add a b with
  | case1 u v =>
      rw [← eval_literal_eq ha, ← eval_literal_eq hb, ← hexact.add]
      rfl
  | case2 _ _ _ hzero => rwa [eq_zero_of_eval_eq_ok hexact hb hzero, add_zero]
  | case3 _ _ _ _ hzero => rwa [eq_zero_of_eval_eq_ok hexact ha hzero, zero_add]
  | case4 => exact eval_op_eq_ok ha hb

theorem eval_sub_eq_ok (hexact : Literal.FoldsExactly ρ.literal) (ha : a.eval ρ = .ok x) (hb : b.eval ρ = .ok y) :
    (a - b).eval ρ = .ok (x - y) := by
  change (Expr.sub a b).eval ρ = .ok (x - y)
  fun_cases Expr.sub a b with
  | case1 u v =>
      rw [← eval_literal_eq ha, ← eval_literal_eq hb, ← hexact.sub]
      rfl
  | case2 _ _ _ hzero => rwa [eq_zero_of_eval_eq_ok hexact hb hzero, sub_zero]
  | case3 => exact eval_op_eq_ok ha hb

theorem eval_mul_eq_ok (hexact : Literal.FoldsExactly ρ.literal) (ha : a.eval ρ = .ok x) (hb : b.eval ρ = .ok y) :
    (a * b).eval ρ = .ok (x * y) := by
  change (Expr.mul a b).eval ρ = .ok (x * y)
  fun_cases Expr.mul a b with
  | case1 u v =>
      rw [← eval_literal_eq ha, ← eval_literal_eq hb, ← hexact.mul]
      rfl
  | case2 _ _ _ hzero =>
      have hxy : x * y = 0 := by
        rcases Bool.or_eq_true_iff.1 hzero with hzero | hzero
        · rw [eq_zero_of_eval_eq_ok hexact hb hzero, mul_zero]
        · rw [eq_zero_of_eval_eq_ok hexact ha hzero, zero_mul]
      rw [hxy, ← hexact.zero]
      rfl
  | case3 _ _ _ _ hone => rwa [eq_one_of_eval_eq_ok hexact hb hone, mul_one]
  | case4 _ _ _ _ _ hone => rwa [eq_one_of_eval_eq_ok hexact ha hone, one_mul]
  | case5 => exact eval_op_eq_ok ha hb

theorem arithmetic_eval (hexact : Literal.FoldsExactly ρ.literal) :
    Arithmetic fun (a : Expr L) (x : R) => a.eval ρ = .ok x where
  zero := congrArg Except.ok hexact.zero
  one := congrArg Except.ok hexact.one
  add ha hb := eval_add_eq_ok hexact ha hb
  sub ha hb := eval_sub_eq_ok hexact ha hb
  mul ha hb := eval_mul_eq_ok hexact ha hb
  eq_zero ha hzero := eq_zero_of_eval_eq_ok hexact ha hzero

omit [Literal L] in
theorem exists_grid_of_square {m : Matrix L} (h : m.Square) :
    ∃ e : Fin m.height → Fin m.height → Expr L, m = ⟨grid e⟩ := by
  have hlength (i : Fin m.height) : (m.rows.get i).length = m.height := h _ (List.get_mem _ _)
  refine ⟨fun i j => (m.rows.get i).get (j.cast (hlength i).symm), ?_⟩
  have hrow (i : Fin m.height) :
      List.ofFn (fun j => (m.rows.get i).get (j.cast (hlength i).symm)) = m.rows.get i := by
    rw [← List.ofFn_congr (hlength i), List.ofFn_get]
  simp only [grid, hrow]
  exact congrArg Matrix.mk (List.ofFn_get m.rows).symm

theorem eval_expandDeterminant (hexact : Literal.FoldsExactly ρ.literal) {m : Matrix L}
    (hsquare : m.Square) {values : List (List R)} (hvalues : m.eval ρ = .ok values) :
    m.expandDeterminant.eval ρ =
      .ok (Matrix.of fun i j : Fin m.height => (values.getD i []).getD j 0).det := by
  obtain ⟨e, he⟩ := exists_grid_of_square hsquare
  have hrows : m.rows = grid e := congrArg Matrix.rows he
  have heval : List.Forall₂ (List.Forall₂ fun a x => a.eval ρ = .ok x) (grid e) values :=
    hrows ▸ (forall₂_of_mapM_eq_ok hvalues).imp fun _ _ hrow => forall₂_of_mapM_eq_ok hrow
  obtain ⟨A, rfl, hA⟩ := exists_grid_of_forall₂ heval
  rw [expandDeterminant, hrows]
  simp only [getD_grid]
  exact (arithmetic_eval hexact).expand hA

end Ring

section Refusals

omit [Literal L] in
theorem isSquare_iff {m : Matrix L} : m.isSquare = true ↔ m.Square := by
  simp [isSquare, Square]

omit [Literal L] in
theorem checkSquare_of_square {m : Matrix L} (h : m.Square) : m.checkSquare = .ok m.height :=
  if_pos (isSquare_iff.2 h)

omit [Literal L] in
theorem checkSquare_of_not_square {m : Matrix L} (h : ¬ m.Square) :
    m.checkSquare = .error (.notSquare m.height m.width) :=
  if_neg (isSquare_iff.not.2 h)

theorem determinant_eq_error_iff {m : Matrix L} {err : InversionError} :
    m.determinant = .error err ↔ ¬ m.Square ∧ err = .notSquare m.height m.width := by
  by_cases h : m.Square
  · rw [determinant, checkSquare_of_square h]
    exact ⟨nofun, fun hnot => absurd h hnot.1⟩
  · rw [determinant, checkSquare_of_not_square h]
    exact ⟨fun herr => ⟨h, (Except.error.inj herr).symm⟩, fun herr => congrArg Except.error herr.2.symm⟩

def jointDeterminant (m : Matrix L) : Option (Expr L) :=
  (Expr.simplifyAll (m.expandDeterminant :: m.expandAdjugate)).head?

theorem inverse_of_not_square {m : Matrix L} (h : ¬ m.Square) :
    m.inverse = .error (.notSquare m.height m.width) := by
  rw [inverse, checkSquare_of_not_square h]
  rfl

theorem inverse_of_size {m : Matrix L} (h : m.Square) (hsize : m.height < 2 ∨ 4 < m.height) :
    m.inverse = .error (.unsupportedDimension m.height) := by
  rw [inverse, checkSquare_of_square h]
  exact if_pos (by simpa using hsize)

theorem inverse_of_jointDeterminant {m : Matrix L} (h : m.Square) (h2 : 2 ≤ m.height) (h4 : m.height ≤ 4)
    {d : Expr L} (hd : m.jointDeterminant = some d) :
    if d.isZero then m.inverse = .error .singular else ∃ inv, m.inverse = .ok inv ∧ inv.determinant = d := by
  obtain ⟨es, hes⟩ := List.head?_eq_some_iff.1 hd
  have hsize : ¬ (decide (m.height < 2) || decide (4 < m.height)) = true := by simp; omega
  rw [inverse, checkSquare_of_square h]
  simp only [bind, Except.bind, if_neg hsize, hes]
  split
  · rfl
  · exact ⟨_, rfl, rfl⟩

theorem exists_jointDeterminant (m : Matrix L) : ∃ d, m.jointDeterminant = some d := by
  cases hsimple : Expr.simplifyAll (m.expandDeterminant :: m.expandAdjugate) with
  | nil => simpa [hsimple] using Expr.length_simplifyAll (m.expandDeterminant :: m.expandAdjugate) {}
  | cons d es => exact ⟨d, by rw [jointDeterminant, hsimple, List.head?_cons]⟩

/-- An inverse is refused to a matrix that is not square, then to one of a size without a formula, then
to one whose determinant is simplified to zero. -/
theorem inverse_eq_error_iff {m : Matrix L} {err : InversionError} :
    m.inverse = .error err ↔
      (¬ m.Square ∧ err = .notSquare m.height m.width) ∨
      (m.Square ∧ (m.height < 2 ∨ 4 < m.height) ∧ err = .unsupportedDimension m.height) ∨
      (m.Square ∧ 2 ≤ m.height ∧ m.height ≤ 4 ∧ m.jointDeterminant.any Expr.isZero = true ∧ err = .singular) := by
  by_cases h : m.Square
  · by_cases hsize : m.height < 2 ∨ 4 < m.height
    · rw [inverse_of_size h hsize, Except.error.injEq]
      grind
    · obtain ⟨d, hd⟩ := exists_jointDeterminant m
      have hinverse := inverse_of_jointDeterminant h (by omega) (by omega) hd
      rw [hd, Option.any_some]
      split at hinverse
      · next hzero =>
          rw [hinverse, Except.error.injEq]
          grind
      · next hzero =>
          obtain ⟨inv, hinv, -⟩ := hinverse
          rw [hinv]
          grind
  · rw [inverse_of_not_square h, Except.error.injEq]
    grind

end Refusals

/-- The expansion by cofactors is the determinant at every size, and it is refused exactly to matrices
that are not square. -/
theorem expansion_eval_eq_det [RingScalar R] (m : Matrix L) :
    (∀ ρ : Valuation L R, Literal.FoldsExactly ρ.literal → m.Square → ∀ values, m.eval ρ = .ok values →
      m.expandDeterminant.eval ρ =
        .ok (Matrix.of fun i j : Fin m.height => (values.getD i []).getD j 0).det) ∧
    (∀ err, m.determinant = .error err ↔ ¬ m.Square ∧ err = .notSquare m.height m.width) ∧
    (∀ err, m.inverse = .error err ↔
      (¬ m.Square ∧ err = .notSquare m.height m.width) ∨
      (m.Square ∧ (m.height < 2 ∨ 4 < m.height) ∧ err = .unsupportedDimension m.height) ∨
      (m.Square ∧ 2 ≤ m.height ∧ m.height ≤ 4 ∧ m.jointDeterminant.any Expr.isZero = true ∧ err = .singular)) :=
  ⟨fun _ hexact hsquare _ hvalues => eval_expandDeterminant hexact hsquare hvalues,
    fun _ => determinant_eq_error_iff, fun _ => inverse_eq_error_iff⟩

section Points

def gapped : Matrix Elementary :=
  ⟨[[.var "x", .literal (.ofNat 0), .var "y"], [.literal (.ofNat 1), .var "y", .literal (.ofNat 0)],
    [.literal (.ofNat 0), .literal (.ofNat 1), .var "x"]]⟩

theorem gapped_eval_det :
    gapped.expandDeterminant.eval nearOrigin = .ok (4 : ℕ) ∧ ∃ d, gapped.determinant = .ok d := by
  obtain ⟨hdet, hdeterminant, -⟩ := expansion_eval_eq_det (R := ℝ) gapped
  have hsquare : gapped.Square := by simp [gapped, Square, height]
  have hvalues : gapped.eval nearOrigin =
      .ok [[1, (0 : ℕ), (2 : ℕ)], [(1 : ℕ), (2 : ℕ), (0 : ℕ)], [(0 : ℕ), (1 : ℕ), 1]] := rfl
  refine ⟨?_, ?_⟩
  · refine (hdet nearOrigin Elementary.faithful_toReal.foldsExactly hsquare _ hvalues).trans ?_
    refine congrArg Except.ok ((Matrix.det_fin_three _).trans ?_)
    change (1 : ℝ) * (2 : ℕ) * 1 - 1 * (0 : ℕ) * (1 : ℕ) - (0 : ℕ) * (1 : ℕ) * 1 + (0 : ℕ) * (0 : ℕ) * (0 : ℕ) +
      (2 : ℕ) * (1 : ℕ) * (1 : ℕ) - (2 : ℕ) * (2 : ℕ) * (0 : ℕ) = (4 : ℕ)
    norm_num
  · cases h : gapped.determinant with
    | ok d => exact ⟨d, rfl⟩
    | error err => exact absurd hsquare ((hdeterminant err).1 h).1

/-- A square matrix of a size that has inverses, refused all the same. -/
theorem inverse_refused_square :
    (⟨grid flat⟩ : Matrix Elementary).Square ∧ (⟨grid flat⟩ : Matrix Elementary).height = 2 ∧
      inverse ⟨grid flat⟩ = .error .singular := by
  refine ⟨fun row hrow => ?_, height_grid flat, inverse_flat⟩
  obtain ⟨i, rfl⟩ := List.mem_ofFn.1 hrow
  rw [List.length_ofFn, height_grid]

end Points

end Matrix

end FlowShader
