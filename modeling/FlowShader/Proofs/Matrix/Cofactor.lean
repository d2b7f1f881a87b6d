import Mathlib.Data.List.OfFn
import Mathlib.Data.List.FinRange
import Mathlib.LinearAlgebra.Matrix.Adjugate
import FlowShader.Matrix
import FlowShader.Proofs.Expr.Fold

namespace FlowShader.Matrix

open FlowShader.Expr (HasValue)

section Grid

variable {α β : Type} {m n : Nat}

def grid (e : Fin m → Fin n → α) : List (List α) := List.ofFn fun i => List.ofFn (e i)

theorem eraseIdx_ofFn (f : Fin (n + 1) → α) (j : Fin (n + 1)) :
    (List.ofFn f).eraseIdx j = List.ofFn (f ∘ j.succAbove) := by
  apply List.ext_getElem
  · rw [List.length_eraseIdx_of_lt (by simp only [List.length_ofFn, j.isLt])]
    simp only [List.length_ofFn, Nat.add_sub_cancel]
  · intro k _ hk
    rw [List.length_ofFn] at hk
    simp only [List.getElem_eraseIdx, List.getElem_ofFn, Function.comp_apply]
    by_cases hkj : k < j.val
    · have hbelow : Fin.castSucc ⟨k, hk⟩ < j := hkj
      rw [dif_pos hkj, Fin.succAbove_of_castSucc_lt _ _ hbelow, Fin.castSucc_mk]
    · have habove : j ≤ Fin.castSucc ⟨k, hk⟩ := Nat.le_of_not_lt hkj
      rw [dif_neg hkj, Fin.succAbove_of_le_castSucc _ _ habove, Fin.succ_mk]

theorem eraseIdx_grid (e : Fin m → Fin (n + 1) → α) (j : Fin (n + 1)) :
    (grid e).map (·.eraseIdx j) = grid fun i => e i ∘ j.succAbove := by
  simp only [grid, List.map_ofFn, Function.comp_def, eraseIdx_ofFn]

theorem drop_one_grid (e : Fin (m + 1) → Fin n → α) : (grid e).drop 1 = grid (e ∘ Fin.succ) := by
  rw [grid, List.ofFn_succ, List.drop_one, List.tail_cons]
  rfl

theorem getD_grid (e : Fin m → Fin n → α) (i : Fin m) (j : Fin n) (d : α) :
    ((grid e).getD i []).getD j d = e i j := by
  simp [grid]

theorem exists_ofFn_of_forall₂ {R : α → β → Prop} {f : Fin n → α} {l : List β}
    (h : List.Forall₂ R (List.ofFn f) l) : ∃ g, l = List.ofFn g ∧ ∀ i, R (f i) (g i) := by
  obtain ⟨hlen, hget⟩ := List.forall₂_iff_get.1 h
  obtain rfl : n = l.length := by simpa using hlen
  refine ⟨l.get, (List.ofFn_get l).symm, fun i => ?_⟩
  simpa using hget i (by simp) i.isLt

theorem exists_grid_of_forall₂ {R : α → β → Prop} {e : Fin m → Fin n → α} {l : List (List β)}
    (h : List.Forall₂ (List.Forall₂ R) (grid e) l) : ∃ e', l = grid e' ∧ ∀ i j, R (e i j) (e' i j) := by
  obtain ⟨g, rfl, hg⟩ := exists_ofFn_of_forall₂ h
  choose e' he' hR using fun i => exists_ofFn_of_forall₂ (hg i)
  exact ⟨e', congrArg List.ofFn (funext he'), hR⟩

end Grid

variable {L : Type} [Literal L] {ρ : Valuation L ℝ} {names : List String} {n : Nat}

section Determinant

/-- A way for formulas to have values in a ring, which arithmetic on formulas respects. -/
structure Arithmetic {R : Type} [CommRing R] (V : Expr L → R → Prop) : Prop where
  zero : V .zero 0
  one : V .one 1
  add {a b : Expr L} {x y : R} : V a x → V b y → V (a + b) (x + y)
  sub {a b : Expr L} {x y : R} : V a x → V b y → V (a - b) (x - y)
  mul {a b : Expr L} {x y : R} : V a x → V b y → V (a * b) (x * y)
  eq_zero {a : Expr L} {x : R} : V a x → a.isZero = true → x = 0

variable {R : Type} [CommRing R] {V : Expr L → R → Prop}

/-- Signed terms added up in order, those with a zero factor left out. -/
theorem Arithmetic.foldl_cofactors (hV : Arithmetic V) (js : List (Fin n)) (a d : Nat → Expr L) {x y : Fin n → R}
    (ha : ∀ j : Fin n, V (a j) (x j)) (hd : ∀ j : Fin n, V (d j) (y j)) {acc : Expr L} {z : R} (hacc : V acc z) :
    V (((js.map Fin.val).filter fun j => !(a j).isZero).foldl
      (fun acc j => if j % 2 = 0 then acc + a j * d j else acc - a j * d j) acc)
      (z + (js.map fun j => (-1) ^ j.val * x j * y j).sum) := by
  induction js generalizing acc z with
  | nil => simpa using hacc
  | cons j js ih =>
      rw [List.map_cons, List.map_cons, List.sum_cons, ← add_assoc]
      by_cases hzero : (a j).isZero = true
      · rw [List.filter_cons_of_neg (by simpa using hzero), hV.eq_zero (ha j) hzero]
        simpa only [mul_zero, zero_mul, add_zero] using ih hacc
      · rw [List.filter_cons_of_pos (by simpa using hzero), List.foldl_cons]
        have hterm := hV.mul (ha j) (hd j)
        apply ih
        split
        · next heven =>
            rw [(Nat.even_iff.2 heven).neg_one_pow, one_mul]
            exact hV.add hacc hterm
        · next hodd =>
            rw [(Nat.odd_iff.2 (Nat.mod_two_ne_zero.1 hodd)).neg_one_pow, neg_one_mul, neg_mul, ← sub_eq_add_neg]
            exact hV.sub hacc hterm

/-- Expansion by cofactors of the first row gives the determinant. -/
theorem Arithmetic.expand (hV : Arithmetic V) {e : Fin n → Fin n → Expr L} {A : Fin n → Fin n → R}
    (h : ∀ i j, V (e i j) (A i j)) : V (expand n (grid e)) (Matrix.of A).det := by
  induction n with
  | zero =>
      rw [Matrix.det_fin_zero]
      exact hV.one
  | succ n ih =>
      have hentry (i j : Fin (n + 1)) : V (((grid e).getD i []).getD j .zero) (A i j) := by
        rw [getD_grid]
        exact h i j
      match n with
      | 0 =>
          rw [Matrix.det_fin_one]
          exact hentry 0 0
      | 1 =>
          rw [Matrix.det_fin_two]
          exact hV.sub (hV.mul (hentry 0 0) (hentry 1 1)) (hV.mul (hentry 0 1) (hentry 1 0))
      | n + 2 =>
          have hminor (j : Fin (n + 3)) :
              V (Matrix.expand (n + 2) (((grid e).drop 1).map (·.eraseIdx j)))
                ((Matrix.of A).submatrix Fin.succ j.succAbove).det := by
            rw [drop_one_grid, eraseIdx_grid]
            exact ih fun i k => h i.succ (j.succAbove k)
          have hfirst (j : Fin (n + 3)) : V (((grid e).headD []).getD j .zero) (A 0 j) := by
            rw [List.headD_eq_head?_getD, List.head?_eq_getElem?]
            exact hentry 0 j
          have hfold := hV.foldl_cofactors (List.finRange (n + 3))
            (fun j => ((grid e).headD []).getD j .zero)
            (fun j => Matrix.expand (n + 2) (((grid e).drop 1).map (·.eraseIdx j))) hfirst hminor hV.zero
          rw [Matrix.det_succ_row_zero, Fin.sum_univ_def]
          rw [zero_add, List.map_coe_finRange_eq_range] at hfold
          exact hfold

variable [LawfulBEq L]

theorem arithmetic_hasValue (hfaithful : Literal.Faithful ρ.literal) :
    Arithmetic fun (a : Expr L) (x : ℝ) => a.HasValue ρ x where
  zero := Expr.hasValue_zero hfaithful
  one := Expr.hasValue_one hfaithful
  add ha hb := ha.add hfaithful hb
  sub ha hb := ha.sub hfaithful hb
  mul ha hb := ha.mul hfaithful hb
  eq_zero ha := ha.eq_zero hfaithful

theorem expand_hasValue (hfaithful : Literal.Faithful ρ.literal) {e : Fin n → Fin n → Expr L}
    {A : Fin n → Fin n → ℝ} (h : ∀ i j, (e i j).HasValue ρ (A i j)) :
    (expand n (grid e)).HasValue ρ (Matrix.of A).det :=
  (arithmetic_hasValue hfaithful).expand h

end Determinant

section Adjugate

/-- An entry of the adjugate, not simplified. -/
def cofactor (m : Matrix L) (i j : Nat) : Expr L :=
  if (i + j) % 2 = 0 then (m.minor j i).expandDeterminant else -(m.minor j i).expandDeterminant

omit [Literal L] in
theorem height_grid (e : Fin n → Fin n → Expr L) : (⟨grid e⟩ : Matrix L).height = n := List.length_ofFn

theorem expandAdjugate_grid (e : Fin n → Fin n → Expr L) :
    expandAdjugate ⟨grid e⟩ = (grid fun i j : Fin n => cofactor ⟨grid e⟩ i j).flatten := by
  have hrange {α : Type} (f : Nat → α) : (List.range n).map f = List.ofFn fun i : Fin n => f i := by
    rw [List.ofFn_eq_map, ← List.map_coe_finRange_eq_range, List.map_map]
    rfl
  rw [expandAdjugate, height_grid, List.flatMap_def, hrange]
  exact congrArg List.flatten (congrArg List.ofFn (funext fun i => hrange fun j => cofactor ⟨grid e⟩ i j))

omit [Literal L] in
theorem minor_grid (e : Fin (n + 1) → Fin (n + 1) → Expr L) (i j : Fin (n + 1)) :
    (⟨grid e⟩ : Matrix L).minor i j = ⟨grid fun a b => e (i.succAbove a) (j.succAbove b)⟩ := by
  have hrows : (grid e).eraseIdx i = grid (e ∘ i.succAbove) := eraseIdx_ofFn _ i
  rw [minor, hrows, eraseIdx_grid]
  rfl

variable [LawfulBEq L]

theorem cofactor_hasValue (hfaithful : Literal.Faithful ρ.literal) {e : Fin n → Fin n → Expr L}
    {A : Fin n → Fin n → ℝ} (h : ∀ i j, (e i j).HasValue ρ (A i j)) (i j : Fin n) :
    (cofactor ⟨grid e⟩ i j).HasValue ρ ((Matrix.of A).adjugate i j) := by
  match n with
  | 0 => exact i.elim0
  | n + 1 =>
      have hminor : ((⟨grid e⟩ : Matrix L).minor j i).expandDeterminant.HasValue ρ
          ((Matrix.of A).submatrix j.succAbove i.succAbove).det := by
        rw [minor_grid, expandDeterminant, height_grid]
        exact expand_hasValue hfaithful fun a b => h (j.succAbove a) (i.succAbove b)
      rw [cofactor, Matrix.adjugate_fin_succ_eq_det_submatrix, add_comm j.val]
      split
      · next heven =>
          rw [(Nat.even_iff.2 heven).neg_one_pow, one_mul]
          exact hminor
      · next hodd =>
          rw [(Nat.odd_iff.2 (Nat.mod_two_ne_zero.1 hodd)).neg_one_pow, neg_one_mul]
          exact hminor.neg hfaithful

end Adjugate

section Names

open FlowShader.Expr (Over)

def RowsOver (names : List String) (rows : List (List (Expr L))) : Prop := ∀ row ∈ rows, ∀ e ∈ row, e.Over names

omit [Literal L] in
theorem RowsOver.headD {rows : List (List (Expr L))} (h : RowsOver names rows) :
    ∀ e ∈ rows.headD [], e.Over names := by
  cases rows with
  | nil => exact List.forall_mem_nil _
  | cons row rows => exact h row List.mem_cons_self

omit [Literal L] in
theorem RowsOver.getD {rows : List (List (Expr L))} (h : RowsOver names rows) (i : Nat) :
    ∀ e ∈ rows.getD i [], e.Over names := by
  rw [List.getD_eq_getElem?_getD]
  cases hi : rows[i]? with
  | none => exact List.forall_mem_nil _
  | some row => exact h row (List.mem_of_getElem? hi)

theorem getD_over {row : List (Expr L)} (h : ∀ e ∈ row, e.Over names) (j : Nat) :
    (row.getD j .zero).Over names := by
  rw [List.getD_eq_getElem?_getD]
  cases hj : row[j]? with
  | none => exact Expr.over_literal _
  | some e => exact h e (List.mem_of_getElem? hj)

omit [Literal L] in
theorem RowsOver.eraseIdx {rows : List (List (Expr L))} (h : RowsOver names rows) (j : Nat) :
    RowsOver names (rows.map (·.eraseIdx j)) := by
  intro row hrow e he
  obtain ⟨row, hmem, rfl⟩ := List.mem_map.1 hrow
  exact h row hmem e (List.mem_of_mem_eraseIdx he)

theorem expand_over {n : Nat} {rows : List (List (Expr L))} (h : RowsOver names rows) :
    (expand n rows).Over names := by
  fun_induction expand n rows with
  | case1 => exact Expr.over_literal _
  | case2 rows =>
      have hhead := getD_over h.headD 0
      rwa [List.getD_eq_getElem?_getD, ← List.head?_eq_getElem?, ← List.headD_eq_head?_getD] at hhead
  | case3 rows entry =>
      have hentry (i j : Nat) : (entry i j).Over names := getD_over (h.getD i) j
      exact ((hentry 0 0).mul (hentry 1 1)).sub ((hentry 0 1).mul (hentry 1 0))
  | case4 n rows _ _ first ih =>
      refine List.foldlRecOn _ _ (Expr.over_literal _) fun acc hacc j _ => ?_
      have hrest : RowsOver names (rows.drop 1) := fun row hrow => h row (List.mem_of_mem_drop hrow)
      have hterm := (getD_over h.headD j).mul (ih j (hrest.eraseIdx j))
      dsimp only
      split
      · exact hacc.add hterm
      · exact hacc.sub hterm

theorem expandAdjugate_over {m : Matrix L} (h : RowsOver names m.rows) :
    ∀ e ∈ m.expandAdjugate, e.Over names := by
  intro e he
  obtain ⟨i, _, he⟩ := List.mem_flatMap.1 he
  obtain ⟨j, _, rfl⟩ := List.mem_map.1 he
  have hrows : RowsOver names (m.rows.eraseIdx j) := fun row hrow => h row (List.mem_of_mem_eraseIdx hrow)
  have hminor : (m.minor j i).expandDeterminant.Over names := expand_over (hrows.eraseIdx i)
  dsimp only
  split
  · exact hminor
  · exact hminor.neg

end Names

end FlowShader.Matrix
