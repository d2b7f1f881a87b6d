import FlowShader.Proofs.Scalar.Real
import FlowShader.Proofs.Matrix.Inverse
import FlowShader.Proofs.Shader.LinearAlgebra
import FlowShader.Proofs.Simplify.Price

namespace FlowShader.Matrix

variable {L : Type} [Literal L] {ρ : Valuation L ℝ} {n : Nat}

theorem forall₂_ofFn {α β : Type} {R : α → β → Prop} {f : Fin n → α} {g : Fin n → β} :
    List.Forall₂ R (List.ofFn f) (List.ofFn g) ↔ ∀ i, R (f i) (g i) := by
  refine ⟨fun h => ?_, fun h => ?_⟩
  · obtain ⟨g', hg, h⟩ := exists_ofFn_of_forall₂ h
    rwa [List.ofFn_injective hg]
  · refine List.forall₂_iff_get.2 ⟨by simp, fun i hi _ => ?_⟩
    simpa using h ⟨i, by simpa using hi⟩

omit [Literal L] in
theorem columnEntries_grid (e : Fin n → Fin n → Expr L) :
    (⟨grid e⟩ : Matrix L).columnEntries = Shader.Value.columns e := by
  have hcolumn (c : Fin n) : (grid e).filterMap (·[c.val]?) = List.ofFn fun r => e r c := by
    rw [grid, List.ofFn_eq_map, List.ofFn_eq_map, List.filterMap_map, ← List.filterMap_eq_map]
    exact List.filterMap_congr fun r _ => by simp
  rw [columnEntries, height_grid, List.flatMap_def, Shader.Value.map_range_eq_ofFn,
    Shader.Value.columns_eq_flatten]
  exact congrArg List.flatten (congrArg List.ofFn (funext hcolumn))

/-- Every entry is defined, with these values. -/
def HasValues (ρ : Valuation L ℝ) (m : Matrix L) (A : Fin n → Fin n → ℝ) : Prop :=
  List.Forall₂ (List.Forall₂ (Expr.HasValue ρ)) m.rows (grid A)

theorem hasValues_grid {e : Fin n → Fin n → Expr L} {A : Fin n → Fin n → ℝ} :
    HasValues ρ ⟨grid e⟩ A ↔ ∀ i j, (e i j).HasValue ρ (A i j) := by
  simp only [HasValues, grid, forall₂_ofFn]

theorem HasValues.exists_grid {m : Matrix L} {A : Fin n → Fin n → ℝ} (h : m.HasValues ρ A) :
    ∃ e : Fin n → Fin n → Expr L, m = ⟨grid e⟩ ∧ ∀ i j, (e i j).HasValue ρ (A i j) := by
  have hflip : List.Forall₂ (List.Forall₂ fun x e => Expr.HasValue ρ e x) (grid A) m.rows :=
    h.flip.imp fun _ _ hrow => hrow.flip
  obtain ⟨e, he, hvalue⟩ := exists_grid_of_forall₂ hflip
  exact ⟨e, congrArg Matrix.mk he, hvalue⟩

variable [LawfulBEq L]

theorem foldl_products_hasValue (hfaithful : Literal.Faithful ρ.literal) {row column : List (Expr L)}
    {xs ys : List ℝ} (hrow : List.Forall₂ (Expr.HasValue ρ) row xs)
    (hcolumn : List.Forall₂ (Expr.HasValue ρ) column ys) {acc : Expr L} {z : ℝ} (hacc : acc.HasValue ρ z) :
    (((row.zip column).filter fun (a, x) => !a.isZero && !x.isZero).foldl (fun acc (a, x) => acc + a * x)
      acc).HasValue ρ (z + (xs.zipWith (· * ·) ys).sum) := by
  induction hrow generalizing column ys acc z with
  | nil => simpa using hacc
  | @cons a x row xs ha _ ih =>
      cases hcolumn with
      | nil => simpa using hacc
      | @cons b y column ys hb hcolumn =>
          rw [List.zip_cons_cons, List.zipWith_cons_cons, List.sum_cons, ← add_assoc, List.filter_cons]
          by_cases hzero : a.isZero = true ∨ b.isZero = true
          · have hproduct : x * y = 0 := by
              rcases hzero with hzero | hzero
              · rw [ha.eq_zero hfaithful hzero, zero_mul]
              · rw [hb.eq_zero hfaithful hzero, mul_zero]
            rw [if_neg (by simpa [imp_iff_not_or] using hzero), hproduct, add_zero]
            exact ih hcolumn hacc
          · rw [if_pos (by simpa [not_or] using hzero), List.foldl_cons]
            exact ih hcolumn (hacc.add hfaithful (ha.mul hfaithful hb))

/-- An inverse that is applied to formulas multiplies their values with the adjugate and divides by the
determinant. -/
theorem Inverse.apply_hasValue (hfaithful : Literal.Faithful ρ.literal) {inv : Inverse L}
    {a : Fin n → Fin n → Expr L} {A : Fin n → Fin n → ℝ} (hrows : inv.adjugate.rows = grid a)
    (ha : ∀ i j, (a i j).HasValue ρ (A i j)) {d : ℝ} (hdeterminant : inv.determinant.HasValue ρ d) (hd : d ≠ 0)
    {es : List (Expr L)} {v : Fin n → ℝ} (hes : List.Forall₂ (Expr.HasValue ρ) es (List.ofFn v)) :
    List.Forall₂ (Expr.HasValue ρ) (inv.apply es) (List.ofFn fun i => (Matrix.of A).mulVec v i * (1 / d)) := by
  rw [apply, mulVector, hrows, grid, List.map_ofFn, List.map_ofFn, forall₂_ofFn]
  intro i
  have hsum := foldl_products_hasValue hfaithful (forall₂_ofFn.2 (ha i)) hes (Expr.hasValue_zero hfaithful)
  rw [zero_add, Shader.Value.zipWith_ofFn, List.sum_ofFn] at hsum
  rw [← div_eq_mul_one_div]
  exact hsum.div hfaithful hdeterminant hd

theorem Inverse.toMatrix_hasValues (hfaithful : Literal.Faithful ρ.literal) {inv : Inverse L}
    {a : Fin n → Fin n → Expr L} {A : Fin n → Fin n → ℝ} (hrows : inv.adjugate.rows = grid a)
    (ha : ∀ i j, (a i j).HasValue ρ (A i j)) {d : ℝ} (hdeterminant : inv.determinant.HasValue ρ d) (hd : d ≠ 0) :
    inv.toMatrix.HasValues ρ fun i j => A i j / d := by
  have hmatrix : inv.toMatrix = ⟨grid fun i j => a i j / inv.determinant⟩ := by
    rw [toMatrix, map, hrows, grid, List.map_ofFn]
    simp only [grid, Function.comp_def, List.map_ofFn]
  rw [hmatrix, hasValues_grid]
  exact fun i j => (ha i j).div hfaithful hdeterminant hd

theorem div_mulVec (A : Fin n → Fin n → ℝ) (d : ℝ) (v : Fin n → ℝ) :
    (Matrix.of fun i j => A i j / d).mulVec v = fun i => (Matrix.of A).mulVec v i * (1 / d) := by
  funext i
  simp only [Matrix.mulVec, dotProduct, Matrix.of_apply, Finset.sum_mul]
  exact Finset.sum_congr rfl fun j _ => by ring

theorem Inverse.apply_hasValues (hfaithful : Literal.Faithful ρ.literal) {inv : Inverse L}
    {a : Fin n → Fin n → Expr L} {A : Fin n → Fin n → ℝ} (hrows : inv.adjugate.rows = grid a)
    (ha : ∀ i j, (a i j).HasValue ρ (A i j)) {d : ℝ} (hdeterminant : inv.determinant.HasValue ρ d) (hd : d ≠ 0)
    {es : List (Expr L)} {v : Fin n → ℝ} (hes : List.Forall₂ (Expr.HasValue ρ) es (List.ofFn v)) :
    List.Forall₂ (Expr.HasValue ρ) (inv.apply es) (List.ofFn ((Matrix.of fun i j => A i j / d).mulVec v)) := by
  rw [div_mulVec]
  exact apply_hasValue hfaithful hrows ha hdeterminant hd hes

theorem mul_adjugate_div (A : Fin n → Fin n → ℝ) (hdet : (Matrix.of A).det ≠ 0) :
    Matrix.of A * Matrix.of (fun i j => (Matrix.of A).adjugate i j / (Matrix.of A).det) = 1 := by
  have hscale : Matrix.of (fun i j => (Matrix.of A).adjugate i j / (Matrix.of A).det) =
      (Matrix.of A).det⁻¹ • (Matrix.of A).adjugate := by
    ext i j
    rw [Matrix.of_apply, Matrix.smul_apply, smul_eq_mul, div_eq_inv_mul]
  rw [hscale, Matrix.mul_smul, Matrix.mul_adjugate, smul_smul, inv_mul_cancel₀ hdet, one_smul]

/-- An inverse inverts wherever the matrix is defined and regular, written out or applied. A matrix that
is regular at some point where it is defined has an inverse. -/
theorem inverse_inverts (hfaithful : Literal.Faithful ρ.literal) (h2 : 2 ≤ n) (h4 : n ≤ 4) {m : Matrix L}
    {A : Fin n → Fin n → ℝ} (hm : m.HasValues ρ A) :
    (∀ inv, m.inverse = .ok inv → (Matrix.of A).det ≠ 0 →
      ∃ B, inv.toMatrix.HasValues ρ B ∧ Matrix.of A * Matrix.of B = 1 ∧
        ∀ es v, List.Forall₂ (Expr.HasValue ρ) es (List.ofFn v) →
          List.Forall₂ (Expr.HasValue ρ) (inv.apply es) (List.ofFn ((Matrix.of B).mulVec v))) ∧
    (m.inverse = .error .singular → (Matrix.of A).det = 0) ∧
    ((Matrix.of A).det ≠ 0 → ∃ inv, m.inverse = .ok inv) := by
  obtain ⟨e, rfl, he⟩ := hm.exists_grid
  refine ⟨fun inv hinv hdet => ?_, fun hsingular => ?_, fun hdet => ?_⟩
  · obtain ⟨inv', a, hinv', hdeterminant, hrows, ha⟩ := inverse_hasValue hfaithful h2 h4 he hdet
    obtain rfl := Except.ok.inj (hinv.symm.trans hinv')
    refine ⟨_, Inverse.toMatrix_hasValues hfaithful hrows ha hdeterminant hdet, mul_adjugate_div A hdet, ?_⟩
    intro es v hes
    exact Inverse.apply_hasValues hfaithful hrows ha hdeterminant hdet hes
  · by_contra hdet
    obtain ⟨inv, -, hinv, -⟩ := inverse_hasValue hfaithful h2 h4 he hdet
    cases hsingular.symm.trans hinv
  · obtain ⟨inv, -, hinv, -⟩ := inverse_hasValue hfaithful h2 h4 he hdet
    exact ⟨inv, hinv⟩

section Singular

theorem isZero_of_isNumber (hzero : ∀ x, Literal.isFinite x = true → ρ.literal x = 0 → x = 0) {e : Expr L}
    (he : e.HasValue ρ 0) (hnumber : (∃ x, e = .literal x) ∨ ∃ c, e = .constant c) : e.isZero = true := by
  obtain ⟨x, rfl⟩ | ⟨c, rfl⟩ := hnumber
  · exact beq_iff_eq.2 (hzero x he.literal_finite he.literal_eq)
  · have hc : (c.value : ℝ) = 0 := Except.ok.inj he.eval
    cases c with
    | pi => exact absurd hc Real.pi_ne_zero
    | e => exact absurd hc (Real.exp_ne_zero 1)

/-- A matrix is refused if its determinant is zero and a mere literal as soon as it is expanded. -/
theorem inverse_eq_singular (hfaithful : Literal.Faithful ρ.literal) (hzero : ∀ x, ρ.literal x = 0 → x = 0)
    (h2 : 2 ≤ n) (h4 : n ≤ 4) {e : Fin n → Fin n → Expr L} {A : Fin n → Fin n → ℝ}
    (h : ∀ i j, (e i j).HasValue ρ (A i j)) (hdet : (Matrix.of A).det = 0)
    (hprice : (expandDeterminant ⟨grid e⟩).price ≤ 1) : inverse ⟨grid e⟩ = .error .singular := by
  have hsame := expansions_sameValue hfaithful h
  have hcheap := Expr.simplifyAll_price_le (expandDeterminant ⟨grid e⟩ :: expandAdjugate ⟨grid e⟩) {}
  rw [inverse, checkSquare_grid]
  cases hsimple : Expr.simplifyAll (expandDeterminant ⟨grid e⟩ :: expandAdjugate ⟨grid e⟩) with
  | nil =>
      rw [hsimple] at hsame
      cases hsame
  | cons d es =>
      rw [hsimple] at hsame hcheap
      obtain ⟨⟨x, hx, hd⟩, -⟩ := List.forall₂_cons.1 hsame
      obtain rfl : x = 0 := (hx.unique (expandDeterminant_hasValue hfaithful h)).trans hdet
      have hisZero := isZero_of_isNumber (fun x _ => hzero x) hd
        (Expr.leaf_of_price_le_one ((List.forall₂_cons.1 hcheap).1.trans hprice))
      have hsize : ¬ (decide (n < 2) || decide (4 < n)) = true := by simp; omega
      simp only [bind, Except.bind, if_neg hsize, if_pos hisZero]

end Singular

section Points

noncomputable def nearOrigin : Valuation Elementary ℝ :=
  ⟨Elementary.toReal, fun v => if v = "x" then some 1 else if v = "y" then some (2 : ℕ) else none⟩

theorem x_nearOrigin : (Expr.var "x" : Expr Elementary).HasValue nearOrigin 1 := .var rfl

theorem y_nearOrigin : (Expr.var "y" : Expr Elementary).HasValue nearOrigin (2 : ℕ) := .var rfl

theorem literal_nearOrigin (k : ℕ) : (Expr.literal (Elementary.ofNat k)).HasValue nearOrigin k := .literal rfl

def skew : Fin 3 → Fin 3 → Expr Elementary :=
  ![![.var "x", .literal (.ofNat 1), .literal (.ofNat 0)],
    ![.literal (.ofNat 0), .var "y", .literal (.ofNat 2)],
    ![.literal (.ofNat 1), .literal (.ofNat 0), .op .mul (.var "x") (.var "y")]]

def skewValues : Fin 3 → Fin 3 → ℝ :=
  ![![1, (1 : ℕ), (0 : ℕ)], ![(0 : ℕ), (2 : ℕ), (2 : ℕ)], ![(1 : ℕ), (0 : ℕ), 1 * (2 : ℕ)]]

theorem skew_hasValues : HasValues nearOrigin ⟨grid skew⟩ skewValues := by
  refine hasValues_grid.2 fun i j => ?_
  fin_cases i <;> fin_cases j
  · exact x_nearOrigin
  · exact literal_nearOrigin 1
  · exact literal_nearOrigin 0
  · exact literal_nearOrigin 0
  · exact y_nearOrigin
  · exact literal_nearOrigin 2
  · exact literal_nearOrigin 1
  · exact literal_nearOrigin 0
  · exact .op x_nearOrigin y_nearOrigin trivial

theorem det_skewValues : (Matrix.of skewValues).det ≠ 0 := by
  simp [skewValues, Matrix.det_fin_three]
  norm_num

noncomputable def flat : Fin 2 → Fin 2 → Expr Elementary := ![![.var "x", .zero], ![.var "y", .zero]]

def flatValues : Fin 2 → Fin 2 → ℝ := ![![1, 0], ![(2 : ℕ), 0]]

theorem flat_hasValue (i j : Fin 2) : (flat i j).HasValue nearOrigin (flatValues i j) := by
  have hzero : (Expr.zero : Expr Elementary).HasValue nearOrigin 0 := Expr.hasValue_zero Elementary.faithful_toReal
  fin_cases i <;> fin_cases j
  · exact x_nearOrigin
  · exact hzero
  · exact y_nearOrigin
  · exact hzero

theorem inverse_flat : inverse ⟨grid flat⟩ = .error .singular := by
  have hexpand : expandDeterminant ⟨grid flat⟩ = .literal (0 - 0) := by
    have hzero : (Expr.zero : Expr Elementary).isZero = true := beq_self_eq_true _
    have hleft (v : String) : (Expr.var v * Expr.zero : Expr Elementary) = .zero := if_pos (by simp [hzero])
    have hright (v : String) : (Expr.zero * Expr.var v : Expr Elementary) = .zero := if_pos hzero
    have hraw : expandDeterminant ⟨grid flat⟩ =
        (Expr.var "x" * Expr.zero - Expr.zero * Expr.var "y" : Expr Elementary) := rfl
    rw [hraw, hleft, hright]
    rfl
  refine inverse_eq_singular Elementary.faithful_toReal (fun x hx => ?_) (by decide) (by decide) flat_hasValue ?_ ?_
  · exact Elementary.toReal_injective (hx.trans Elementary.faithful_toReal.zero.symm)
  · simp [flatValues, Matrix.det_fin_two]
  · rw [hexpand]
    exact le_rfl

theorem skew_inverts_flat_singular :
    (∃ inv B, inverse ⟨grid skew⟩ = .ok inv ∧ inv.toMatrix.HasValues nearOrigin B ∧
      Matrix.of skewValues * Matrix.of B = 1 ∧
      List.Forall₂ (Expr.HasValue nearOrigin) (inv.apply [.var "x", .var "y", .var "y"])
        (List.ofFn ((Matrix.of B).mulVec ![1, 2, 2]))) ∧
    inverse ⟨grid flat⟩ = .error .singular ∧ (Matrix.of flatValues).det = 0 := by
  obtain ⟨hinverts, -, hexists⟩ := inverse_inverts Elementary.faithful_toReal (by decide) (by decide) skew_hasValues
  obtain ⟨inv, hinv⟩ := hexists det_skewValues
  obtain ⟨B, hB, hmul, happly⟩ := hinverts inv hinv det_skewValues
  have hflat := inverse_inverts Elementary.faithful_toReal (by decide) (by decide) (hasValues_grid.2 flat_hasValue)
  exact ⟨⟨inv, B, hinv, hB, hmul, happly _ _ (.cons x_nearOrigin (.cons y_nearOrigin (.cons y_nearOrigin .nil)))⟩,
    inverse_flat, hflat.2.1 inverse_flat⟩

end Points

end FlowShader.Matrix
