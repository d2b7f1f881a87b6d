import FlowShader.Proofs.EGraph.Names
import FlowShader.Proofs.Except
import FlowShader.Proofs.Matrix.Cofactor
import FlowShader.Proofs.Simplify

namespace FlowShader.Matrix

open FlowShader.Expr (HasValue SameValue Over)

section Chunks

variable {α β : Type} {m n : Nat}

theorem chunks_append {l : List α} (hl : 0 < l.length) (rest : List α) :
    chunks l.length (l ++ rest) = l :: chunks l.length rest := by
  cases l with
  | nil => cases hl
  | cons x xs => simp [chunks]

theorem chunks_flatten_grid (hn : 0 < n) (e : Fin m → Fin n → α) : chunks n (grid e).flatten = grid e := by
  induction m with
  | zero => simp [grid, chunks]
  | succ m ih =>
      have hgrid : grid e = List.ofFn (e 0) :: grid (e ∘ Fin.succ) := List.ofFn_succ
      have happend := chunks_append (l := List.ofFn (e 0)) (by simpa using hn) (grid (e ∘ Fin.succ)).flatten
      rw [List.length_ofFn] at happend
      rw [hgrid, List.flatten_cons, happend, ih]

theorem exists_grid_of_length (hn : 0 < n) {l : List α} (h : l.length = m * n) :
    ∃ e : Fin m → Fin n → α, chunks n l = grid e := by
  have hl : l = List.ofFn fun i : Fin (m * n) => l.get (i.cast h.symm) := by
    rw [← List.ofFn_congr h, List.ofFn_get]
  rw [hl, List.ofFn_mul]
  exact ⟨_, chunks_flatten_grid hn _⟩

theorem forall₂_chunks {R : α → β → Prop} (n : Nat) {l : List α} {l' : List β} (h : List.Forall₂ R l l') :
    List.Forall₂ (List.Forall₂ R) (chunks n l) (chunks n l') := by
  fun_induction chunks n l generalizing l' with
  | case1 =>
      cases h
      simp [chunks]
  | case2 x xs ih =>
      cases h with
      | cons hx hxs =>
          rw [chunks]
          exact .cons (.cons hx (List.forall₂_take _ hxs)) (ih (List.forall₂_drop _ hxs))

theorem mem_of_mem_chunks {l : List α} {row : List α} (hrow : row ∈ chunks n l) {x : α} (hx : x ∈ row) :
    x ∈ l := by
  fun_induction chunks n l with
  | case1 => cases hrow
  | case2 y ys ih =>
      rcases List.mem_cons.1 hrow with rfl | hrow
      · exact (List.mem_cons.1 hx).elim (fun h => h ▸ List.mem_cons_self) fun h =>
          List.mem_cons_of_mem _ (List.mem_of_mem_take h)
      · exact List.mem_cons_of_mem _ (List.mem_of_mem_drop (ih hrow))

end Chunks

variable {L : Type} [Literal L] {ρ : Valuation L ℝ} {names : List String} {n : Nat}

section Values

theorem exists_grid_of_sameValue (hn : 0 < n) {m : Nat}
    {e : Fin m → Fin n → Expr L} {A : Fin m → Fin n → ℝ} (h : ∀ i j, (e i j).HasValue ρ (A i j))
    {es : List (Expr L)} (hes : List.Forall₂ (SameValue ρ) (grid e).flatten es) :
    ∃ e', chunks n es = grid e' ∧ ∀ i j, (e' i j).HasValue ρ (A i j) := by
  have hchunks := forall₂_chunks n hes
  rw [chunks_flatten_grid hn] at hchunks
  obtain ⟨e', he', hsame⟩ := exists_grid_of_forall₂ hchunks
  refine ⟨e', he', fun i j => ?_⟩
  obtain ⟨x, hx, hx'⟩ := hsame i j
  rwa [(h i j).unique hx]

omit [Literal L] in
theorem mem_flatten_grid {m : Nat} {e : Fin m → Fin n → Expr L} {a : Expr L} :
    a ∈ (grid e).flatten ↔ ∃ i j, e i j = a := by
  simp [grid, List.mem_ofFn]

omit [Literal L] in
theorem checkSquare_grid (e : Fin n → Fin n → Expr L) : checkSquare ⟨grid e⟩ = .ok n := by
  have hsquare : (⟨grid e⟩ : Matrix L).isSquare = true := by
    rw [isSquare, height_grid, List.all_eq_true]
    intro row hrow
    obtain ⟨i, rfl⟩ := List.mem_ofFn.1 hrow
    simp
  rw [checkSquare, if_pos hsquare, height_grid]

variable [LawfulBEq L]

/-- The entries of a Jacobian have the values of the partial derivatives. -/
theorem jacobian_hasValue (hexact : Literal.Exact ρ.literal) (hn : 0 < n) {functions : List (Expr L)}
    {names : List String} (hf : functions.length = n) (hx : names.length = n) {J : Fin n → Fin n → ℝ}
    (h : ∀ (i j : Fin n) f x, functions[i.val]? = some f → names[j.val]? = some x →
      (f.derivative x).HasValue ρ (J i j)) :
    ∃ e : Fin n → Fin n → Expr L, (jacobian functions names).rows = grid e ∧
      ∀ i j, (e i j).HasValue ρ (J i j) := by
  obtain ⟨f, rfl⟩ : ∃ f : Fin n → Expr L, functions = List.ofFn f := by
    subst hf
    exact ⟨_, (List.ofFn_get functions).symm⟩
  obtain ⟨x, rfl⟩ : ∃ x : Fin n → String, names = List.ofFn x := by
    subst hx
    exact ⟨_, (List.ofFn_get names).symm⟩
  have hvalue (i j : Fin n) : ((f i).derivative (x j)).HasValue ρ (J i j) := h i j _ _ (by simp) (by simp)
  have hpartials : partials (List.ofFn f) (List.ofFn x) = (grid fun i j => (f i).derivative (x j)).flatten := by
    simp only [partials, List.flatMap_def, List.map_ofFn, grid, Function.comp_def]
  have hdefined : ∀ a ∈ (grid fun i j => (f i).derivative (x j)).flatten, ∃ y, a.HasValue ρ y := by
    intro a ha
    obtain ⟨i, j, rfl⟩ := mem_flatten_grid.1 ha
    exact ⟨_, hvalue i j⟩
  rw [jacobian, hpartials, List.length_ofFn, Nat.max_eq_right hn]
  exact exists_grid_of_sameValue hn hvalue (Expr.simplifyAll_sameValue hexact hdefined _)

theorem expandDeterminant_hasValue (hfaithful : Literal.Faithful ρ.literal) {e : Fin n → Fin n → Expr L}
    {A : Fin n → Fin n → ℝ} (h : ∀ i j, (e i j).HasValue ρ (A i j)) :
    (expandDeterminant ⟨grid e⟩).HasValue ρ (Matrix.of A).det := by
  rw [expandDeterminant, height_grid]
  exact expand_hasValue hfaithful h

/-- Determinant and adjugate keep their values when they are simplified together. -/
theorem expansions_sameValue (hfaithful : Literal.Faithful ρ.literal) {e : Fin n → Fin n → Expr L}
    {A : Fin n → Fin n → ℝ} (h : ∀ i j, (e i j).HasValue ρ (A i j)) :
    List.Forall₂ (SameValue ρ) (expandDeterminant ⟨grid e⟩ :: expandAdjugate ⟨grid e⟩)
      (Expr.simplifyAll (expandDeterminant ⟨grid e⟩ :: expandAdjugate ⟨grid e⟩)) := by
  refine Expr.simplifyAll_sameValue hfaithful.toExact (fun a ha => ?_) {}
  rcases List.mem_cons.1 ha with rfl | ha
  · exact ⟨_, expandDeterminant_hasValue hfaithful h⟩
  · rw [expandAdjugate_grid, mem_flatten_grid] at ha
    obtain ⟨i, j, rfl⟩ := ha
    exact ⟨_, cofactor_hasValue hfaithful h i j⟩

/-- A matrix whose determinant is not zero has an inverse. -/
theorem inverse_hasValue (hfaithful : Literal.Faithful ρ.literal) (h2 : 2 ≤ n) (h4 : n ≤ 4)
    {e : Fin n → Fin n → Expr L} {A : Fin n → Fin n → ℝ} (h : ∀ i j, (e i j).HasValue ρ (A i j))
    (hdet : (Matrix.of A).det ≠ 0) :
    ∃ (inv : Inverse L) (a : Fin n → Fin n → Expr L), inverse ⟨grid e⟩ = .ok inv ∧
      inv.determinant.HasValue ρ (Matrix.of A).det ∧ inv.adjugate.rows = grid a ∧
      ∀ i j, (a i j).HasValue ρ ((Matrix.of A).adjugate i j) := by
  have hexpand := expandDeterminant_hasValue hfaithful h
  have hsame := expansions_sameValue hfaithful h
  rw [inverse, checkSquare_grid]
  cases hsimple : Expr.simplifyAll (expandDeterminant ⟨grid e⟩ :: expandAdjugate ⟨grid e⟩) with
  | nil =>
      rw [hsimple] at hsame
      cases hsame
  | cons d es =>
      rw [hsimple, expandAdjugate_grid] at hsame
      obtain ⟨⟨x, hx, hd⟩, hes⟩ := List.forall₂_cons.1 hsame
      obtain rfl := hexpand.unique hx
      obtain ⟨a, ha, hvalue⟩ := exists_grid_of_sameValue (by omega) (cofactor_hasValue hfaithful h) hes
      have hzero : ¬ d.isZero = true := fun hzero => hdet (hd.eq_zero hfaithful hzero)
      have hsize : ¬ (decide (n < 2) || decide (4 < n)) = true := by simp; omega
      refine ⟨⟨d, ⟨chunks n es⟩⟩, a, ?_, hd, ha, hvalue⟩
      simp only [bind, Except.bind, if_neg hsize, if_neg hzero]
      rfl

end Values

section Shape

theorem exists_of_inverse_eq_ok {m : Matrix L} {inv : Inverse L} (h : m.inverse = .ok inv) :
    ∃ n es, m.checkSquare = .ok n ∧
      Expr.simplifyAll (m.expandDeterminant :: m.expandAdjugate) = inv.determinant :: es ∧
      inv.adjugate = ⟨chunks n es⟩ := by
  obtain ⟨n, hn, h⟩ := exists_of_bind_eq_ok h
  split at h
  · cases h
  · split at h
    · cases h
    · next d es hes =>
        split at h
        · cases h
        · obtain rfl := Except.ok.inj h
          exact ⟨n, es, hn, hes, rfl⟩

theorem exists_jacobian_rows_eq (hn : 0 < n) {functions : List (Expr L)} {vars : List String}
    (hf : functions.length = n) (hx : vars.length = n) :
    ∃ e : Fin n → Fin n → Expr L, (jacobian functions vars).rows = grid e := by
  rw [jacobian, hx, Nat.max_eq_right hn]
  refine exists_grid_of_length hn ?_
  rw [Expr.length_simplifyAll, partials, List.length_flatMap]
  simp [hf, hx]

theorem exists_adjugate_rows_eq (hn : 0 < n) {e : Fin n → Fin n → Expr L} {inv : Inverse L}
    (h : inverse ⟨grid e⟩ = .ok inv) : ∃ a : Fin n → Fin n → Expr L, inv.adjugate.rows = grid a := by
  obtain ⟨k, es, hk, hes, hadjugate⟩ := exists_of_inverse_eq_ok h
  rw [checkSquare_grid] at hk
  obtain rfl := Except.ok.inj hk
  rw [hadjugate]
  refine exists_grid_of_length hn ?_
  have hlength := congrArg List.length hes
  rw [Expr.length_simplifyAll, List.length_cons, List.length_cons] at hlength
  rw [← Nat.succ.inj hlength, expandAdjugate, height_grid]
  simp

theorem exists_adjugate_jacobian_rows_eq (hn : 0 < n) {functions : List (Expr L)} {vars : List String}
    (hf : functions.length = n) (hx : vars.length = n) {inv : Inverse L}
    (h : (jacobian functions vars).inverse = .ok inv) :
    ∃ a : Fin n → Fin n → Expr L, inv.adjugate.rows = grid a := by
  obtain ⟨e, he⟩ := exists_jacobian_rows_eq hn hf hx
  have hgrid : jacobian functions vars = ⟨grid e⟩ := congrArg Matrix.mk he
  exact exists_adjugate_rows_eq hn (hgrid ▸ h)

end Shape

section Names

omit [Literal L] in
theorem chunks_over {es : List (Expr L)} (h : ∀ e ∈ es, e.Over names) : RowsOver names (chunks n es) :=
  fun _ hrow e he => h e (mem_of_mem_chunks hrow he)

theorem jacobian_over {functions : List (Expr L)} {vars : List String}
    (h : ∀ f ∈ functions, f.Over names) : RowsOver names (jacobian functions vars).rows := by
  refine chunks_over (Expr.simplifyAll_over (fun e he => ?_) {})
  obtain ⟨f, hf, he⟩ := List.mem_flatMap.1 he
  obtain ⟨x, _, rfl⟩ := List.mem_map.1 he
  exact (h f hf).derivative x

theorem inverse_over {m : Matrix L} (h : RowsOver names m.rows) {inv : Inverse L} (hinv : m.inverse = .ok inv) :
    inv.determinant.Over names ∧ RowsOver names inv.adjugate.rows := by
  have hraw : ∀ e ∈ m.expandDeterminant :: m.expandAdjugate, e.Over names :=
    List.forall_mem_cons.2 ⟨expand_over h, expandAdjugate_over h⟩
  have hsimple := Expr.simplifyAll_over hraw {}
  obtain ⟨n, es, -, hes, hadjugate⟩ := exists_of_inverse_eq_ok hinv
  rw [hes] at hsimple
  obtain ⟨hdet, hes⟩ := List.forall_mem_cons.1 hsimple
  exact ⟨hdet, hadjugate ▸ chunks_over hes⟩

end Names

end FlowShader.Matrix
