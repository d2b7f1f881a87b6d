import FlowShader.Proofs.Scalar.Real
import FlowShader.Proofs.Coordinates.Region
import FlowShader.Proofs.Matrix.Cofactor
import FlowShader.Proofs.Shader.Execution
import FlowShader.Proofs.Shader.Globals
import FlowShader.Proofs.Shader.LinearAlgebra

namespace FlowShader.Coordinates.Frame

open Shader (Term Stmt Context Env Value)
open Lowering (Runs Lasting)
open FlowShader.Matrix (RowsOver)

variable {L : Type} [Literal L] {ctx : Context L ℝ} {env : Env ℝ}

theorem eval_sum (hzero : ctx.literal 0 = 0) {ts : List (Term L)} {xs : List ℝ}
    (h : List.Forall₂ (fun t x => t.eval ctx env = .ok (.float x)) ts xs) :
    (Term.sum ts).eval ctx env = .ok (.float xs.sum) := by
  have hfold {ts : List (Term L)} {xs : List ℝ}
      (h : List.Forall₂ (fun t x => t.eval ctx env = .ok (.float x)) ts xs) (acc : Term L) (y : ℝ)
      (hacc : acc.eval ctx env = .ok (.float y)) :
      (ts.foldl (· + ·) acc).eval ctx env = .ok (.float (y + xs.sum)) := by
    induction h generalizing acc y with
    | nil => simpa using hacc
    | cons ht _ ih =>
        rw [List.foldl_cons, List.sum_cons, ← add_assoc]
        exact ih _ _ (Term.eval_binary_of .add hacc ht)
  cases h with
  | nil => exact congrArg (fun x => Except.ok (Shader.Value.float x)) hzero
  | cons ht hts => exact hfold hts _ _ ht

theorem mentions_sum {ts : List (Term L)} {name : String} (h : name ∈ (Term.sum ts).mentions) :
    ∃ t ∈ ts, name ∈ t.mentions := by
  have hfold (ts : List (Term L)) (acc : Term L) (h : name ∈ (ts.foldl (· + ·) acc).mentions) :
      name ∈ acc.mentions ∨ ∃ t ∈ ts, name ∈ t.mentions := by
    induction ts generalizing acc with
    | nil => exact .inl h
    | cons t ts ih =>
        rcases ih _ h with h | ⟨u, hu, h⟩
        · rcases List.mem_append.1 (show name ∈ acc.mentions ++ t.mentions from h) with h | h
          · exact .inl h
          · exact .inr ⟨t, List.mem_cons_self, h⟩
        · exact .inr ⟨u, List.mem_cons_of_mem _ hu, h⟩
  cases ts with
  | nil => cases h
  | cons t ts =>
      rcases hfold ts t h with h | ⟨u, hu, h⟩
      · exact ⟨t, List.mem_cons_self, h⟩
      · exact ⟨u, List.mem_cons_of_mem _ hu, h⟩

variable [LawfulBEq L] [Literal.Legible L] {ρ : Valuation L ℝ} {c : Lowering L} {names : List String} {v : List ℝ}

structure Applies (c : Lowering L) (ctx : Context L ℝ) (env : Env ℝ) (ρ : Valuation L ℝ) (names : List String)
    (v : List ℝ) : Prop where
  reads : c.Reads ctx env ρ
  faithful : Literal.Faithful ctx.literal
  names (name : String) : name ∈ names → (c.bindings.get? name).isSome = true ∧ Token.isIdentifier name = true
  velocity : env.get? "velNative" = some (.vec v)
  globals : ctx.globals = []
  unset : env.get? "invDet" = none
  fresh (stem : String) : c.hoist = some stem →
    Names.isNumbered stem "velNative" = false ∧ Names.isNumbered stem "invDet" = false

omit [Literal L] [LawfulBEq L] [Literal.Legible L] in
theorem not_later_of_not_isNumbered {name : String}
    (h : ∀ stem, c.hoist = some stem → Names.isNumbered stem name = false) : ¬ c.Later 0 name := by
  rintro ⟨stem, hstem, k, -, rfl⟩
  have hfresh := h stem hstem
  rw [Lowering.isNumbered_append] at hfresh
  cases hfresh

omit [LawfulBEq L] [Literal.Legible L] in
theorem Applies.lasting_component (h : Applies c ctx env ρ names v) {s : Lowering.State L} {env₁ : Env ℝ}
    (hs : c.Holds ctx env ρ s env₁) {j : Nat} {y : ℝ} (hy : v[j]? = some y) :
    c.Lasting ctx s.temporaries.size env₁ (.component (.var "velNative") j) y := by
  have hlater := not_later_of_not_isNumbered fun stem hstem => (h.fresh stem hstem).1
  refine ⟨fun name hname hl => hlater ?_, ?_⟩
  · rw [← List.mem_singleton.1 hname]
    exact hl.mono (Nat.zero_le _)
  · exact Term.eval_component_var ((hs.agrees _ hlater).trans h.velocity) hy

theorem Applies.build (h : Applies c ctx env ρ names v) {e : Expr L} (he : e.Over names) {s : Lowering.State L}
    {env₁ : Env ℝ} (hs : c.Holds ctx env ρ s env₁) :
    ∃ x t s' env₂, e.meaning c.clamp ρ = .ok x ∧ Runs (c.build e) s t s' ∧ c.Extends ctx env ρ s env₁ s' env₂ ∧
      c.Lasting ctx s'.temporaries.size env₂ t x :=
  Lowering.build_extends h.reads (he.legible h.faithful.finite fun v hv => (h.names v hv).2)
    (fun v hv => (h.names v (he v hv)).1) hs

omit [Literal L] [LawfulBEq L] [Literal.Legible L] in
theorem lasting_mul {n : Nat} {env₁ : Env ℝ} {t u : Term L} {x y : ℝ} (ht : c.Lasting ctx n env₁ t x)
    (hu : c.Lasting ctx n env₁ u y) : c.Lasting ctx n env₁ (t * u) (x * y) := by
  refine ⟨fun name hname => ?_, Shader.eval_mul ht.2 hu.2⟩
  rcases List.mem_append.1 (show name ∈ t.mentions ++ u.mentions from hname) with hname | hname
  · exact ht.1 name hname
  · exact hu.1 name hname

omit [LawfulBEq L] [Literal.Legible L] in
theorem lasting_sum (hzero : ctx.literal 0 = 0) {n : Nat} {env₁ : Env ℝ} {ts : List (Term L)} {xs : List ℝ}
    (h : List.Forall₂ (c.Lasting ctx n env₁) ts xs) : c.Lasting ctx n env₁ (.sum ts) xs.sum := by
  refine ⟨fun name hname => ?_, eval_sum hzero (h.imp fun _ _ ht => ht.2)⟩
  obtain ⟨t, ht, hname⟩ := mentions_sum hname
  obtain ⟨x, _, hx⟩ := exists_of_mem_forall₂ h.flip ht
  exact hx.1 name hname

/-- A term of a row: an entry times a component of the velocity, where ones are not multiplied. -/
def rowTerm (c : Lowering L) (e : Expr L) (k : Nat) : Lowering.Action L (Term L) :=
  if e.isOne then pure (.component (.var "velNative") k) else (· * .component (.var "velNative") k) <$> c.build e

omit [LawfulBEq L] [Literal.Legible L] in
theorem adjugateTerms_cons (c : Lowering L) {e : Expr L} (hzero : ¬ e.isZero = true) (k : Nat)
    (rest : List (Expr L × Nat)) :
    adjugateTerms c ((e, k) :: rest) = do
      let t ← rowTerm c e k
      return t :: (← adjugateTerms c rest) := by
  rw [adjugateTerms, if_neg hzero, rowTerm]
  split <;> rfl

theorem Applies.rowTerm_runs (h : Applies c ctx env ρ names v) {e : Expr L} (he : e.Over names) {k : Nat} {y : ℝ}
    (hy : v[k]? = some y) {s : Lowering.State L} {env₁ : Env ℝ} (hs : c.Holds ctx env ρ s env₁) :
    ∃ x t s' env₂, e.meaning c.clamp ρ = .ok x ∧
      Runs (rowTerm c e k) s t s' ∧ c.Extends ctx env ρ s env₁ s' env₂ ∧
      c.Lasting ctx s'.temporaries.size env₂ t (x * y) := by
  unfold rowTerm
  split
  · next hone =>
      obtain rfl := Expr.eq_one_of_isOne hone
      have hliteral : Literal.Faithful ρ.literal := h.reads.literal ▸ h.faithful
      refine ⟨1, _, s, env₁, congrArg Except.ok hliteral.one, .pure _ _, .refl hs, ?_⟩
      rw [one_mul]
      exact h.lasting_component hs hy
  · obtain ⟨x, t, s', env₂, hx, hrun, hext, ht⟩ := h.build he hs
    refine ⟨x, t * .component (.var "velNative") k, s', env₂, hx, ?_, hext,
      lasting_mul ht (h.lasting_component hext.holds hy)⟩
    rw [map_eq_pure_bind]
    exact hrun.bind (.pure _ _)

def RowValue (c : Lowering L) (ρ : Valuation L ℝ) (v : List ℝ) (row : List (Expr L)) (z : ℝ) : Prop :=
  ∃ xs, List.Forall₂ (fun e x => e.meaning c.clamp ρ = .ok x) row xs ∧ z = (xs.zipWith (· * ·) v).sum

theorem Applies.adjugateTerms_runs (h : Applies c ctx env ρ names v) {row : List (Expr L)}
    (hover : ∀ e ∈ row, e.Over names) {k : Nat} (hlength : k + row.length ≤ v.length) {s : Lowering.State L}
    {env₁ : Env ℝ} (hs : c.Holds ctx env ρ s env₁) :
    ∃ ts ys z s' env₂, Runs (adjugateTerms c (row.zipIdx k)) s ts s' ∧ c.Extends ctx env ρ s env₁ s' env₂ ∧
      List.Forall₂ (c.Lasting ctx s'.temporaries.size env₂) ts ys ∧ RowValue c ρ (v.drop k) row z ∧ ys.sum = z := by
  have hliteral : Literal.Faithful ρ.literal := h.reads.literal ▸ h.faithful
  induction row generalizing k s env₁ with
  | nil => exact ⟨[], [], 0, s, env₁, .pure _ _, .refl hs, .nil, ⟨[], .nil, rfl⟩, rfl⟩
  | cons e row ih =>
      obtain ⟨he, hrow⟩ := List.forall_mem_cons.1 hover
      rw [List.length_cons] at hlength
      have hk : k < v.length := by omega
      have hdrop : v.drop k = v.get ⟨k, hk⟩ :: v.drop (k + 1) := List.drop_eq_getElem_cons hk
      have hy : v[k]? = some (v.get ⟨k, hk⟩) := List.getElem?_eq_getElem hk
      generalize v.get ⟨k, hk⟩ = y at hdrop hy
      rw [List.zipIdx_cons]
      have hcons {x : ℝ} (hx : e.meaning c.clamp ρ = .ok x) {z : ℝ} (hz : RowValue c ρ (v.drop (k + 1)) row z) :
          RowValue c ρ (v.drop k) (e :: row) (x * y + z) := by
        obtain ⟨xs, hxs, rfl⟩ := hz
        exact ⟨x :: xs, .cons hx hxs, by rw [hdrop, List.zipWith_cons_cons, List.sum_cons]⟩
      by_cases hzero : e.isZero = true
      · obtain rfl := Expr.eq_zero_of_isZero hzero
        obtain ⟨ts, ys, z, s', env₂, hrun, hext, hts, hz, hsum⟩ := ih hrow (k := k + 1) (by omega) hs
        have hx : (Expr.zero : Expr L).meaning c.clamp ρ = .ok 0 := congrArg Except.ok hliteral.zero
        rw [adjugateTerms, if_pos hzero]
        exact ⟨ts, ys, _, s', env₂, hrun, hext, hts, hcons hx hz, by rw [hsum, zero_mul, zero_add]⟩
      · obtain ⟨x, t, s₁, env₂, hx, hrun, hext, ht⟩ := h.rowTerm_runs he hy hs
        obtain ⟨ts, ys, z, s', env₃, hrun', hext', hts, hz, hsum⟩ := ih hrow (k := k + 1) (by omega) hext.holds
        rw [adjugateTerms_cons c hzero]
        exact ⟨t :: ts, x * y :: ys, _, s', env₃, hrun.bind (hrun'.bind (.pure _ _)), hext.trans hext',
          .cons (ht.extends hext') hts, hcons hx hz, by rw [List.sum_cons, hsum]⟩

theorem Applies.adjugateRows_runs (h : Applies c ctx env ρ names v) {rows : List (List (Expr L))}
    (hover : RowsOver names rows) (hlength : ∀ row ∈ rows, row.length ≤ v.length) {s : Lowering.State L}
    {env₁ : Env ℝ} (hs : c.Holds ctx env ρ s env₁) :
    ∃ ts zs s' env₂, Runs (adjugateRows c rows) s (ts.map (· * .var "invDet")) s' ∧
      c.Extends ctx env ρ s env₁ s' env₂ ∧ List.Forall₂ (c.Lasting ctx s'.temporaries.size env₂) ts zs ∧
      List.Forall₂ (RowValue c ρ v) rows zs := by
  induction rows generalizing s env₁ with
  | nil => exact ⟨[], [], s, env₁, .pure _ _, .refl hs, .nil, .nil⟩
  | cons row rows ih =>
      obtain ⟨hrow, hrows⟩ := List.forall_mem_cons.1 hover
      obtain ⟨hshort, hlength⟩ := List.forall_mem_cons.1 hlength
      obtain ⟨ts, ys, z, s₁, env₂, hrun, hext, hts, hz, rfl⟩ :=
        h.adjugateTerms_runs hrow (k := 0) (by rwa [Nat.zero_add]) hs
      obtain ⟨us, zs, s', env₃, hrun', hext', hus, hzs⟩ := ih hrows hlength hext.holds
      have hsum := (lasting_sum h.faithful.zero hts).extends hext'
      exact ⟨.sum ts :: us, ys.sum :: zs, s', env₃, hrun.bind (hrun'.bind (.pure _ _)), hext.trans hext',
        .cons hsum hus, .cons hz hzs⟩

/-- Lowering succeeds, and the code gives the products of the rows with the velocity, divided by the
determinant. -/
theorem Applies.applyInverse_exec (h : Applies c ctx env ρ names v) (n : Nat) {inv : Matrix.Inverse L}
    (hdet : inv.determinant.Over names) (hrows : RowsOver names inv.adjugate.rows)
    (hlength : ∀ row ∈ inv.adjugate.rows, row.length ≤ v.length) :
    ∃ code d zs, applyInverse c n inv = .ok code ∧ inv.determinant.meaning c.clamp ρ = .ok d ∧
      List.Forall₂ (RowValue c ρ v) inv.adjugate.rows zs ∧ (1 < n → zs.length = n →
        ∃ env', Stmt.execAll ctx code env = .ok (env', .result (.vec (zs.map (· * (1 / d)))))) := by
  obtain ⟨counts, hprepare⟩ := Lowering.prepare_runs c (inv.determinant :: inv.adjugate.entries)
  obtain ⟨d, t, s₁, env₁, hd, hrun, hext, ht⟩ := h.build hdet (.start c ctx env ρ counts)
  obtain ⟨ts, zs, s, env₂, hrun', hext', hts, hzs⟩ := h.adjugateRows_runs hrows hlength hext.holds
  let finish : List (Stmt L) := [.declare .float "invDet" (.float 1 / t),
    .result (.construct (.vec n) (ts.map (· * .var "invDet")))]
  have hall : Runs (do
      c.prepare (inv.determinant :: inv.adjugate.entries)
      let determinant ← c.build inv.determinant
      let components ← adjugateRows c inv.adjugate.rows
      let declarations ← Lowering.takeStatements
      return declarations
        ++ [.declare .float "invDet" (.float 1 / determinant), .result (.construct (.vec n) components)])
      {} (s.statements.toList ++ finish) { s with statements := #[] } :=
    hprepare.bind (hrun.bind (hrun'.bind rfl))
  refine ⟨_, d, zs, congrArg Prod.fst hall, hd, hzs, fun hn hzn => ?_⟩
  have hreciprocal := Shader.eval_reciprocal h.reads.literals (ht.extends hext').2
  let env₃ := env₂.set "invDet" (.float (1 / d))
  -- No expression of the rows mentions the determinant, which has no value before.
  have hwidens : ctx.Widens env₂ ctx env₃ := by
    refine ⟨rfl, rfl, fun name w hname => ?_⟩
    have hunset : env₂.get? "invDet" = none :=
      (hext'.holds.agrees _ (not_later_of_not_isNumbered fun stem hstem => (h.fresh stem hstem).2)).trans h.unset
    have hne : "invDet" ≠ name := by
      rintro rfl
      rw [hunset, h.globals] at hname
      cases hname
    rwa [Env.get?_set_ne _ hne]
  have hinvDet : (Term.var "invDet" : Term L).eval ctx env₃ = .ok (.float (1 / d)) := by
    rw [Term.eval, Env.get?_set_self]
    rfl
  have hcomponents : List.Forall₂ (fun t x => t.eval ctx env₃ = .ok (.float x)) (ts.map (· * .var "invDet"))
      (zs.map (· * (1 / d))) := by
    rw [List.forall₂_map_left_iff, List.forall₂_map_right_iff]
    exact hts.imp fun t z ht => Shader.eval_mul (Term.eval_mono hwidens t _ ht.2) hinvDet
  have hresult : (Term.construct (.vec n) (ts.map (· * .var "invDet"))).eval ctx env₃ =
      .ok (.vec (zs.map (· * (1 / d)))) := by
    rw [Term.eval]
    exact bind_eq_ok_of (Term.evalAll_floats hcomponents) (Value.construct_vec hn (by rw [List.length_map, hzn]))
  refine ⟨env₃, ?_⟩
  rw [Stmt.execAll_append hext'.holds.runs, Stmt.execAll, Stmt.exec, hreciprocal]
  change Stmt.execAll ctx [.result _] env₃ = _
  rw [Stmt.execAll_singleton, Stmt.exec, hresult]
  rfl

end FlowShader.Coordinates.Frame
