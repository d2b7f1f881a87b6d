import FlowShader.Proofs.Scalar.Real
import FlowShader.Proofs.Coordinates.InverseCode
import FlowShader.Proofs.Matrix.Inverse

namespace FlowShader.Coordinates

open Shader (Term Stmt Context Env)

/-- The point at which a chart takes its Jacobian: near a polar axis it is displaced. -/
noncomputable def ChartKind.sample {n : Nat} : ChartKind → (Fin n → ℝ) → Fin n → ℝ
  | .primary, pos | .swapped, pos => pos
  | .polarCap axis, pos => fun i => if i.val = axis then pos i + (1e-3 * √(∑ j, pos j ^ 2) + 1e-6) else pos i

section Vectors

variable {n : Nat}

theorem norm_ofFn (f : Fin n → ℝ) : Shader.Value.norm (List.ofFn f) = √(∑ i, f i ^ 2) := by
  have hsum : Shader.Value.dot (List.ofFn f) (List.ofFn f) = ∑ i, f i ^ 2 := by
    rw [Shader.Value.dot, Shader.Value.zipWith_ofFn, Scalar.sum_eq, List.sum_ofFn]
    simp only [sq]
  exact congrArg Real.sqrt hsum

theorem set_ofFn (f : Fin n → ℝ) (k : Nat) (g : ℝ → ℝ) {x : ℝ} (hx : (List.ofFn f)[k]? = some x) :
    (List.ofFn f).set k (g x) = List.ofFn fun i => if i.val = k then g (f i) else f i := by
  apply List.ext_getElem
  · simp
  · intro i hi hi'
    rw [List.getElem_set]
    by_cases hik : k = i
    · subst hik
      rw [List.length_ofFn] at hi'
      rw [List.getElem?_ofFn, dif_pos hi', Option.some.injEq] at hx
      simp [hx]
    · simp [hik, Ne.symm hik]

end Vectors

namespace Frame

variable {L : Type} [Literal L] {ctx : Context L ℝ} {env : Env ℝ} {n : Nat} {pos v : Fin n → ℝ}

structure Starts (ctx : Context L ℝ) (env : Env ℝ) (pos v : Fin n → ℝ) : Prop where
  builtins : ctx.Plain
  faithful : Literal.Faithful ctx.literal
  globals : ctx.globals = []
  position : env.get? "pos" = some (.vec (List.ofFn pos))
  velocity : env.get? "velNative" = some (.vec (List.ofFn v))
  unset : env.get? "invDet" = none

theorem Starts.of_eq {env' : Env ℝ} (h : Starts ctx env pos v)
    (henv : ∀ name, "nudged" ≠ name → env'.get? name = env.get? name) : Starts ctx env' pos v := by
  refine ⟨h.builtins, h.faithful, h.globals, ?_, ?_, ?_⟩
  · rw [henv _ (by decide), h.position]
  · rw [henv _ (by decide), h.velocity]
  · rw [henv _ (by decide), h.unset]

theorem Starts.eval_offset (h : Starts ctx env pos v) :
    (.places 1 3 * .call "length" [.var "pos"] + .places 1 6 : Term L).eval ctx env =
      .ok (.float (1e-3 * √(∑ j, pos j ^ 2) + 1e-6)) := by
  have hplaces (k : Nat) : (Term.places 1 k : Term L).eval ctx env = .ok (.float (10 ^ (-(k : ℤ)))) := by
    rw [Term.places, Term.eval, Literal.ofPlaces, h.faithful.decimal, Nat.cast_one, one_mul]
  have hlength : (Term.call "length" [.var "pos"] : Term L).eval ctx env = .ok (.float (√(∑ j, pos j ^ 2))) := by
    have hcall : ctx.call? "length" = none := h.builtins (.func .length)
    rw [← norm_ofFn]
    simp only [Term.eval, Term.evalAll, h.position, Option.some_or, Context.apply, hcall, bind, Except.bind, pure,
      Except.pure]
    rfl
  have hsum := Term.eval_binary_of .add (Shader.eval_mul (hplaces 3) hlength) (hplaces 6)
  have hthree : (10 : ℝ) ^ (-((3 : ℕ) : ℤ)) = 1e-3 := by norm_num
  have hsix : (10 : ℝ) ^ (-((6 : ℕ) : ℤ)) = 1e-6 := by norm_num
  rw [hthree, hsix] at hsum
  exact hsum

theorem Starts.nudge_exec (h : Starts ctx env pos v) {axis : Nat} (haxis : axis < n) :
    ∃ env', Stmt.execAll ctx (nudge n axis) env = .ok (env', .next) ∧
      env'.get? "nudged" = some (.vec (List.ofFn ((ChartKind.polarCap axis).sample pos))) ∧
      ∀ name, "nudged" ≠ name → env'.get? name = env.get? name := by
  let env₁ := env.set "nudged" (.vec (List.ofFn pos))
  let offset := 1e-3 * √(∑ j, pos j ^ 2) + 1e-6
  have hother (name : String) (hname : "nudged" ≠ name) : env₁.get? name = env.get? name :=
    Env.get?_set_ne _ hname _
  have hnudged : env₁.get? "nudged" = some (.vec (List.ofFn pos)) := Env.get?_set_self _ _ _
  have hx : (List.ofFn pos)[axis]? = some (pos ⟨axis, haxis⟩) := by rw [List.getElem?_ofFn, dif_pos haxis]
  have hvalue := Term.eval_binary_of .add (Term.eval_component_var hnudged hx) (h.of_eq hother).eval_offset
  have hwrite : (Shader.Place.component "nudged" axis).write (.float (pos ⟨axis, haxis⟩ + offset)) env₁ =
      .ok (env₁.set "nudged" (.vec ((List.ofFn pos).set axis (pos ⟨axis, haxis⟩ + offset)))) := by
    simp only [Shader.Place.write, Shader.Place.name, hnudged, List.length_ofFn, if_pos haxis]
    rfl
  have hpos : (Term.var "pos" : Term L).eval ctx env = .ok (.vec (List.ofFn pos)) := by
    rw [Term.eval, h.position]
    rfl
  refine ⟨env₁.set "nudged" (.vec ((List.ofFn pos).set axis (pos ⟨axis, haxis⟩ + offset))), ?_, ?_, ?_⟩
  · change Stmt.execAll ctx [.declare _ "nudged" (.var "pos"), .assign _ _] env = _
    rw [Stmt.execAll, Stmt.exec, hpos]
    change Stmt.execAll ctx [.assign _ _] env₁ = _
    rw [Stmt.execAll_singleton, Stmt.exec]
    exact bind_eq_ok_of hvalue (bind_eq_ok_of hwrite rfl)
  · rw [Env.get?_set_self, set_ofFn pos axis (· + offset) hx]
    rfl
  · intro name hname
    rw [Env.get?_set_ne _ hname, hother name hname]

def sampleName : ChartKind → String
  | .polarCap _ => "nudged"
  | .primary | .swapped => "pos"

def chartStart (n : Nat) : ChartKind → List (Stmt L)
  | .polarCap axis => nudge n axis
  | .primary | .swapped => []

theorem chartBody_error (s : Frame L) (c : Chart L) (e : InversionError) :
    s.chartBody c (.error e) = .ok (chartStart s.dimensions c.kind ++
      [.comment s!"{e.message}; identity fallback", .result (.var "velNative")]) := by
  unfold chartBody
  cases c.kind <;> rfl

theorem chartBody_ok (s : Frame L) (c : Chart L) (inv : Matrix.Inverse L) :
    s.chartBody c (.ok inv) = do
      return chartStart s.dimensions c.kind ++
        (← applyInverse (onComponents s.axes (sampleName c.kind)) s.dimensions inv) := by
  unfold chartBody
  cases c.kind <;> rfl

theorem Starts.chartStart_exec (h : Starts ctx env pos v) (kind : ChartKind)
    (haxis : ∀ k, kind = .polarCap k → k < n) :
    ∃ env', Stmt.execAll ctx (chartStart n kind) env = .ok (env', .next) ∧ Starts ctx env' pos v ∧
      env'.get? (sampleName kind) = some (.vec (List.ofFn (kind.sample pos))) := by
  cases kind with
  | primary | swapped => exact ⟨env, rfl, h, h.position⟩
  | polarCap axis =>
      obtain ⟨env', hexec, hnudged, hother⟩ := h.nudge_exec (haxis axis rfl)
      exact ⟨env', hexec, h.of_eq hother, hnudged⟩

theorem Starts.applies {s : Frame L} (hs : s.Checked) {pos v q : Fin s.dimensions → ℝ} (h : Starts ctx env pos v)
    (kind : ChartKind)
    (hbase : env.get? (sampleName kind) = some (.vec (List.ofFn q))) :
    Applies (onComponents s.axes (sampleName kind)) ctx env
      (.ofPoint ctx.literal s.axes (List.ofFn q)) s.axes (List.ofFn v) where
  reads := by
    refine Lowering.reads_bindVector rfl h.builtins h.faithful.interprets hbase (nodup_axes _)
      (by rw [hs.length_axes, List.length_ofFn]) ?_
    rintro _ ⟨⟩
    cases kind with
    | primary | swapped => decide
    | polarCap axis =>
        change Names.isNumbered Names.temporaryStem "nudged" = false
        decide
  faithful := h.faithful
  names v hv := ⟨Bindings.isSome_get?_bindVector {} _ (.inl hv), isIdentifier_of_mem_axes v hv⟩
  velocity := h.velocity
  globals := h.globals
  unset := h.unset
  fresh := by
    rintro _ ⟨⟩
    exact ⟨by decide, by decide⟩

variable [LawfulBEq L] [Literal.Legible L]

def HasJacobian (literal : L → ℝ) (names : List String) (c : Chart L) (q : Fin n → ℝ) (J : Fin n → Fin n → ℝ) :
    Prop :=
  ∀ (i j : Fin n) f x, c.forward[i.val]? = some f → names[j.val]? = some x →
    (f.derivative x).HasValue (.ofPoint literal names (List.ofFn q)) (J i j)

omit [Literal.Legible L] in
theorem sum_rowValue {c : Lowering L} {ρ : Valuation L ℝ} (hfaithful : Literal.Faithful ρ.literal)
    {a : Fin n → Fin n → Expr L} {A : Fin n → Fin n → ℝ} (ha : ∀ i j, (a i j).HasValue ρ (A i j)) {zs : List ℝ}
    (hzs : List.Forall₂ (RowValue c ρ (List.ofFn v)) (Matrix.grid a) zs) :
    zs = List.ofFn ((Matrix.of A).mulVec v) := by
  obtain ⟨z, rfl, hz⟩ := Matrix.exists_ofFn_of_forall₂ hzs
  refine congrArg List.ofFn (funext fun i => ?_)
  obtain ⟨xs, hxs, hsum⟩ := hz i
  obtain ⟨x, rfl, hx⟩ := Matrix.exists_ofFn_of_forall₂ hxs
  have hxA (j : Fin n) : x j = A i j := by
    have hmeaning := (ha i j).meaning hfaithful c.clamp
    rwa [hx j, Except.ok.injEq] at hmeaning
  rw [hsum, Shader.Value.zipWith_ofFn, List.sum_ofFn]
  simp only [hxA]
  rfl

omit [Literal.Legible L] in
theorem HasJacobian.exists_inverse {literal : L → ℝ} (hfaithful : Literal.Faithful literal) {s : Frame L}
    (hs : s.Checked) {c : Chart L} (hc : c.Over s.axes) {q : Fin s.dimensions → ℝ}
    {J : Fin s.dimensions → Fin s.dimensions → ℝ} (hJ : HasJacobian literal s.axes c q J)
    (hdet : (Matrix.of J).det ≠ 0) :
    ∃ (inv : Matrix.Inverse L) (a : Fin s.dimensions → Fin s.dimensions → Expr L),
      (Matrix.jacobian c.forward s.axes).inverse = .ok inv ∧
      inv.determinant.HasValue (.ofPoint literal s.axes (List.ofFn q)) (Matrix.of J).det ∧
      inv.adjugate.rows = Matrix.grid a ∧
      ∀ i j, (a i j).HasValue (.ofPoint literal s.axes (List.ofFn q)) ((Matrix.of J).adjugate i j) := by
  have hpos : 0 < s.dimensions := Nat.lt_of_lt_of_le Nat.two_pos hs.two_le
  obtain ⟨e, he, hvalue⟩ := Matrix.jacobian_hasValue hfaithful.toExact hpos (hc.length.trans hs.length_axes)
    hs.length_axes hJ
  have hmatrix : Matrix.jacobian c.forward s.axes = ⟨Matrix.grid e⟩ := congrArg Matrix.mk he
  rw [hmatrix]
  exact Matrix.inverse_hasValue hfaithful hs.two_le hs.le_four hvalue hdet

theorem mulVec_adjugate {J : Fin n → Fin n → ℝ} (hdet : (Matrix.of J).det ≠ 0) (v : Fin n → ℝ) :
    (Matrix.of J).mulVec (fun i => (Matrix.of J).adjugate.mulVec v i * (1 / (Matrix.of J).det)) = v := by
  have hscale : (fun i => (Matrix.of J).adjugate.mulVec v i * (1 / (Matrix.of J).det)) =
      (1 / (Matrix.of J).det) • (Matrix.of J).adjugate.mulVec v := by
    funext i
    rw [Pi.smul_apply, smul_eq_mul, mul_comm]
  rw [hscale, Matrix.mulVec_smul, Matrix.mulVec_mulVec, Matrix.mul_adjugate, Matrix.smul_mulVec, Matrix.one_mulVec,
    smul_smul, one_div_mul_cancel hdet, one_smul]

/-- What the code of a chart does with a native velocity: without an inverse it keeps the velocity, and
wherever the Jacobian is defined and regular, it gives what the Jacobian takes to the velocity. -/
def Transforms (literal : L → ℝ) (s : Frame L) (c : Chart L) (pos v : Fin s.dimensions → ℝ)
    (gives : (Fin s.dimensions → ℝ) → Prop) : Prop :=
  (∀ e, (Matrix.jacobian c.forward s.axes).inverse = .error e → gives v) ∧
    ∀ J, HasJacobian literal s.axes c (c.kind.sample pos) J → (Matrix.of J).det ≠ 0 →
      ∃ w, (Matrix.of J).mulVec w = v ∧ gives w

/-- The same in terms of the symbolic inverse: where its formulas are defined, the code multiplies with
their values. -/
def Multiplies (literal : L → ℝ) (s : Frame L) (c : Chart L) (pos v : Fin s.dimensions → ℝ)
    (gives : (Fin s.dimensions → ℝ) → Prop) : Prop :=
  (∀ e, (Matrix.jacobian c.forward s.axes).inverse = .error e → gives v) ∧
    ∀ (inv : Matrix.Inverse L) (a : Fin s.dimensions → Fin s.dimensions → Expr L)
      (A : Fin s.dimensions → Fin s.dimensions → ℝ) (d : ℝ),
      (Matrix.jacobian c.forward s.axes).inverse = .ok inv → inv.adjugate.rows = Matrix.grid a →
      (∀ i j, (a i j).HasValue (.ofPoint literal s.axes (List.ofFn (c.kind.sample pos))) (A i j)) →
      inv.determinant.HasValue (.ofPoint literal s.axes (List.ofFn (c.kind.sample pos))) d →
      gives fun i => (Matrix.of A).mulVec v i * (1 / d)

omit [Literal.Legible L] in
theorem Multiplies.transforms {literal : L → ℝ} (hfaithful : Literal.Faithful literal) {s : Frame L} (hs : s.Checked)
    {c : Chart L} (hc : c.Over s.axes) {pos v : Fin s.dimensions → ℝ} {gives : (Fin s.dimensions → ℝ) → Prop}
    (h : Multiplies literal s c pos v gives) : Transforms literal s c pos v gives := by
  refine ⟨h.1, fun J hJ hdet => ?_⟩
  obtain ⟨inv, a, hinv, hdeterminant, hrows, ha⟩ := hJ.exists_inverse hfaithful hs hc hdet
  exact ⟨_, mulVec_adjugate hdet v, h.2 inv a _ _ hinv hrows ha hdeterminant⟩

theorem Starts.chartBody_exec {s : Frame L} (hs : s.Checked) {pos v : Fin s.dimensions → ℝ}
    (h : Starts ctx env pos v) {c : Chart L} (hc : c.Over s.axes) :
    ∃ body, s.chartBody c (Matrix.jacobian c.forward s.axes).inverse = .ok body ∧
      Multiplies ctx.literal s c pos v fun w =>
        ∃ env', Stmt.execAll ctx body env = .ok (env', .result (.vec (List.ofFn w))) := by
  have hpos : 0 < s.dimensions := Nat.lt_of_lt_of_le Nat.two_pos hs.two_le
  obtain ⟨env₁, hstart, h₁, hbase⟩ := h.chartStart_exec c.kind fun k hk => hs.length_axes ▸ hc.axis k hk
  cases hinverse : (Matrix.jacobian c.forward s.axes).inverse with
  | error e =>
      have hvelocity : (Term.var "velNative" : Term L).eval ctx env₁ = .ok (.vec (List.ofFn v)) := by
        rw [Term.eval, h₁.velocity]
        rfl
      refine ⟨_, chartBody_error s c e, ⟨fun _ _ => ⟨env₁, ?_⟩, fun inv _ _ _ hinv => ?_⟩⟩
      · rw [Stmt.execAll_append hstart]
        change Stmt.execAll ctx [.result _] env₁ = _
        rw [Stmt.execAll_singleton, Stmt.exec, hvelocity]
        rfl
      · rw [hinverse] at hinv
        cases hinv
  | ok inv =>
      obtain ⟨a, ha⟩ := Matrix.exists_adjugate_jacobian_rows_eq hpos (hc.length.trans hs.length_axes) hs.length_axes
        hinverse
      obtain ⟨hdetOver, hrowsOver⟩ := Matrix.inverse_over (Matrix.jacobian_over hc.forward) hinverse
      have hlength : ∀ row ∈ inv.adjugate.rows, row.length ≤ (List.ofFn v).length := by
        rw [ha]
        intro row hrow
        obtain ⟨i, rfl⟩ := List.mem_ofFn.1 hrow
        rw [List.length_ofFn, List.length_ofFn]
      obtain ⟨code, d, zs, hcode, hd, hzs, hexec⟩ :=
        (h₁.applies hs c.kind hbase).applyInverse_exec s.dimensions hdetOver hrowsOver hlength
      refine ⟨chartStart s.dimensions c.kind ++ code, ?_, fun e he => ?_,
        fun inv' a' A d' hinv' ha' hvalue hdetValue => ?_⟩
      · rw [chartBody_ok]
        exact bind_eq_ok_of hcode rfl
      · rw [hinverse] at he
        cases he
      · rw [hinverse] at hinv'
        obtain rfl := Except.ok.inj hinv'
        have hmeaning := hdetValue.meaning h.faithful (onComponents (L := L) s.axes (sampleName c.kind)).clamp
        rw [hd, Except.ok.injEq] at hmeaning
        rw [ha'] at hzs
        obtain rfl := sum_rowValue h.faithful hvalue hzs
        obtain ⟨env', hrun⟩ := hexec hs.two_le List.length_ofFn
        rw [List.map_ofFn, hmeaning] at hrun
        exact ⟨env', (Stmt.execAll_append hstart).trans hrun⟩

end Frame

end FlowShader.Coordinates
