import FlowShader.Proofs.Coordinates.ChartCode
import FlowShader.Proofs.Expr.Derivative

namespace FlowShader.Coordinates.Frame

open Shader (Term Stmt Context Env Module Builtin)

variable {L : Type} [Literal L] [LawfulBEq L] [Literal.Legible L] {ctx : Context L ℝ} {env : Env ℝ} {n : Nat}

def velocityFunction (s : Frame L) (body : List (Stmt L)) : Shader.Function L :=
  ⟨Names.velocityToCartesian, [(.vec s.dimensions, "velNative"), (.vec s.dimensions, "pos")], .vec s.dimensions,
    body⟩

theorem Starts.velocityToCartesian_exec {s : Frame L} (hs : s.Checked) (hcartesian : ¬ s.isCartesian = true)
    {pos v : Fin s.dimensions → ℝ} (h : Starts ctx env pos v) :
    ∃ body i c, s.velocityToCartesian = .ok (velocityFunction s body, s.velocityDiagnostics s.invertedCharts) ∧
      s.atlas.select (.ofPoint ctx.literal s.axes (List.ofFn pos)) = .ok i ∧ s.atlas.charts[i]? = some c ∧
      Multiplies ctx.literal s c pos v fun w =>
        ∃ env', Stmt.execAll ctx body env = .ok (env', .result (.vec (List.ofFn w))) := by
  have hover := hs.charts_over
  obtain ⟨branches, hbranches⟩ : ∃ branches, List.Forall₂ (fun c (p : Chart L × List (Stmt L)) => p.1 = c ∧
      s.chartBody c (Matrix.jacobian c.forward s.axes).inverse = .ok p.2 ∧ Multiplies ctx.literal s c pos v fun w =>
        ∃ env', Stmt.execAll ctx p.2 env = .ok (env', .result (.vec (List.ofFn w)))) s.atlas.charts branches := by
    refine exists_forall₂ fun c hc => ?_
    obtain ⟨body, hbody⟩ := h.chartBody_exec hs (hover c hc)
    exact ⟨(c, body), rfl, hbody⟩
  have hcharts : branches.map (·.1) = s.atlas.charts := by
    rw [← List.forall₂_eq_eq_eq, List.forall₂_map_left_iff]
    exact (hbranches.imp fun c p hp => hp.1.symm).flip.imp fun p c hp => hp.symm
  have hmapM : s.invertedCharts.mapM (fun p => do return (p.1.1, ← s.chartBody p.1.1 p.1.2)) = .ok branches := by
    have hbodies : List.Forall₂ (fun (q : Chart L × Except InversionError (Matrix.Inverse L)) p =>
        (do return (q.1, ← s.chartBody q.1 q.2) : Except UnknownIdentifier _) = .ok p)
        (s.atlas.charts.map fun c => (c, (Matrix.jacobian c.forward s.axes).inverse)) branches := by
      rw [List.forall₂_map_left_iff]
      exact hbranches.imp fun c p hp => bind_eq_ok_of hp.2.1 (by rw [← hp.1]; rfl)
    rw [← List.zipIdx_map_fst 0 (s.atlas.charts.map _), List.forall₂_map_left_iff] at hbodies
    rw [hs.invertedCharts_eq h.faithful.finite]
    exact mapM_eq_ok_of hbodies
  obtain ⟨code, i, p, hcode, hselect, hp, hexec⟩ := hs.cascade_selects hcharts h.builtins h.faithful.interprets
    (fun f _ => Expr.powersAreProducts h.faithful f) h.position List.length_ofFn
  obtain ⟨c, -, rfl, -, hmultiplies⟩ := exists_of_mem_forall₂ hbranches (List.mem_of_getElem? hp)
  refine ⟨code, i, p.1, ?_, hselect, ?_, ?_⟩
  · rw [velocityToCartesian, if_neg hcartesian]
    exact bind_eq_ok_of hmapM (bind_eq_ok_of hcode rfl)
  · rw [← hcharts, List.getElem?_map, hp]
    rfl
  · simpa only [hexec] using hmultiplies

theorem Checked.has_jacobianSingular {s : Frame L} (hs : s.Checked) (hfinite : ∀ x : L, Literal.isFinite x = true)
    {i : Nat} {c : Chart L} (hc : s.atlas.charts[i]? = some c) {e : InversionError}
    (he : (Matrix.jacobian c.forward s.axes).inverse = .error e) :
    Diagnostic.has .jacobianSingular (s.velocityDiagnostics s.invertedCharts) = true := by
  have hmem : ((c, .error e), i) ∈ s.invertedCharts := by
    rw [hs.invertedCharts_eq hfinite, List.mem_zipIdx_iff_getElem?, List.getElem?_map, hc, ← he]
    rfl
  refine List.any_eq_true.2 ⟨_, List.mem_append_right _ (List.mem_flatMap.2 ⟨_, hmem,
    List.mem_append_left _ List.mem_cons_self⟩), ?_⟩
  rfl

section Calls

def arguments (pos v : Fin n → ℝ) : Env ℝ := [("velNative", .vec (List.ofFn v)), ("pos", .vec (List.ofFn pos))]

omit [LawfulBEq L] [Literal.Legible L] in
theorem starts_arguments (hplain : ctx.Plain) (hfaithful : Literal.Faithful ctx.literal) (pos v : Fin n → ℝ) :
    Starts ctx.withoutGlobals (arguments pos v) pos v :=
  ⟨hplain, hfaithful, rfl, rfl, rfl, rfl⟩

omit [Literal L] [LawfulBEq L] [Literal.Legible L] in
theorem run_velocityFunction {s : Frame L} {body : List (Stmt L)} {pos v : Fin s.dimensions → ℝ}
    {w : Shader.Value ℝ} {env' : Env ℝ}
    (h : Stmt.execAll ctx.withoutGlobals body (arguments pos v) = .ok (env', .result w)) :
    (velocityFunction s body).run ctx [.vec (List.ofFn v), .vec (List.ofFn pos)] = .ok w := by
  refine Shader.Function.run_mono ?_
  have hbind : Shader.Function.bind Names.velocityToCartesian
      [(.vec s.dimensions, "velNative"), (.vec s.dimensions, "pos")]
      [.vec (List.ofFn v), .vec (List.ofFn pos)] [] = .ok (arguments pos v) := by
    simp only [Shader.Function.bind, Shader.Value.ty, List.length_ofFn, if_true]
    rfl
  exact bind_eq_ok_of hbind (bind_eq_ok_of h rfl)

omit [Literal L] [LawfulBEq L] [Literal.Legible L] in
theorem call_eq_run {m : Module L} {name : String} {f : Shader.Function L} (hf : m.function? name = some f)
    (hbuiltins : ∀ b : Builtin, m.defines b.name = false) (literal : L → ℝ) (globals : Env ℝ) :
    ∃ ctx : Context L ℝ, ctx.Plain ∧ ctx.literal = literal ∧
      ∀ args, m.call literal globals name args = f.run ctx args := by
  refine ⟨⟨literal, globals, fun callee =>
    if m.defines callee then some (m.callAt literal globals 64 callee) else none⟩, fun b => ?_, rfl, fun args => ?_⟩
  · simp only [hbuiltins b, Bool.false_eq_true, if_false]
  · rw [Module.call, Module.maxDepth, Module.callAt, hf]

end Calls

section Cartesian

omit [LawfulBEq L] [Literal.Legible L] in
theorem hasJacobian_var {literal : L → ℝ} (hfaithful : Literal.Faithful literal) {names : List String}
    (hnodup : names.Nodup) {c : Chart L} (hc : c.forward = names.map .var) (q : Fin n → ℝ) :
    HasJacobian literal names c q fun i j => if i = j then 1 else 0 := by
  intro i j f x hf hx
  rw [hc, List.getElem?_map] at hf
  obtain ⟨y, hy, rfl⟩ := Option.map_eq_some_iff.1 hf
  obtain ⟨hi, rfl⟩ := List.getElem?_eq_some_iff.1 hy
  obtain ⟨hj, rfl⟩ := List.getElem?_eq_some_iff.1 hx
  rw [Expr.derivative]
  dsimp only
  by_cases hij : i = j
  · subst hij
    rw [if_pos BEq.rfl, if_pos rfl]
    exact Expr.hasValue_one hfaithful
  · have hne : names[i.val] ≠ names[j.val] := fun heq =>
      hij (Fin.ext ((List.Nodup.getElem_inj_iff hnodup).1 heq))
    rw [if_neg (fun heq => hne (eq_of_beq heq)), if_neg hij]
    exact Expr.hasValue_zero hfaithful

omit [LawfulBEq L] [Literal.Legible L] in
theorem HasJacobian.unique {literal : L → ℝ} {names : List String} (hnames : names.length = n) {c : Chart L}
    (hc : c.forward.length = n) {q : Fin n → ℝ} {J J' : Fin n → Fin n → ℝ} (h : HasJacobian literal names c q J)
    (h' : HasJacobian literal names c q J') : J = J' := by
  funext i j
  have hf := List.getElem?_eq_getElem (l := c.forward) (i := i.val) (by omega)
  have hx := List.getElem?_eq_getElem (l := names) (i := j.val) (by omega)
  exact (h i j _ _ hf hx).unique (h' i j _ _ hf hx)

omit [LawfulBEq L] [Literal.Legible L] in
theorem Checked.atlas_of_isCartesian {s : Frame L} (hs : s.Checked) (h : s.isCartesian = true) :
    s.atlas = .single s.forward := by
  rw [hs.atlas, hs.forward_of_isCartesian h, Atlas.generate_map_var]

omit [LawfulBEq L] [Literal.Legible L] in
theorem Checked.of_eq_one_of_isCartesian {s : Frame L} (hs : s.Checked) (h : s.isCartesian = true) {literal : L → ℝ}
    (hfaithful : Literal.Faithful literal) {c : Chart L} (hc : c.forward = s.forward) {q : Fin s.dimensions → ℝ}
    {J : Fin s.dimensions → Fin s.dimensions → ℝ} (hJ : HasJacobian literal s.axes c q J) : Matrix.of J = 1 := by
  have hidentity := hasJacobian_var hfaithful (nodup_axes s.dimensions) (hc.trans (hs.forward_of_isCartesian h)) q
  rw [hJ.unique hs.length_axes (congrArg List.length hc) hidentity]
  ext i j
  rw [Matrix.of_apply, Matrix.one_apply]

omit [Literal.Legible L] in
theorem Checked.exists_inverse_of_isCartesian {s : Frame L} (hs : s.Checked) (h : s.isCartesian = true)
    {literal : L → ℝ} (hfaithful : Literal.Faithful literal) {c : Chart L} (hc : c.forward = s.forward)
    (hover : c.Over s.axes) : ∃ inv, (Matrix.jacobian c.forward s.axes).inverse = .ok inv := by
  have hJ := hasJacobian_var hfaithful (nodup_axes s.dimensions) (hc.trans (hs.forward_of_isCartesian h))
    (0 : Fin s.dimensions → ℝ)
  have hdet : (Matrix.of fun i j : Fin s.dimensions => if i = j then (1 : ℝ) else 0).det ≠ 0 := by
    rw [hs.of_eq_one_of_isCartesian h hfaithful hc hJ, Matrix.det_one]
    exact one_ne_zero
  obtain ⟨inv, _, hinv, -⟩ := hJ.exists_inverse hfaithful hs hover hdet
  exact ⟨inv, hinv⟩

end Cartesian

/-- Outside of Cartesian coordinates, the velocity transform exists and runs the code of the chart that owns
the position. -/
theorem Checked.exists_velocityToCartesian_multiplies {s : Frame L} (hs : s.Checked)
    (hcartesian : ¬ s.isCartesian = true) {literal : L → ℝ} (hfaithful : Literal.Faithful literal) :
    ∃ body, s.velocityToCartesian = .ok (velocityFunction s body, s.velocityDiagnostics s.invertedCharts) ∧
      ∀ ctx : Context L ℝ, ctx.Plain → ctx.literal = literal → ∀ pos v : Fin s.dimensions → ℝ,
        ∃ i c, s.atlas.select (.ofPoint literal s.axes (List.ofFn pos)) = .ok i ∧ s.atlas.charts[i]? = some c ∧
          Multiplies literal s c pos v fun w => (velocityFunction s body).run ctx
            [.vec (List.ofFn v), .vec (List.ofFn pos)] = .ok (.vec (List.ofFn w)) := by
  -- The body is the same for every context, so any one of them shows that it exists.
  have hbare : (⟨literal, [], fun _ => none⟩ : Context L ℝ).Plain := fun _ => rfl
  obtain ⟨body, _, _, hbody, -⟩ := (starts_arguments hbare hfaithful (0 : Fin s.dimensions → ℝ) 0)
    |>.velocityToCartesian_exec hs hcartesian
  refine ⟨body, hbody, fun ctx hplain hliteral pos v => ?_⟩
  subst hliteral
  obtain ⟨body', i, c, hbody', hselect, hc, hkept, hmultiplies⟩ :=
    (starts_arguments hplain hfaithful pos v).velocityToCartesian_exec hs hcartesian
  obtain rfl : body = body' := by
    rw [hbody, Except.ok.injEq, Prod.mk.injEq] at hbody'
    exact congrArg Shader.Function.body hbody'.1
  refine ⟨i, c, hselect, hc, fun e he => ?_, fun inv a A d hinv hrows ha hdeterminant => ?_⟩
  · obtain ⟨env', hexec⟩ := hkept e he
    exact run_velocityFunction hexec
  · obtain ⟨env', hexec⟩ := hmultiplies inv a A d hinv hrows ha hdeterminant
    exact run_velocityFunction hexec

/-- The velocity transform of a checked frame exists, and runs the code of the chart that owns the
position; a chart without an inverse is reported. -/
theorem Checked.exists_velocityToCartesian {s : Frame L} (hs : s.Checked) {literal : L → ℝ}
    (hfaithful : Literal.Faithful literal) :
    ∃ body diagnostics, s.velocityToCartesian = .ok (velocityFunction s body, diagnostics) ∧
      ∀ ctx : Context L ℝ, ctx.Plain → ctx.literal = literal → ∀ pos v : Fin s.dimensions → ℝ,
        ∃ i c, s.atlas.select (.ofPoint literal s.axes (List.ofFn pos)) = .ok i ∧ s.atlas.charts[i]? = some c ∧
          Transforms literal s c pos v (fun w => (velocityFunction s body).run ctx
            [.vec (List.ofFn v), .vec (List.ofFn pos)] = .ok (.vec (List.ofFn w))) ∧
          ∀ e, (Matrix.jacobian c.forward s.axes).inverse = .error e →
            Diagnostic.has .jacobianSingular diagnostics = true := by
  by_cases hcartesian : s.isCartesian = true
  · have hatlas := hs.atlas_of_isCartesian hcartesian
    have hcharts : s.atlas.charts[0]? = some ⟨.everywhere, s.forward, .primary⟩ := by
      rw [hatlas]
      rfl
    obtain ⟨inv, hinv⟩ := hs.exists_inverse_of_isCartesian hcartesian hfaithful rfl
      (hs.charts_over _ (List.mem_of_getElem? hcharts))
    refine ⟨[.result (.var "velNative")], [], ?_, fun ctx _ _ pos v => ⟨0, _, ?_, hcharts, ⟨?_, ?_⟩, ?_⟩⟩
    · rw [velocityToCartesian, if_pos hcartesian]
      rfl
    · rw [hatlas]
      rfl
    · exact fun _ _ => run_velocityFunction (Stmt.execAll_singleton _ _ _)
    · intro J hJ _
      refine ⟨v, ?_, run_velocityFunction (Stmt.execAll_singleton _ _ _)⟩
      rw [hs.of_eq_one_of_isCartesian hcartesian hfaithful rfl hJ, Matrix.one_mulVec]
    · intro e he
      rw [hinv] at he
      cases he
  · obtain ⟨body, hbody, hrun⟩ := hs.exists_velocityToCartesian_multiplies hcartesian hfaithful
    refine ⟨body, _, hbody, fun ctx hplain hliteral pos v => ?_⟩
    obtain ⟨i, c, hselect, hc, hmultiplies⟩ := hrun ctx hplain hliteral pos v
    exact ⟨i, c, hselect, hc, hmultiplies.transforms hfaithful hs (hs.charts_over c (List.mem_of_getElem? hc)),
      fun e he => hs.has_jacobianSingular hfaithful.finite hc he⟩

/-- The velocity transform inverts the Jacobian. At every position some chart is selected; wherever the
partial derivatives of its formulas are defined at its sample point and have a determinant other than
zero, its Jacobian has a symbolic inverse, and takes the velocity that the transform gives back to
the native one. Without a symbolic inverse the velocity is kept and a diagnostic says so. -/
theorem velocityToCartesian_mulVec (literal : L → ℝ) (hfaithful : Literal.Faithful literal) (r : Record) (s : Frame L)
    (hrecord : ofRecord r = .ok s) :
    ∃ body diagnostics, s.velocityToCartesian = .ok (velocityFunction s body, diagnostics) ∧
      ∀ (m : Module L) (globals : Env ℝ) (pos v : Fin s.dimensions → ℝ),
        m.function? Names.velocityToCartesian = some (velocityFunction s body) →
        (∀ b : Builtin, m.defines b.name = false) →
        ∃ i c, s.atlas.select (.ofPoint literal s.axes (List.ofFn pos)) = .ok i ∧ s.atlas.charts[i]? = some c ∧
          (∀ J, HasJacobian literal s.axes c (c.kind.sample pos) J → (Matrix.of J).det ≠ 0 →
            (∃ inv, (Matrix.jacobian c.forward s.axes).inverse = .ok inv) ∧
            ∃ w, m.call literal globals Names.velocityToCartesian [.vec (List.ofFn v), .vec (List.ofFn pos)] =
                .ok (.vec (List.ofFn w)) ∧
              (Matrix.of J).mulVec w = v) ∧
          ∀ e, (Matrix.jacobian c.forward s.axes).inverse = .error e →
            m.call literal globals Names.velocityToCartesian [.vec (List.ofFn v), .vec (List.ofFn pos)] =
                .ok (.vec (List.ofFn v)) ∧
              Diagnostic.has .jacobianSingular diagnostics = true := by
  have hs := checked_of_ofRecord hrecord
  obtain ⟨body, diagnostics, hfunction, hrun⟩ := hs.exists_velocityToCartesian hfaithful
  refine ⟨body, diagnostics, hfunction, fun m globals pos v hm hbuiltins => ?_⟩
  obtain ⟨ctx, hplain, hliteral, hcall⟩ := call_eq_run hm hbuiltins literal globals
  obtain ⟨i, c, hselect, hc, ⟨hkept, htransforms⟩, hreported⟩ := hrun ctx hplain hliteral pos v
  refine ⟨i, c, hselect, hc, fun J hJ hdet => ⟨?_, ?_⟩, fun e he => ⟨?_, hreported e he⟩⟩
  · obtain ⟨inv, _, hinv, -⟩ :=
      hJ.exists_inverse hfaithful hs (hs.charts_over c (List.mem_of_getElem? hc)) hdet
    exact ⟨inv, hinv⟩
  · obtain ⟨w, hw, hgives⟩ := htransforms J hJ hdet
    exact ⟨w, (hcall _).trans hgives, hw⟩
  · exact (hcall _).trans (hkept e he)

section Hyperbolic

def hyperbolic : Record := ⟨"hyperbolic", 2, [⟨"u", ""⟩, ⟨"t", ""⟩], ["x * y", "atan2(y, x)"], none, false⟩

def hyperbolicForward : List (Expr Elementary) :=
  [.op .mul (.var "x") (.var "y"), .call₂ .atan2 (.var "y") (.var "x")]

noncomputable def hyperbolicFrame : Frame Elementary :=
  ⟨"hyperbolic", [⟨"u", "u"⟩, ⟨"t", "t"⟩], hyperbolicForward, none, false, .generate ["x", "y"] hyperbolicForward⟩

theorem readFormulas_hyperbolic :
    readFormulas .forward (Names.axes 2) hyperbolic.forward = .ok hyperbolicForward := by cbv

theorem ofRecord_hyperbolic : ofRecord hyperbolic = .ok hyperbolicFrame := by
  have hlabels : checkLabels [] ["u", "t"] = .ok () := rfl
  unfold ofRecord
  simp only [hyperbolic, checkCount, List.map, List.length, hlabels]
  change (readFormulas .forward (Names.axes 2) hyperbolic.forward >>= _) = _
  exact bind_eq_ok_of readFormulas_hyperbolic rfl

theorem select_hyperbolic :
    hyperbolicFrame.atlas.select (.ofPoint Elementary.toReal hyperbolicFrame.axes [2, 1]) = .ok 0 := by
  have hle : Scalar.le (Scalar.abs (1 : ℝ)) (Scalar.abs 2) = true := by
    change decide (|(1 : ℝ)| ≤ |2|) = true
    norm_num
  change (do
    let i ← (if Scalar.le (Scalar.abs (1 : ℝ)) (Scalar.abs 2) then pure (some 0) else _ : Except Unbound (Option Nat))
    return i.getD 1) = _
  rw [if_pos hle]
  rfl

theorem hasJacobian_hyperbolic {c : Chart Elementary} (hc : c.forward = hyperbolicForward) :
    HasJacobian Elementary.toReal hyperbolicFrame.axes c ![2, 1] ![![1, 2], ![-0.2, 0.4]] := by
  have hfaithful := Elementary.faithful_toReal
  let ρ : Valuation Elementary ℝ := .ofPoint Elementary.toReal ["x", "y"] [2, 1]
  have hx : (Expr.var "x").HasValue ρ 2 := .var rfl
  have hy : (Expr.var "y").HasValue ρ 1 := .var rfl
  have hproduct (v : String) {x' y' : ℝ} (hx' : ((Expr.var "x").derivative v).HasValue ρ x')
      (hy' : ((Expr.var "y").derivative v).HasValue ρ y') :
      ((Expr.op .mul (.var "x") (.var "y")).derivative v).HasValue ρ (x' * 1 + 2 * y') :=
    (hx'.mul hfaithful hy).add hfaithful (hx.mul hfaithful hy')
  have hangle (v : String) {x' y' : ℝ} (hx' : ((Expr.var "x").derivative v).HasValue ρ x')
      (hy' : ((Expr.var "y").derivative v).HasValue ρ y') :
      ((Expr.call₂ .atan2 (.var "y") (.var "x")).derivative v).HasValue ρ ((2 * y' - 1 * x') / (2 ^ 2 + 1 ^ 2)) :=
    hy.derivative_atan2 hfaithful hy' hx hx' (by norm_num)
  have hzero := Expr.hasValue_zero (ρ := ρ) hfaithful
  have hone := Expr.hasValue_one (ρ := ρ) hfaithful
  have hvalues : ![![1, 2], ![-0.2, 0.4]] = ![![1 * 1 + 2 * 0, 0 * 1 + 2 * 1],
      ![(2 * 0 - 1 * 1) / (2 ^ 2 + 1 ^ 2), (2 * 1 - 1 * 0) / (2 ^ 2 + 1 ^ 2 : ℝ)]] := by norm_num
  rw [hvalues]
  intro i j f v hf hv
  rw [hc] at hf
  fin_cases i <;> fin_cases j <;> cases hf <;> cases hv
  · exact hproduct "x" hone hzero
  · exact hproduct "y" hzero hone
  · exact hangle "x" hone hzero
  · exact hangle "y" hzero hone

theorem det_hyperbolic : (Matrix.of (![![1, 2], ![-0.2, 0.4]] : Fin 2 → Fin 2 → ℝ)).det ≠ 0 := by
  norm_num [Matrix.det_fin_two]

theorem ofFn_of_mulVec_hyperbolic {w : Fin 2 → ℝ} (hw : (Matrix.of ![![1, 2], ![-0.2, 0.4]]).mulVec w = ![4, 0]) :
    List.ofFn w = [2, 1] := by
  have h₀ : w 0 + 2 * w 1 = 4 := by simpa [Matrix.mulVec, dotProduct] using congrFun hw 0
  have h₁ : -(0.2 * w 0) + 0.4 * w 1 = 0 := by simpa [Matrix.mulVec, dotProduct] using congrFun hw 1
  obtain rfl : w = ![2, 1] := by
    funext i
    fin_cases i
    · change w 0 = 2
      linarith
    · change w 1 = 1
      linarith
  rfl

/-- At the point (2, 1), the native velocity that only scales the hyperbolas points away from the origin. -/
theorem velocityToCartesian_mulVec_hyperbolic :
    ∃ (s : Frame Elementary) (body : List (Stmt Elementary)) (diagnostics : List Diagnostic),
      ofRecord hyperbolic = .ok s ∧ s.velocityToCartesian = .ok (velocityFunction s body, diagnostics) ∧
      Module.call ⟨[], [], [velocityFunction s body]⟩ Elementary.toReal [] Names.velocityToCartesian
        [.vec [4, 0], .vec [2, 1]] = .ok (.vec [2, 1]) := by
  obtain ⟨body, diagnostics, hfunction, hcalls⟩ := velocityToCartesian_mulVec Elementary.toReal
    Elementary.faithful_toReal hyperbolic hyperbolicFrame ofRecord_hyperbolic
  refine ⟨hyperbolicFrame, body, diagnostics, ofRecord_hyperbolic, hfunction, ?_⟩
  obtain ⟨i, c, hi, hc, hmulVec, -⟩ := hcalls ⟨[], [], [velocityFunction hyperbolicFrame body]⟩ [] ![2, 1] ![4, 0] rfl
    (fun b => by rcases b with ⟨⟨⟩⟩ | _ <;> rfl)
  obtain rfl : 0 = i := Except.ok.inj (select_hyperbolic.symm.trans hi)
  obtain rfl := Option.some.inj hc
  obtain ⟨-, w, hcall, hw⟩ := hmulVec _ (hasJacobian_hyperbolic rfl) det_hyperbolic
  exact hcall.trans (congrArg (fun xs => Except.ok (Shader.Value.vec xs)) (ofFn_of_mulVec_hyperbolic hw))

end Hyperbolic

end FlowShader.Coordinates.Frame
