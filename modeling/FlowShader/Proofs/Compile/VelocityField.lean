import FlowShader.Proofs.Scalar.Real
import FlowShader.Proofs.Compile.Module
import FlowShader.Proofs.Matrix.Application

namespace FlowShader

open Shader (Term Stmt Function Module Env Value Context Builtin)
open Coordinates (Frame Chart Atlas)

variable {L : Type} [Literal L]

section Points

variable {K : Type} {literal : L → K} {names names' : List String} {xs xs' : List K}

omit [Literal L] in
theorem Valuation.binding_ofPoint_append (hlength : names.length = xs.length) (v : String) :
    (ofPoint literal (names ++ names') (xs ++ xs')).binding v =
      ((ofPoint literal names xs).binding v).or ((ofPoint literal names' xs').binding v) := by
  simp only [ofPoint]
  rw [List.zip_append hlength, List.find?_append, Option.map_or]

omit [Literal L] in
theorem Valuation.binding_ofPoint_of_not_mem {v : String} (hv : v ∉ names) :
    (ofPoint literal names xs).binding v = none := by
  simp only [ofPoint]
  rw [Option.map_eq_none_iff, List.find?_eq_none]
  intro p hp hname
  exact hv (eq_of_beq hname ▸ (List.of_mem_zip hp).1)

end Points

namespace Coordinates.Frame

/-- Cartesian coordinates and the animation parameter. -/
def cartesianValuation (s : Frame L) (literal : L → ℝ) (pos : Fin s.dimensions → ℝ) (x : ℝ) : Valuation L ℝ :=
  .ofPoint literal (s.axes ++ [Names.alpha]) (List.ofFn pos ++ [x])

/-- Native coordinates as well, which hide Cartesian ones of the same name. -/
def nativeValuation (s : Frame L) (literal : L → ℝ) (pos native : Fin s.dimensions → ℝ) (x : ℝ) : Valuation L ℝ :=
  .ofPoint literal (s.labels ++ (s.axes ++ [Names.alpha])) (List.ofFn native ++ (List.ofFn pos ++ [x]))

variable {s : Frame L} (hs : s.Checked)
include hs

section Scalars

variable {K : Type} {literal : L → K} {pos : Fin s.dimensions → K} {x : K}

theorem Checked.binding_cartesian {v : String} {z : K}
    (hv : (Valuation.ofPoint literal s.axes (List.ofFn pos)).binding v = some z) :
    (Valuation.ofPoint literal (s.axes ++ [Names.alpha]) (List.ofFn pos ++ [x])).binding v = some z := by
  rw [Valuation.binding_ofPoint_append (by rw [hs.length_axes, List.length_ofFn]), hv]
  rfl

theorem Checked.binding_cartesian_alpha :
    (Valuation.ofPoint literal (s.axes ++ [Names.alpha]) (List.ofFn pos ++ [x])).binding Names.alpha = some x := by
  have hnot : Names.alpha ∉ s.axes := fun h =>
    absurd (List.mem_of_mem_take h) (by decide : Names.alpha ∉ ["x", "y", "z", "w", "u", "v"])
  rw [Valuation.binding_ofPoint_append (by rw [hs.length_axes, List.length_ofFn]),
    Valuation.binding_ofPoint_of_not_mem hnot]
  rfl

end Scalars

variable {literal : L → ℝ} {pos native : Fin s.dimensions → ℝ} {x : ℝ}

theorem Checked.binding_native_label {i : Fin s.dimensions} {v : String} (hv : s.labels[i.val]? = some v) :
    (s.nativeValuation literal pos native x).binding v = some (native i) := by
  have hlabel : (Valuation.ofPoint literal s.labels (List.ofFn native)).binding v = some (native i) :=
    Valuation.binding_ofPoint _ hs.nodup hv (by simp)
  rw [nativeValuation, Valuation.binding_ofPoint_append (by rw [hs.length_labels, List.length_ofFn]), hlabel]
  rfl

theorem Checked.binding_native_of_not_mem {v : String} (hv : v ∉ s.labels) :
    (s.nativeValuation literal pos native x).binding v = (s.cartesianValuation literal pos x).binding v := by
  rw [nativeValuation, Valuation.binding_ofPoint_append (by rw [hs.length_labels, List.length_ofFn]),
    Valuation.binding_ofPoint_of_not_mem hv]
  rfl

end Coordinates.Frame

section Formulas

variable {ρ ρ' : Valuation L ℝ}

theorem Expr.HasValue.subst {e : Expr L} {x : ℝ} {σ : String → Option (Expr L)} (h : e.HasValue ρ' x)
    (hliteral : ρ.literal = ρ'.literal)
    (hσ : ∀ v z, ρ'.binding v = some z → ((σ v).getD (.var v)).HasValue ρ z) : (e.subst σ).HasValue ρ x := by
  induction h with
  | literal hx => exact hliteral ▸ .literal hx
  | constant => exact .constant
  | var hv => exact hσ _ _ hv
  | call _ hf ih => exact .call ih hf
  | call₂ _ _ iha ihb => exact .call₂ iha ihb
  | op _ _ ho iha ihb => exact .op iha ihb ho

end Formulas

section Newton

variable {p : Problem L} (hp : p.Checked) {literal : L → ℝ} {pos native : Fin p.frame.dimensions → ℝ} {x : ℝ}
  (hnative : List.Forall₂ (Expr.HasValue (.ofPoint literal p.frame.axes (List.ofFn pos))) p.frame.forward
    (List.ofFn native))
include hp hnative

/-- Derivatives at the forward formulas have the values of derivatives at the native coordinates. -/
theorem Problem.Checked.subst_hasValue {e : Expr L} {y : ℝ}
    (he : e.HasValue (p.frame.nativeValuation literal pos native x) y) :
    (e.subst (Expr.bindings (p.frame.labels.zip p.frame.forward))).HasValue
      (p.frame.cartesianValuation literal pos x) y := by
  refine he.subst rfl fun v z hv => ?_
  by_cases hlabel : v ∈ p.frame.labels
  · obtain ⟨i, hi⟩ := List.mem_iff_getElem?.1 hlabel
    have hlt : i < p.frame.forward.length :=
      Nat.lt_of_lt_of_eq (List.getElem?_eq_some_iff.1 hi).1 hp.frame.length_labels
    rw [hp.frame.binding_native_label (i := ⟨i, hlt⟩) hi, Option.some.injEq] at hv
    have hvalue := hnative.get hlt (by rwa [List.length_ofFn])
    rw [List.get_ofFn] at hvalue
    rw [Expr.bindings_of_mem hp.frame.nodup hi (List.getElem?_eq_getElem hlt), ← hv]
    exact hvalue.mono rfl fun _ _ _ => hp.frame.binding_cartesian
  · rw [hp.frame.binding_native_of_not_mem hlabel] at hv
    rw [Expr.bindings_of_not_mem hlabel]
    exact .var hv

theorem Problem.Checked.newtonVelocity_hasValue [LawfulBEq L] (hfaithful : Literal.Faithful literal)
    (hderived : p.newtonExpressions = none) (hcartesian : p.frame.isCartesian = false) {inv : Matrix.Inverse L}
    (hinv : p.frame.jacobian.inverse = .ok inv) {a : Fin p.frame.dimensions → Fin p.frame.dimensions → Expr L}
    {A : Fin p.frame.dimensions → Fin p.frame.dimensions → ℝ} (hrows : inv.adjugate.rows = Matrix.grid a)
    (ha : ∀ i j, (a i j).HasValue (.ofPoint literal p.frame.axes (List.ofFn pos)) (A i j)) {d : ℝ}
    (hdeterminant : inv.determinant.HasValue (.ofPoint literal p.frame.axes (List.ofFn pos)) d) (hd : d ≠ 0)
    {v : Fin p.frame.dimensions → ℝ}
    (hv : List.Forall₂ (Expr.HasValue (p.frame.nativeValuation literal pos native x)) p.derivatives (List.ofFn v)) :
    ∃ es, p.newtonVelocity = some es ∧ List.Forall₂ (Expr.HasValue (p.frame.cartesianValuation literal pos x)) es
      (List.ofFn fun i => (Matrix.of A).mulVec v i * (1 / d)) := by
  have hextend {e : Expr L} {y : ℝ} (he : e.HasValue (.ofPoint literal p.frame.axes (List.ofFn pos)) y) :
      e.HasValue (p.frame.cartesianValuation literal pos x) y :=
    he.mono rfl fun _ _ _ => hp.frame.binding_cartesian
  refine ⟨inv.apply (p.derivatives.map (Expr.subst (Expr.bindings (p.frame.labels.zip p.frame.forward)))), ?_, ?_⟩
  · simp [newtonVelocity, hderived, hcartesian, hinv]
  · refine Matrix.Inverse.apply_hasValue hfaithful hrows (fun i j => hextend (ha i j)) (hextend hdeterminant) hd ?_
    exact List.forall₂_map_left_iff.2 (hv.imp fun _ _ he => hp.subst_hasValue hnative he)

end Newton

section Code

section Cartesian

variable {K : Type} [Scalar K] {ctx : Context L K} {env : Env K}

omit [Literal L] in
theorem Shader.Function.run_vector {name parameter : String} {n : Nat} {ty : Shader.Ty} {body : List (Stmt L)}
    {xs : Fin n → K} {v : Value K} (env' : Env K)
    (h : Stmt.execAll ctx body [(parameter, .vec (List.ofFn xs))] = .ok (env', .result v)) :
    (⟨name, [(.vec n, parameter)], ty, body⟩ : Function L).run ctx [.vec (List.ofFn xs)] = .ok v := by
  have hbind : Function.bind name [(.vec n, parameter)] [.vec (List.ofFn xs)] [] =
      .ok [(parameter, Value.vec (List.ofFn xs))] := by
    simp only [Function.bind, Value.ty, List.length_ofFn, if_true]
    rfl
  exact bind_eq_ok_of hbind (bind_eq_ok_of h rfl)

namespace Problem

variable {p : Problem L} {alpha : String} {pos : Fin p.frame.dimensions → K} {x : K}

theorem Checked.get?_cartesian (hp : p.Checked) {name : String} {t : Term L}
    (ht : (cartesian p.frame.axes alpha).get? name = some t) :
    name = Names.alpha ∧ t = .var alpha ∨
      ∃ i : Fin p.frame.dimensions, p.frame.axes[i.val]? = some name ∧ t = .component (.var "pos") i := by
  rw [cartesian, Bindings.get?_bind] at ht
  split at ht
  · next heq => exact .inl ⟨heq.symm, (Option.some.inj ht).symm⟩
  · rcases ({} : Bindings L).get?_bindVector p.frame.axes "pos" name with ⟨-, hget⟩ | ⟨i, hi, hget⟩
    · rw [hget] at ht
      cases ht
    · have hlt : i < p.frame.dimensions := hp.frame.length_axes ▸ (List.getElem?_eq_some_iff.1 hi).1
      exact .inr ⟨⟨i, hlt⟩, hi, Option.some.inj (ht.symm.trans hget)⟩

theorem Checked.derivatives_over_cartesian (hp : p.Checked) (hcartesian : p.frame.isCartesian = true) :
    ∀ e ∈ p.derivatives, e.Over (p.frame.axes ++ [Names.alpha]) := by
  intro e he
  refine (hp.derivatives e he).mono ?_
  rw [hp.frame.labels_of_isCartesian hcartesian]
  simp

theorem Checked.reads_cartesian (hp : p.Checked) (hplain : ctx.Plain) (hliterals : Literal.Interprets ctx.literal)
    (hpos : env.get? "pos" = some (.vec (List.ofFn pos)))
    (halpha : (Term.var alpha : Term L).eval ctx env = .ok (.float x))
    (hnumbered : Names.isNumbered Names.temporaryStem alpha = false) :
    (Lowering.emitting (cartesian p.frame.axes alpha)).Reads ctx env
      (.ofPoint ctx.literal (p.frame.axes ++ [Names.alpha]) (List.ofFn pos ++ [x])) := by
  refine ⟨hplain, hliterals, rfl, fun name t ht => ?_, fun name t stem ht hstem mention hmention => ?_⟩
  · rcases hp.get?_cartesian ht with ⟨rfl, rfl⟩ | ⟨i, hi, rfl⟩
    · exact ⟨x, hp.frame.binding_cartesian_alpha, halpha⟩
    · exact ⟨pos i, hp.frame.binding_cartesian (Valuation.binding_ofPoint _ (Frame.nodup_axes _) hi (by simp)),
        Term.eval_component_var hpos (by simp)⟩
  · obtain rfl := Option.some.inj hstem
    rcases hp.get?_cartesian ht with ⟨rfl, rfl⟩ | ⟨i, hi, rfl⟩
    · rwa [List.mem_singleton.1 hmention]
    · rw [List.mem_singleton.1 hmention]
      decide

omit [Literal L] in
theorem eval_parameter (halpha : ctx.globals.get? alpha = some (.float x)) (hlocal : env.get? alpha = none) :
    (Term.var alpha : Term L).eval ctx env = .ok (.float x) := by
  rw [Term.eval, hlocal, halpha]
  rfl

section Parameter

variable (hfree : Names.isTaken alpha = false)
include hfree

omit [Literal L] [Scalar K] in
theorem get?_position (pos : Value K) : Env.get? [("pos", pos)] alpha = none := by
  have hpos : "pos" ≠ alpha := ne_of_isTaken hfree (by decide)
  rw [Env.get?, if_neg (by simpa using hpos)]
  rfl

omit [Literal L] in
theorem isNumbered_parameter : Names.isNumbered Names.temporaryStem alpha = false := by
  by_contra h
  simp [Names.isTaken, h] at hfree

end Parameter

end Problem

variable [Literal.Legible L]

theorem Lowering.lowerAll_values {ρ : Valuation L K} {c : Lowering L} (h : c.Reads ctx env ρ) (shared : List (Expr L))
    {es : List (Expr L)} (hlegible : ∀ e ∈ es, e.Legible) {names : List String} (hover : ∀ e ∈ es, e.Over names)
    (hnames : ∀ v ∈ names, (c.bindings.get? v).isSome = true) :
    ∃ declarations ts env' xs, c.lowerAll shared es = .ok (declarations, ts) ∧
      Stmt.execAll ctx declarations env = .ok (env', .next) ∧ c.Agrees 0 env env' ∧
      List.Forall₂ (fun e y => e.meaning c.clamp ρ = .ok y) es xs ∧ Term.evalAll ctx env' ts = .ok (xs.map .float) := by
  obtain ⟨declarations, ts, k, env', hlower, hexec, hagrees, hts⟩ := lowerAll_renders h shared hlegible
    fun e he v hv => hnames v (hover e he v hv)
  have hvalues : ∃ xs, List.Forall₂ (fun e y => e.meaning c.clamp ρ = .ok y) es xs ∧
      List.Forall₂ (fun t x => t.eval ctx env' = .ok (.float x)) ts xs := by
    clear hlower hover hlegible
    induction hts with
    | nil => exact ⟨[], .nil, .nil⟩
    | cons ht _ ih =>
        obtain ⟨x, hx, -, ht⟩ := ht
        obtain ⟨xs, hxs, hts⟩ := ih
        exact ⟨x :: xs, .cons hx hxs, .cons ht hts⟩
  obtain ⟨xs, hxs, hts⟩ := hvalues
  exact ⟨declarations, ts, env', xs, hlower, hexec, hagrees, hxs, Term.evalAll_floats hts⟩

theorem Lowering.lowerAll_meanings {ρ : Valuation L K} {c : Lowering L} (h : c.Reads ctx env ρ) (shared : List (Expr L))
    {es : List (Expr L)} {xs : List K} (hvalues : List.Forall₂ (fun e y => e.meaning c.clamp ρ = .ok y) es xs)
    (hlegible : ∀ e ∈ es, e.Legible) {names : List String} (hover : ∀ e ∈ es, e.Over names)
    (hnames : ∀ v ∈ names, (c.bindings.get? v).isSome = true) :
    ∃ declarations ts env', c.lowerAll shared es = .ok (declarations, ts) ∧
      Stmt.execAll ctx declarations env = .ok (env', .next) ∧ c.Agrees 0 env env' ∧
      Term.evalAll ctx env' ts = .ok (xs.map .float) := by
  obtain ⟨declarations, ts, env', ys, hlower, hexec, hagrees, hys, hts⟩ := lowerAll_values h shared hlegible hover hnames
  have hunique : Relator.RightUnique fun (e : Expr L) y => e.meaning c.clamp ρ = .ok y :=
    fun _ _ _ hy hz => Except.ok.inj (hy.symm.trans hz)
  rw [← List.right_unique_forall₂' hunique hvalues hys] at hts
  exact ⟨declarations, ts, env', hlower, hexec, hagrees, hts⟩

namespace Problem

variable {p : Problem L} {alpha : String} {pos : Fin p.frame.dimensions → K} {x : K}
  (hp : p.Checked) (hplain : ctx.Plain) (hliterals : Literal.Interprets ctx.literal)
  (hfree : Names.isTaken alpha = false) (halpha : ctx.globals.get? alpha = some (.float x))
include hp hplain hliterals hfree halpha

theorem Checked.lowerAll_position (shared : List (Expr L)) {es : List (Expr L)} {xs : List K}
    (hvalues : List.Forall₂ (fun e y =>
      e.meaning true (.ofPoint ctx.literal (p.frame.axes ++ [Names.alpha]) (List.ofFn pos ++ [x])) = .ok y) es xs)
    (hlegible : ∀ e ∈ es, e.Legible) (hover : ∀ e ∈ es, e.Over (p.frame.axes ++ [Names.alpha])) :
    ∃ declarations ts env',
      (Lowering.emitting (cartesian p.frame.axes alpha)).lowerAll shared es = .ok (declarations, ts) ∧
      Stmt.execAll ctx declarations [("pos", .vec (List.ofFn pos))] = .ok (env', .next) ∧
      Term.evalAll ctx env' ts = .ok (xs.map .float) := by
  have hreads : (Lowering.emitting (cartesian p.frame.axes alpha)).Reads ctx [("pos", .vec (List.ofFn pos))] _ :=
    hp.reads_cartesian hplain hliterals rfl (eval_parameter halpha (get?_position hfree _)) (isNumbered_parameter hfree)
  obtain ⟨declarations, ts, env', hlower, hexec, -, hts⟩ := Lowering.lowerAll_meanings hreads shared hvalues hlegible
    hover fun v hv => isSome_get?_cartesian alpha hv
  exact ⟨declarations, ts, env', hlower, hexec, hts⟩

theorem Checked.getVelocity_run_cartesian (hcartesian : p.frame.isCartesian = true) {f : Function L}
    (hf : p.getVelocity alpha = .ok f) {v : Fin p.frame.dimensions → K}
    (hv : List.Forall₂ (fun e y =>
      e.meaning true (.ofPoint ctx.literal (p.frame.axes ++ [Names.alpha]) (List.ofFn pos ++ [x])) = .ok y)
      p.derivatives (List.ofFn v)) (hlegible : ∀ e ∈ p.derivatives, e.Legible) :
    f.run ctx [.vec (List.ofFn pos)] = .ok (.vec (List.ofFn v)) := by
  obtain ⟨declarations, ts, env', hlower, hexec, hts⟩ := hp.lowerAll_position hplain hliterals hfree halpha
    p.derivatives hv hlegible (hp.derivatives_over_cartesian hcartesian)
  let n := p.frame.dimensions
  have hbody : p.getVelocity alpha = .ok ⟨Names.getVelocity, [(.vec n, "pos")], .vec n,
      declarations ++ [.result (.construct (.vec n) ts)]⟩ := by
    unfold getVelocity
    simp only [hcartesian]
    exact bind_eq_ok_of hlower rfl
  obtain rfl := Except.ok.inj (hf.symm.trans hbody)
  refine Function.run_vector env' (Stmt.execAll_result hexec ?_)
  rw [Term.eval]
  exact bind_eq_ok_of hts (Value.construct_vec hp.frame.two_le List.length_ofFn)

end Problem

end Cartesian

variable [LawfulBEq L] [Literal.Legible L] {ctx : Context L ℝ} {env : Env ℝ}

theorem Lowering.lowerAll_vector {ρ : Valuation L ℝ} {c : Lowering L} (h : c.Reads ctx env ρ)
    (hfaithful : Literal.Faithful ctx.literal) {n : Nat} (hn : 1 < n) {es : List (Expr L)} {xs : Fin n → ℝ}
    (hvalues : List.Forall₂ (Expr.HasValue ρ) es (List.ofFn xs)) {names : List String} (hover : ∀ e ∈ es, e.Over names)
    (hnames : ∀ v ∈ names, (c.bindings.get? v).isSome = true ∧ Token.isIdentifier v = true) :
    ∃ declarations ts env', c.lowerAll es es = .ok (declarations, ts) ∧
      Stmt.execAll ctx declarations env = .ok (env', .next) ∧ c.Agrees 0 env env' ∧
      (Term.construct (.vec n) ts).eval ctx env' = .ok (.vec (List.ofFn xs)) := by
  have hliteral : Literal.Faithful ρ.literal := h.literal ▸ hfaithful
  obtain ⟨declarations, ts, env', hlower, hexec, hagrees, hts⟩ := lowerAll_meanings h es
    (hvalues.imp fun _ _ hy => hy.meaning hliteral c.clamp)
    (fun e he => (hover e he).legible hfaithful.finite fun v hv => (hnames v hv).2) hover fun v hv => (hnames v hv).1
  refine ⟨declarations, ts, env', hlower, hexec, hagrees, ?_⟩
  rw [Term.eval]
  exact bind_eq_ok_of hts (Value.construct_vec hn List.length_ofFn)

namespace Coordinates.Frame

variable {s : Frame L} {pos native : Fin s.dimensions → ℝ}

omit [Literal.Legible L] in
theorem legible_of_over (hfinite : ∀ x : L, Literal.isFinite x = true) {e : Expr L}
    (he : e.Over (s.axes ++ [Names.alpha])) : e.Legible := by
  refine he.legible hfinite fun v hv => ?_
  rcases List.mem_append.1 hv with hv | hv
  · exact isIdentifier_of_mem_axes v hv
  · rw [List.mem_singleton.1 hv]
    decide

omit [LawfulBEq L] [Literal.Legible L] in
theorem exists_of_toNative {f : Function L} (h : s.toNative = .ok f) :
    ∃ body, f = ⟨Names.toNative, [(.vec s.dimensions, "pos")], .vec s.dimensions, body⟩ := by
  unfold toNative at h
  split at h
  · exact ⟨_, (Except.ok.inj h).symm⟩
  · obtain ⟨_, -, h⟩ := exists_of_bind_eq_ok h
    exact ⟨_, (Except.ok.inj h).symm⟩

omit [LawfulBEq L] [Literal.Legible L] in
theorem isIdentifier_of_isLabel {name : String} (h : isLabel name = true) :
    Token.isIdentifier name = true := by
  unfold isLabel at h
  unfold Token.isIdentifier Token.ofWord
  simp only [Bool.and_eq_true, Option.isNone_iff_eq_none] at h
  obtain ⟨⟨⟨hchars, -⟩, hconstant⟩, hcallable⟩ := h
  rw [hconstant, hcallable]
  split <;> simp_all

section Transforms

variable (hplain : ctx.Plain) (hfaithful : Literal.Faithful ctx.literal)
include hplain hfaithful

theorem exists_lowerVector (name base : String) (hbase : Names.isNumbered Names.temporaryStem base = false)
    {names : List String} {n : Nat} (hn : 1 < n) (hnodup : names.Nodup) (hlength : names.length = n)
    (hidentifiers : ∀ v ∈ names, Token.isIdentifier v = true) {es : List (Expr L)} (hover : ∀ e ∈ es, e.Over names)
    {xs ys : Fin n → ℝ}
    (hvalues : List.Forall₂ (Expr.HasValue (.ofPoint ctx.literal names (List.ofFn xs))) es (List.ofFn ys)) :
    ∃ declarations t, lowerVector (onComponents names base) es = .ok (declarations, t) ∧
      (⟨name, [(.vec n, base)], .vec n, declarations ++ [.result t]⟩ : Function L).run ctx [.vec (List.ofFn xs)] =
        .ok (.vec (List.ofFn ys)) := by
  have hreads : (onComponents (L := L) names base).Reads ctx [(base, .vec (List.ofFn xs))]
      (.ofPoint ctx.literal names (List.ofFn xs)) := by
    refine Lowering.reads_bindVector rfl hplain hfaithful.interprets ?_ hnodup (by rw [hlength, List.length_ofFn]) ?_
    · exact if_pos (beq_self_eq_true base)
    · rintro _ ⟨⟩
      exact hbase
  obtain ⟨declarations, ts, env', hlower, hexec, -, hvector⟩ := Lowering.lowerAll_vector hreads hfaithful hn hvalues
    hover fun v hv => ⟨Bindings.isSome_get?_bindVector {} _ (.inl hv), hidentifiers v hv⟩
  have hcount : es.length = n := by rw [hvalues.length_eq, List.length_ofFn]
  refine ⟨declarations, .construct (.vec n) ts, ?_, Function.run_vector env' (Stmt.execAll_result hexec hvector)⟩
  rw [← hcount]
  exact bind_eq_ok_of hlower rfl

variable (hs : s.Checked)
include hs

theorem Checked.toNative_run (hcartesian : s.isCartesian = false) {f : Function L} (hf : s.toNative = .ok f)
    (hnative : List.Forall₂ (Expr.HasValue (.ofPoint ctx.literal s.axes (List.ofFn pos))) s.forward
      (List.ofFn native)) : f.run ctx [.vec (List.ofFn pos)] = .ok (.vec (List.ofFn native)) := by
  obtain ⟨declarations, t, hlower, hrun⟩ := exists_lowerVector hplain hfaithful Names.toNative "pos" (by decide)
    hs.two_le (nodup_axes _) hs.length_axes isIdentifier_of_mem_axes hs.forward hnative
  have hbody : s.toNative = .ok ⟨Names.toNative, [(.vec s.dimensions, "pos")], .vec s.dimensions,
      declarations ++ [.result t]⟩ := by
    unfold toNative
    simp only [hcartesian]
    exact bind_eq_ok_of hlower rfl
  obtain rfl := Except.ok.inj (hf.symm.trans hbody)
  exact hrun

theorem Checked.toCartesian_run (hstrategy : s.strategy = .explicit) {es : List (Expr L)} (hes : s.inverse = some es)
    {solver : Coordinates.Solver L} {f : Function L} (hf : s.toCartesian solver = .ok f)
    (hpos : List.Forall₂ (Expr.HasValue (.ofPoint ctx.literal s.labels (List.ofFn native))) es (List.ofFn pos)) :
    f.run ctx [.vec (List.ofFn native)] = .ok (.vec (List.ofFn pos)) := by
  obtain ⟨declarations, t, hlower, hrun⟩ := exists_lowerVector hplain hfaithful Names.toCartesian "native" (by decide)
    hs.two_le hs.nodup hs.length_labels (fun v hv => isIdentifier_of_isLabel (hs.labels v hv)) (hs.inverse es hes).2
    hpos
  have hbody : s.toCartesian solver = .ok ⟨Names.toCartesian, [(.vec s.dimensions, "native")], .vec s.dimensions,
      declarations ++ [.result t]⟩ := by
    unfold toCartesian
    simp only [hstrategy, hes, Option.getD_some]
    exact bind_eq_ok_of hlower rfl
  obtain rfl := Except.ok.inj (hf.symm.trans hbody)
  exact hrun

end Transforms

end Coordinates.Frame

namespace Problem

variable {p : Problem L} {alpha : String} {pos q : Fin p.frame.dimensions → ℝ} {x : ℝ}

omit [LawfulBEq L] [Literal.Legible L] in
theorem Checked.get?_native (hp : p.Checked) {name : String} {t : Term L}
    (ht : (nativeNames p.frame alpha).get? name = some t) :
    (∃ i : Fin p.frame.dimensions, p.frame.labels[i.val]? = some name ∧ t = .component (.var "native") i) ∨
      name ∉ p.frame.labels ∧ (cartesian p.frame.axes alpha).get? name = some t := by
  rcases (cartesian p.frame.axes alpha).get?_bindVector p.frame.labels "native" name with ⟨hname, hget⟩ | ⟨i, hi, hget⟩
  · exact .inr ⟨hname, hget ▸ ht⟩
  · have hlt : i < p.frame.dimensions := hp.frame.length_labels ▸ (List.getElem?_eq_some_iff.1 hi).1
    exact .inl ⟨⟨i, hlt⟩, hi, Option.some.inj (ht.symm.trans hget)⟩

omit [LawfulBEq L] [Literal.Legible L] in
theorem Checked.reads_native (hp : p.Checked) (hplain : ctx.Plain) (hfaithful : Literal.Faithful ctx.literal)
    (hpos : env.get? "pos" = some (.vec (List.ofFn pos))) (hnative : env.get? "native" = some (.vec (List.ofFn q)))
    (halpha : (Term.var alpha : Term L).eval ctx env = .ok (.float x))
    (hnumbered : Names.isNumbered Names.temporaryStem alpha = false) :
    (Lowering.emitting (nativeNames p.frame alpha)).Reads ctx env (p.frame.nativeValuation ctx.literal pos q x) := by
  have hcartesian := hp.reads_cartesian hplain hfaithful.interprets hpos halpha hnumbered
  refine ⟨hplain, hfaithful.interprets, rfl, fun name t ht => ?_, fun name t stem ht hstem => ?_⟩
  · rcases hp.get?_native ht with ⟨i, hi, rfl⟩ | ⟨hname, ht⟩
    · exact ⟨q i, hp.frame.binding_native_label hi, Term.eval_component_var hnative (by simp)⟩
    · rw [hp.frame.binding_native_of_not_mem hname]
      exact hcartesian.bound name t ht
  · obtain rfl := Option.some.inj hstem
    rcases hp.get?_native ht with ⟨i, hi, rfl⟩ | ⟨hname, ht⟩
    · exact List.forall_mem_singleton.2 (by decide)
    · exact hcartesian.fresh name t _ ht rfl

omit [LawfulBEq L] [Literal.Legible L] in
theorem Checked.names_native (hp : p.Checked) (alpha : String) :
    ∀ name ∈ p.frame.axes ++ p.frame.labels ++ [Names.alpha],
      ((nativeNames p.frame alpha).get? name).isSome = true ∧ Token.isIdentifier name = true := by
  intro name hname
  refine ⟨isSome_get?_nativeNames alpha hname, ?_⟩
  rw [List.mem_append, List.mem_append, List.mem_singleton] at hname
  rcases hname with (hname | hname) | rfl
  · exact Frame.isIdentifier_of_mem_axes _ hname
  · exact Frame.isIdentifier_of_isLabel (hp.frame.labels _ hname)
  · decide

/-- The velocity at a position is the Cartesian one of the derivatives at its native coordinates. -/
theorem Checked.getVelocity_run (hp : p.Checked) (hcartesian : p.frame.isCartesian = false) {f : Function L}
    (hf : p.getVelocity alpha = .ok f) (hplain : ctx.Plain) (hfaithful : Literal.Faithful ctx.literal)
    (hfree : Names.isTaken alpha = false) (halpha : ctx.globals.get? alpha = some (.float x))
    {v w : Fin p.frame.dimensions → ℝ}
    (hnative : ctx.apply Names.toNative [.vec (List.ofFn pos)] = .ok (.vec (List.ofFn q)))
    (hv : List.Forall₂ (Expr.HasValue (p.frame.nativeValuation ctx.literal pos q x)) p.derivatives (List.ofFn v))
    (hvelocity : ctx.apply Names.velocityToCartesian [.vec (List.ofFn v), .vec (List.ofFn pos)] =
      .ok (.vec (List.ofFn w))) : f.run ctx [.vec (List.ofFn pos)] = .ok (.vec (List.ofFn w)) := by
  let env₀ : Env ℝ := [("pos", .vec (List.ofFn pos))]
  let env₁ : Env ℝ := env₀.set "native" (.vec (List.ofFn q))
  have hlocal : env₁.get? alpha = none :=
    (Env.get?_set_ne _ (ne_of_isTaken hfree (by decide)) _).trans (get?_position hfree _)
  have hreads : (Lowering.emitting (nativeNames p.frame alpha)).Reads ctx env₁ _ :=
    hp.reads_native hplain hfaithful rfl rfl (eval_parameter halpha hlocal) (isNumbered_parameter hfree)
  obtain ⟨declarations, ts, env₂, hlower, hexec, hagrees, hvector⟩ := Lowering.lowerAll_vector hreads hfaithful
    hp.frame.two_le hv hp.derivatives (hp.names_native alpha)
  let n := p.frame.dimensions
  have hbody : p.getVelocity alpha = .ok ⟨Names.getVelocity, [(.vec n, "pos")], .vec n,
      .declare (.vec n) "native" (.call Names.toNative [.var "pos"]) :: declarations ++
        [.declare (.vec n) "velNative" (.construct (.vec n) ts),
          .result (.call Names.velocityToCartesian [.var "velNative", .var "pos"])]⟩ := by
    unfold getVelocity
    simp only [hcartesian]
    exact bind_eq_ok_of hlower rfl
  obtain rfl := Except.ok.inj (hf.symm.trans hbody)
  let env₃ : Env ℝ := env₂.set "velNative" (.vec (List.ofFn v))
  -- The declarations change numbered temporaries only.
  have hpos : env₃.get? "pos" = some (.vec (List.ofFn pos)) := by
    have hlater : ¬ (Lowering.emitting (nativeNames p.frame alpha)).Later 0 "pos" :=
      Frame.not_later_of_not_isNumbered fun stem hstem => Option.some.inj hstem ▸ by decide
    rw [Env.get?_set_ne _ (by decide), hagrees _ hlater]
    rfl
  have hcall : (Term.call Names.toNative [.var "pos"] : Term L).eval ctx env₀ = .ok (.vec (List.ofFn q)) := hnative
  have hresult : (Term.call Names.velocityToCartesian [.var "velNative", .var "pos"] : Term L).eval ctx env₃ =
      .ok (.vec (List.ofFn w)) := by
    simp only [Term.eval, Term.evalAll, hpos, env₃, Env.get?_set_self]
    exact hvelocity
  refine Function.run_vector env₃ ?_
  rw [List.cons_append, Stmt.execAll, Stmt.exec, hcall]
  change Stmt.execAll ctx (declarations ++ _) env₁ = _
  rw [Stmt.execAll_append hexec, Stmt.execAll, Stmt.exec, hvector]
  change Stmt.execAll ctx [.result _] env₃ = _
  rw [Stmt.execAll_singleton, Stmt.exec, hresult]
  rfl

end Problem

end Code

section Modules

variable {K : Type} [Scalar K] {m : Module L} (literal : L → K) (globals : Env K)

omit [Literal L] in
theorem Shader.Module.Checked.plain_context (hm : m.Checked) (depth : Nat) :
    (m.context literal globals depth).Plain := by
  intro b
  have hname : ∃ b', Builtin.ofName? b.name = some b' := by
    cases b with
    | func f => exact ⟨_, Builtin.ofName?_func f⟩
    | _ => exact ⟨_, rfl⟩
  obtain ⟨b', hb'⟩ := hname
  exact if_neg (by rw [hm.defines_eq_false hb']; exact Bool.false_ne_true)

omit [Literal L] in
theorem Shader.Module.Checked.callAt_eq_run (hm : m.Checked) {f : Function L} (hf : f ∈ m.functions) (depth : Nat)
    (args : List (Value K)) :
    m.callAt literal globals (depth + 1) f.name args = f.run (m.context literal globals depth) args := by
  rw [Module.callAt, Module.function?_of_mem hm.functions.nodup hf]
  rfl

omit [Literal L] in
theorem Shader.Module.Checked.apply_eq_run (hm : m.Checked) {f : Function L} (hf : f ∈ m.functions) (depth : Nat)
    (args : List (Value K)) :
    (m.context literal globals (depth + 1)).apply f.name args = f.run (m.context literal globals depth) args := by
  have hdefines : m.defines f.name = true := List.any_eq_true.2 ⟨f, hf, beq_self_eq_true _⟩
  rw [Context.apply, Module.context]
  simp only [hdefines, if_true]
  exact hm.callAt_eq_run literal globals hf depth args

end Modules

/-- The formulas for Newton iteration and the generated function are the same field: where the primary chart
owns the position, the transform to native coordinates, the derivatives there and the symbolic inverse of the
Jacobian are defined, and its determinant is not zero, the formulas have the values that the function returns. -/
theorem Config.newtonVelocity_eq_getVelocity [LawfulBEq L] [Literal.Legible L] (literal : L → ℝ)
    (hfaithful : Literal.Faithful literal) (c : Config L) (p : Problem L) (out : Output L)
    (hvalidate : c.validate = .ok p) (hcompile : c.compile = .ok out) (hderived : c.newtonExpressions = none)
    (hcartesian : p.frame.isCartesian = false) (es : List (Expr L)) (hes : p.newtonVelocity = some es)
    (inv : Matrix.Inverse L) (hinv : p.frame.jacobian.inverse = .ok inv) (x : ℝ)
    (pos native velocity : Fin p.frame.dimensions → ℝ) (i : Nat) (chart : Chart L)
    (hselect : p.frame.atlas.select (.ofPoint literal p.frame.axes (List.ofFn pos)) = .ok i)
    (hchart : p.frame.atlas.charts[i]? = some chart) (hprimary : chart.kind = .primary)
    (hnative : List.Forall₂ (Expr.HasValue (.ofPoint literal p.frame.axes (List.ofFn pos))) p.frame.forward
      (List.ofFn native))
    (hvelocity : List.Forall₂ (Expr.HasValue (p.frame.nativeValuation literal pos native x)) p.derivatives
      (List.ofFn velocity))
    (hadjugate : ∀ e ∈ inv.adjugate.entries, ∃ y, e.HasValue (.ofPoint literal p.frame.axes (List.ofFn pos)) y)
    (d : ℝ) (hdeterminant : inv.determinant.HasValue (.ofPoint literal p.frame.axes (List.ofFn pos)) d) (hd : d ≠ 0) :
    ∃ (globals : Env ℝ) (w : Fin p.frame.dimensions → ℝ), out.module.globals literal = .ok globals ∧
      List.Forall₂ (fun e y => e.eval (p.frame.cartesianValuation literal pos x) = .ok y) es (List.ofFn w) ∧
      out.module.call literal (globals.set c.alphaName (.float x)) Names.getVelocity [.vec (List.ofFn pos)] =
        .ok (.vec (List.ofFn w)) := by
  have hp := (checked_of_validate hvalidate).1
  obtain ⟨-, -, -, -, hnewton, -⟩ := validate_eq_ok_iff.1 hvalidate
  rw [readNewtonExpressions_eq_ok_iff, hderived] at hnewton
  have hpos : 0 < p.frame.dimensions := Nat.lt_of_lt_of_le Nat.two_pos hp.frame.two_le
  obtain ⟨a, hrows⟩ := Matrix.exists_adjugate_jacobian_rows_eq hpos rfl hp.frame.length_axes hinv
  rw [Matrix.entries, hrows] at hadjugate
  choose A ha using fun i j => hadjugate (a i j) (Matrix.mem_flatten_grid.2 ⟨i, j, rfl⟩)
  obtain ⟨es', hes', hvalues⟩ := hp.newtonVelocity_hasValue hnative hfaithful hnewton hcartesian hinv hrows ha
    hdeterminant hd hvelocity
  obtain rfl := Option.some.inj (hes.symm.trans hes')
  obtain ⟨out', hout, hmodule⟩ := exists_compile_of_validate hvalidate
  obtain rfl := Except.ok.inj (hcompile.symm.trans hout)
  have hm := hmodule.checked
  obtain ⟨globals, hglobals, -⟩ := hm.exists_globals literal
  refine ⟨globals, _, hglobals, hvalues.imp fun _ _ h => h.eval, ?_⟩
  obtain ⟨toNative, hnativeMem, htoNative⟩ := hmodule.toNative
  obtain ⟨_, hvelocityMem, _, hvelocityEq⟩ := hmodule.velocityToCartesian
  obtain ⟨getVelocity, hgetMem, hget⟩ := hmodule.getVelocity
  obtain ⟨nativeBody, rfl⟩ := Frame.exists_of_toNative htoNative
  obtain ⟨getBody, rfl⟩ := Problem.exists_of_getVelocity hget
  obtain ⟨velocityBody, hvelocityToCartesian, hrun⟩ := hp.frame.exists_velocityToCartesian_multiplies
    (by simp [hcartesian]) hfaithful
  obtain ⟨rfl, -⟩ := Prod.mk.inj (Except.ok.inj (hvelocityEq.symm.trans hvelocityToCartesian))
  let globals' := globals.set c.alphaName (.float x)
  have hplain := hm.plain_context literal globals'
  -- The owner has the Jacobian of the frame, and takes it at the position itself.
  obtain ⟨i', chart', hselect', hchart', -, hmultiplies⟩ := hrun _ (hplain 63) rfl pos velocity
  obtain rfl := Except.ok.inj (hselect.symm.trans hselect')
  obtain rfl := Option.some.inj (hchart.symm.trans hchart')
  have hforward : chart.forward = p.frame.forward :=
    Atlas.forward_of_primary (hp.frame.atlas ▸ List.mem_of_getElem? hchart) hprimary
  rw [hforward, hprimary] at hmultiplies
  have hvelocityRun := hmultiplies inv a A d hinv hrows ha hdeterminant
  have hnativeRun := hp.frame.toNative_run (hplain 63) hfaithful hcartesian htoNative hnative
  exact (hm.callAt_eq_run literal globals' hgetMem 64 _).trans (hp.getVelocity_run hcartesian hget (hplain 64) hfaithful
    (exists_validate_iff.1 ⟨p, hvalidate⟩).free (Env.get?_set_self _ _ _)
    ((hm.apply_eq_run literal globals' hnativeMem 63 _).trans hnativeRun) hvelocity
    ((hm.apply_eq_run literal globals' hvelocityMem 63 _).trans hvelocityRun))

/-- At the point (2, 1) the name `y` stands for the hyperbola 2, and not for the Cartesian coordinate 1. -/
theorem Config.newtonVelocity_eq_getVelocity_shadowing :
    ∃ (out : Output Elementary) (es : List (Expr Elementary)) (globals : Env ℝ),
      shadowing.validate = .ok shadowingProblem ∧ shadowing.compile = .ok out ∧
      shadowingProblem.newtonVelocity = some es ∧ out.module.globals Elementary.toReal = .ok globals ∧
      List.Forall₂ (fun e y => e.eval (.ofPoint Elementary.toReal ["x", "y", "a"] [2, 1, 2]) = .ok y) es [2, 1] ∧
      out.module.call Elementary.toReal (globals.set "u_alpha" (.float 2)) "get_velocity" [.vec [2, 1]] =
        .ok (.vec [2, 1]) := by
  have hp := (checked_of_validate validate_shadowing).1
  obtain ⟨out, hout, -⟩ := exists_compile_of_validate validate_shadowing
  let chart : Chart Elementary := ⟨.atLeast (.var "x") (.var "y"), Frame.hyperbolicForward, .primary⟩
  let native : Fin 2 → ℝ := ![2 * 1, BiFunc.atan2.apply 1 2]
  have hnative : List.Forall₂ (Expr.HasValue (.ofPoint Elementary.toReal ["x", "y"] (List.ofFn ![2, 1])))
      Frame.hyperbolicForward (List.ofFn native) :=
    .cons (.op (.var rfl) (.var rfl) trivial) (.cons (.call₂ (.var rfl) (.var rfl)) .nil)
  have hvelocity : List.Forall₂ (Expr.HasValue (shadowingFrame.nativeValuation Elementary.toReal ![2, 1] native 2))
      shadowingProblem.derivatives (List.ofFn ![2 * (2 * 1), 2 - 2]) :=
    .cons (.op (.var rfl) (.var rfl) trivial) (.cons (.op (.var rfl) (.var rfl) trivial) .nil)
  obtain ⟨inv, a, hinv, hdeterminant, hrows, ha⟩ := (Frame.hasJacobian_hyperbolic (c := chart) rfl).exists_inverse
    Elementary.faithful_toReal hp.frame (hp.frame.charts_over chart List.mem_cons_self) Frame.det_hyperbolic
  have hadjugate : ∀ e ∈ inv.adjugate.entries, ∃ y,
      e.HasValue (.ofPoint Elementary.toReal ["x", "y"] (List.ofFn ![2, 1])) y := by
    intro e he
    rw [Matrix.entries, hrows] at he
    obtain ⟨i, j, rfl⟩ := Matrix.mem_flatten_grid.1 he
    exact ⟨_, ha i j⟩
  obtain ⟨es, hes, hvalues⟩ := hp.newtonVelocity_hasValue hnative Elementary.faithful_toReal rfl rfl hinv hrows ha
    hdeterminant Frame.det_hyperbolic hvelocity
  obtain ⟨globals, w, hglobals, heval, hcall⟩ := newtonVelocity_eq_getVelocity Elementary.toReal
    Elementary.faithful_toReal shadowing shadowingProblem out validate_shadowing hout rfl rfl es hes inv hinv 2 ![2, 1]
    native ![2 * (2 * 1), 2 - 2] 0 chart Frame.select_hyperbolic rfl rfl hnative hvelocity hadjugate _ hdeterminant
    Frame.det_hyperbolic
  have hunique : Relator.RightUnique fun (e : Expr Elementary) (y : ℝ) =>
      e.eval (shadowingFrame.cartesianValuation Elementary.toReal ![2, 1] 2) = .ok y :=
    fun _ _ _ h h' => Except.ok.inj (h.symm.trans h')
  have hvalue : (![2 * (2 * 1), 2 - 2] : Fin 2 → ℝ) = ![4, 0] := by norm_num
  have hw : List.ofFn w = [2, 1] := (hunique.forall₂ heval (hvalues.imp fun _ _ h => h.eval)).trans
    (Frame.ofFn_of_mulVec_hyperbolic ((Frame.mulVec_adjugate Frame.det_hyperbolic _).trans hvalue))
  exact ⟨out, es, globals, validate_shadowing, hout, hes, hglobals, hw ▸ heval,
    hcall.trans (congrArg (fun ys => Except.ok (Value.vec ys)) hw)⟩

end FlowShader
