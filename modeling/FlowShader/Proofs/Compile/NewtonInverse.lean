import FlowShader.Proofs.Compile.PresetInverse
import FlowShader.Proofs.Shader.Globals
import FlowShader.Proofs.Shader.Inversion
import FlowShader.Proofs.Shader.Scoping

namespace FlowShader

open Shader (Term Stmt Ty Types Scope Function Module Env Value Context Builtin IsFirst)
open Shader.Value (ofMatrix mulVec)
open Coordinates (Frame Record Solver)
open Lowering (Untouched)

variable {L K : Type} [Scalar K] {n : Nat}

section Iteration

def residual (F : (Fin n → K) → Fin n → K) (target guess : Fin n → K) : Fin n → K :=
  fun i => F guess i - target i

def IsClose (F : (Fin n → K) → Fin n → K) (tolerance : K) (target guess : Fin n → K) : Prop :=
  Scalar.lt (Value.norm (List.ofFn (residual F target guess))) tolerance = true

/-- A step of Newton iteration for a map with its Jacobian, where matrices are inverted in some way. -/
def newtonStep (F : (Fin n → K) → Fin n → K) (J : (Fin n → K) → Fin n → Fin n → K)
    (I : (Fin n → Fin n → K) → Fin n → Fin n → K) (target guess : Fin n → K) : Fin n → K :=
  fun i => guess i - mulVec (I (J guess)) (residual F target guess) i

end Iteration

section Calls

omit [Scalar K] in
theorem Shader.Value.Fits.exists_vec {v : Value K} (h : v.Fits (.vec n)) : ∃ u : Fin n → K, v = .vec (List.ofFn u) := by
  cases h with
  | @vec xs _ hlength =>
      subst hlength
      exact ⟨xs.get, congrArg Value.vec (List.ofFn_get xs).symm⟩

omit [Scalar K] in
theorem Shader.Value.Fits.exists_matrix {v : Value K} (h : v.Fits (.mat n)) : ∃ a : Fin n → Fin n → K, v = ofMatrix a := by
  cases h with
  | mat hlength =>
      obtain ⟨a, rfl⟩ := Value.exists_columns_eq hlength
      exact ⟨a, rfl⟩

variable {m : Module L} (literal : L → K) {globals : Env K}

theorem Shader.Module.Checked.serves_nil (hm : m.Checked) (depth : Nat) :
    (m.context literal globals depth).Serves [] :=
  ⟨fun _ _ hb => if_neg (by rw [hm.defines_eq_false hb]; exact Bool.false_ne_true), nofun⟩

theorem Shader.Module.Checked.exists_map (hm : m.Checked) (hglobals : globals.Matches m.types)
    (hlength : m.functions.length < Module.maxDepth) {f : Function L} (hf : f ∈ m.functions) {α β : Type}
    (argument : α → Value K) (result : β → Value K) {τ : Ty} (hparams : f.signature.params = [τ])
    (hargument : ∀ a, (argument a).Fits τ) (hresult : ∀ v : Value K, v.Fits f.ret → ∃ b, v = result b) :
    ∃ map : α → β, ∀ a, m.call literal globals f.name [argument a] = .ok (result (map a)) ∧
      (m.context literal globals 64).apply f.name [argument a] = .ok (result (map a)) := by
  have htotal (a : α) : ∃ b, m.callAt literal globals 64 f.name [argument a] = .ok (result b) := by
    have hargs : List.Forall₂ Value.Fits [argument a] f.signature.params := hparams ▸ .cons (hargument a) .nil
    obtain ⟨v, hv, hfits⟩ :=
      hm.callAt hglobals hm.functions (fun _ hf => hf) (Nat.le_of_lt_succ hlength) f hf [argument a] hargs
    obtain ⟨b, rfl⟩ := hresult v hfits
    exact ⟨b, hv⟩
  choose map hmap using htotal
  exact ⟨map, fun a => ⟨hm.callAt_succ (hmap a), (Module.context_apply_of_callAt literal globals (hmap a)).trans (hmap a)⟩⟩

theorem Shader.Context.Serves.follows {ctx : Context L K} (h : ctx.Serves []) :
    Context.Follows ⟨ctx.literal, [], fun _ => none⟩ ctx.withoutGlobals := by
  refine ⟨rfl, rfl, fun name args v hv => ?_⟩
  unfold Context.apply at hv ⊢
  cases hb : Builtin.ofName? name with
  | none =>
      rw [hb] at hv
      cases hv
  | some b =>
      rw [hb] at hv
      have hcall : ctx.withoutGlobals.call? name = none := h.builtin name b hb
      rw [hcall]
      exact hv

end Calls

namespace Coordinates.Frame

section Rounds

def GivesAtGuess (literal : L → K) (declarations : List (Stmt L)) (jacobian : Term L)
    (J : (Fin n → K) → Fin n → Fin n → K) : Prop :=
  ∀ (ctx : Context L K) (env : Env K) (g : Fin n → K), ctx.Serves [] → ctx.literal = literal →
    env.get? "guess" = some (.vec (List.ofFn g)) →
    ∃ env', Stmt.execAll ctx declarations env = .ok (env', .next) ∧ jacobian.eval ctx env' = .ok (ofMatrix (J g)) ∧
      ∀ name, Names.isNumbered Names.temporaryStem name = false → env'.get? name = env.get? name

def roundCode (n : Nat) (tolerance : L) (declarations : List (Stmt L)) (jacobian : Term L) : List (Stmt L) :=
  .declare (.vec n) "residual" (.call Names.toNative [.var "guess"] - .var "native") ::
  .branch (.lt (.call "length" [.var "residual"]) (.float tolerance)) [.leave] [] ::
  (declarations ++ [.declare (.mat n) "jac" jacobian,
    .assign (.var "guess") (.var "guess" - .call (Shader.Inverse.functionName n) [.var "jac"] * .var "residual")])

structure AtGuess (target g : Fin n → K) (env : Env K) : Prop where
  guess : env.get? "guess" = some (.vec (List.ofFn g))
  native : env.get? "native" = some (.vec (List.ofFn target))

structure WithResidual (F : (Fin n → K) → Fin n → K) (target g : Fin n → K) (env : Env K) : Prop
    extends AtGuess target g env where
  residual : env.get? "residual" = some (.vec (List.ofFn (residual F target g)))

variable {ctx : Context L K} {F : (Fin n → K) → Fin n → K} {J : (Fin n → K) → Fin n → Fin n → K}
  {I : (Fin n → Fin n → K) → Fin n → Fin n → K} {target g : Fin n → K} {env : Env K} {tolerance : L}
  {declarations : List (Stmt L)} {jacobian : Term L}

omit [Scalar K] in
theorem AtGuess.set (h : AtGuess target g env) {name : String} (hguess : name ≠ "guess") (hnative : name ≠ "native")
    (v : Value K) : AtGuess target g (env.set name v) := by
  refine ⟨?_, ?_⟩
  · rw [Env.get?_set, if_neg hguess]
    exact h.guess
  · rw [Env.get?_set, if_neg hnative]
    exact h.native

/-- The context of the iteration: the builtins, the transform to native coordinates and the inverting function. -/
structure Supports (ctx : Context L K) (F : (Fin n → K) → Fin n → K) (I : (Fin n → Fin n → K) → Fin n → Fin n → K) :
    Prop where
  serves : ctx.Serves []
  toNative (g : Fin n → K) : ctx.apply Names.toNative [.vec (List.ofFn g)] = .ok (.vec (List.ofFn (F g)))
  inverse (a : Fin n → Fin n → K) : ctx.apply (Shader.Inverse.functionName n) [ofMatrix a] = .ok (ofMatrix (I a))

variable (h : Supports ctx F I)
include h

theorem Supports.takes_residual : Stmt.Takes ctx (AtGuess target g)
    [.declare (.vec n) "residual" (.call Names.toNative [.var "guess"] - .var "native")] (WithResidual F target g) := by
  refine .declare fun env henv => ?_
  have hcall : (Term.call Names.toNative [.var "guess"]).eval ctx env = .ok (.vec (List.ofFn (F g))) :=
    (Term.eval_call (Term.eval_var henv.guess)).trans (h.toNative g)
  have hresidual := (Term.eval_binary_of .sub hcall (Term.eval_var henv.native)).trans (Value.zip_vec _ _ _ _)
  refine ⟨_, hresidual, henv.set (by decide) (by decide) _, ?_⟩
  rw [Env.get?_set, if_pos rfl]
  rfl

theorem Supports.eval_test (henv : WithResidual F target g env) :
    (Term.lt (.call "length" [.var "residual"]) (.float tolerance)).eval ctx env =
      .ok (.bool (Scalar.lt (Value.norm (List.ofFn (residual F target g))) (ctx.literal tolerance))) := by
  have hlength : ctx.apply "length" [.vec (List.ofFn (residual F target g))] =
      .ok (.float (Value.norm (List.ofFn (residual F target g)))) := by
    rw [Context.apply, h.serves.builtin "length" (.func .length) rfl]
    rfl
  have htolerance : (Term.float tolerance).eval ctx env = .ok (.float (ctx.literal tolerance)) := rfl
  exact Term.eval_binary_of .lt ((Term.eval_call (Term.eval_var henv.residual)).trans hlength) htolerance

theorem Supports.round_leaves (hclose : IsClose F (ctx.literal tolerance) target g) (henv : AtGuess target g env) :
    ∃ env', Stmt.execAll ctx (roundCode n tolerance declarations jacobian) env = .ok (env', .leave) ∧
      AtGuess target g env' := by
  obtain ⟨env₁, hexec, henv₁⟩ := h.takes_residual env henv
  refine ⟨env₁, ?_, henv₁.toAtGuess⟩
  have hcond : (Term.lt (.call "length" [.var "residual"]) (.float tolerance)).eval ctx env₁ = .ok (.bool true) :=
    hclose ▸ h.eval_test henv₁
  have hbranch : (Stmt.branch (.lt (.call "length" [.var "residual"]) (.float tolerance)) [.leave] []).exec ctx env₁ =
      .ok (env₁, .leave) := bind_eq_ok_of hcond (bind_eq_ok_of (a := true) rfl rfl)
  exact Stmt.execAll_leave hexec hbranch

theorem Supports.round_steps (hgives : GivesAtGuess ctx.literal declarations jacobian J)
    (hclose : ¬ IsClose F (ctx.literal tolerance) target g) :
    Stmt.Takes ctx (AtGuess target g) (roundCode n tolerance declarations jacobian)
      (AtGuess target (newtonStep F J I target g)) := by
  have hbranch : Stmt.Takes ctx (WithResidual F target g)
      [.branch (.lt (.call "length" [.var "residual"]) (.float tolerance)) [.leave] []] (WithResidual F target g) :=
    .branch false (fun env henv => Bool.eq_false_iff.2 hclose ▸ h.eval_test henv) .nil
  have hjacobian : Stmt.Takes ctx (WithResidual F target g) declarations
      fun env => WithResidual F target g env ∧ jacobian.eval ctx env = .ok (ofMatrix (J g)) := by
    intro env henv
    obtain ⟨env', hexec, hvalue, hkept⟩ := hgives ctx env g h.serves rfl henv.guess
    refine ⟨env', hexec, ⟨⟨?_, ?_⟩, ?_⟩, hvalue⟩
    · exact (hkept "guess" (by decide)).trans henv.guess
    · exact (hkept "native" (by decide)).trans henv.native
    · exact (hkept "residual" (by decide)).trans henv.residual
  have hdeclare : Stmt.Takes ctx (fun env => WithResidual F target g env ∧ jacobian.eval ctx env = .ok (ofMatrix (J g)))
      [.declare (.mat n) "jac" jacobian]
      fun env => WithResidual F target g env ∧ env.get? "jac" = some (ofMatrix (J g)) := by
    refine .declare fun env ⟨henv, hvalue⟩ => ⟨_, hvalue, ⟨henv.set (by decide) (by decide) _, ?_⟩, ?_⟩
    · rw [Env.get?_set, if_neg (by decide)]
      exact henv.residual
    · rw [Env.get?_set, if_pos rfl]
  refine h.takes_residual.cons (hbranch.cons (hjacobian.append (hdeclare.cons (.assign fun env ⟨henv, hjac⟩ => ?_))))
  have hinverse := (Term.eval_call (Term.eval_var hjac)).trans (h.inverse (J g))
  have hproduct := (Term.eval_binary_of .mul hinverse (Term.eval_var henv.residual)).trans
    (Value.mul_ofMatrix_vec _ _)
  have hdifference := (Term.eval_binary_of .sub (Term.eval_var henv.guess) hproduct).trans
    (Value.zip_vec _ _ _ _)
  refine ⟨_, _, henv.guess, hdifference, ?_, ?_⟩
  · rw [Env.get?_set, if_pos rfl]
    rfl
  · rw [Env.get?_set, if_neg (by decide)]
    exact henv.native

theorem Supports.exists_iterate (hgives : GivesAtGuess ctx.literal declarations jacobian J) (maxIterations : Nat) :
    ∃ k, IsFirst (fun i => IsClose F (ctx.literal tolerance) target ((newtonStep F J I target)^[i] g)) maxIterations k ∧
      Stmt.Takes ctx (AtGuess target g) [.loop maxIterations (roundCode n tolerance declarations jacobian)]
        (AtGuess target ((newtonStep F J I target)^[k] g)) := by
  have hleaves : ∀ g, IsClose F (ctx.literal tolerance) target g → ∀ env, AtGuess target g env →
      ∃ env', Stmt.execAll ctx (roundCode n tolerance declarations jacobian) env = .ok (env', .leave) ∧
        AtGuess target g env' := fun _ hclose _ henv => h.round_leaves hclose henv
  exact Stmt.Takes.iterate_until hleaves (fun _ hclose => h.round_steps hgives hclose) maxIterations g

def iterationCode (n : Nat) (solver : Solver L) (declarations : List (Stmt L)) (jacobian : Term L) : List (Stmt L) :=
  [.comment "Newton iteration on transformToNative(guess) = native", .declare (.vec n) "guess" (.var "native"),
    .loop solver.maxIterations (roundCode n solver.tolerance declarations jacobian), .result (.var "guess")]

theorem Supports.exists_run (hgives : GivesAtGuess ctx.literal declarations jacobian J) (solver : Solver L)
    (name : String) (target : Fin n → K) :
    ∃ k, IsFirst (fun i => IsClose F (ctx.literal solver.tolerance) target ((newtonStep F J I target)^[i] target))
        solver.maxIterations k ∧
      (⟨name, [(.vec n, "native")], .vec n, iterationCode n solver declarations jacobian⟩ : Function L).run ctx
        [.vec (List.ofFn target)] = .ok (.vec (List.ofFn ((newtonStep F J I target)^[k] target))) := by
  obtain ⟨k, hfirst, hloop⟩ := h.exists_iterate hgives solver.maxIterations
  refine ⟨k, hfirst, ?_⟩
  have hcomment (text : String) : Stmt.Takes ctx (· = [("native", .vec (List.ofFn target))]) [.comment text]
      (· = [("native", .vec (List.ofFn target))]) := .single fun env henv => ⟨env, rfl, henv⟩
  have hguess : Stmt.Takes ctx (· = [("native", .vec (List.ofFn target))]) [.declare (.vec n) "guess" (.var "native")]
      (AtGuess target target) := by
    refine .declare fun env henv => ⟨.vec (List.ofFn target), Term.eval_var (henv ▸ rfl), ?_⟩
    rw [henv]
    exact ⟨rfl, rfl⟩
  obtain ⟨env', hexec, henv'⟩ := (hcomment _).cons (hguess.cons hloop) _ rfl
  exact Function.run_vector env' (Stmt.execAll_result hexec (Term.eval_var henv'.guess))

end Rounds

end Coordinates.Frame

variable [Literal L]

namespace Coordinates.Frame

section Jacobian

theorem toCartesian_eq_of_newton {s : Frame L} (hstrategy : s.strategy = .newton) {declarations : List (Stmt L)}
    {jacobian : Term L} (hlower : lowerMatrix (onComponents s.axes "guess") s.jacobian = .ok (declarations, jacobian))
    (solver : Solver L) : s.toCartesian solver = .ok ⟨Names.toCartesian, [(.vec s.dimensions, "native")],
      .vec s.dimensions, iterationCode s.dimensions solver declarations jacobian⟩ := by
  have hbody : s.newtonInverse solver = .ok (iterationCode s.dimensions solver declarations jacobian) :=
    bind_eq_ok_of hlower rfl
  unfold toCartesian
  simp only [hstrategy]
  exact bind_eq_ok_of hbody rfl

def jacobianFunction (s : Frame L) : Except UnknownIdentifier (Function L) := do
  let (declarations, jacobian) ← lowerMatrix (onComponents s.axes "guess") s.jacobian
  return ⟨"jacobian", [(.vec s.dimensions, "guess")], .mat s.dimensions, declarations ++ [.result jacobian]⟩

/-- The values of the Jacobian. They are what its lowered formulas compute at the guess and nothing else, and what
the formulas themselves mean there, row by row, if their texts tell them apart. -/
structure IsJacobian (s : Frame L) (literal : L → K)
    (J : (Fin s.dimensions → K) → Fin s.dimensions → Fin s.dimensions → K) : Prop where
  code : ∃ f, s.jacobianFunction = .ok f ∧
    ∀ g, f.run ⟨literal, [], fun _ => none⟩ [.vec (List.ofFn g)] = .ok (ofMatrix (J g))
  meaning : Literal.Interprets literal → (∀ row ∈ s.jacobian.rows, ∀ e ∈ row, e.Legible) →
    ∃ e : Fin s.dimensions → Fin s.dimensions → Expr L, s.jacobian.rows = Matrix.grid e ∧
      ∀ g i j, (e i j).meaning true (.ofPoint literal s.axes (List.ofFn g)) = .ok (J g i j)

variable {s : Frame L} (hs : s.Checked)
include hs

theorem Checked.exists_lowered : ∃ declarations jacobian,
    lowerMatrix (onComponents s.axes "guess") s.jacobian = .ok (declarations, jacobian) ∧
    ∀ (S : Scope) (Γ : Types), Γ.lookup "guess" = some (.vec s.dimensions) → Untouched Γ →
      ∃ Γ', Stmt.checkAll S false Γ declarations = some Γ' ∧
        jacobian.ty? S.functions Γ' = some (.mat s.dimensions) := by
  let Γ₀ : Types := [("guess", .vec s.dimensions)]
  have huntouched : Untouched Γ₀ := Untouched.cons (fun _ _ => rfl) (by decide) _
  obtain ⟨declarations, jacobian, _, hlower, -⟩ :=
    jacobian_gives (S := ⟨[], [], .float⟩) (Γ := Γ₀) hs "guess" false rfl huntouched
  refine ⟨declarations, jacobian, hlower, fun S Γ hguess huntouched => ?_⟩
  obtain ⟨_, _, Γ', hlower', hcheck, -, ht⟩ := jacobian_gives (S := S) hs "guess" false hguess huntouched
  obtain ⟨rfl, rfl⟩ := Prod.mk.inj (Except.ok.inj (hlower.symm.trans hlower'))
  exact ⟨Γ', hcheck, ht⟩

theorem Checked.exists_givesAtGuess (literal : L → K) : ∃ declarations jacobian J,
    lowerMatrix (onComponents s.axes "guess") s.jacobian = .ok (declarations, jacobian) ∧
    GivesAtGuess (n := s.dimensions) literal declarations jacobian J := by
  obtain ⟨declarations, jacobian, hlower, hchecks⟩ := hs.exists_lowered
  let bare : Context L K := ⟨literal, [], fun _ => none⟩
  let Γ₀ : Types := [("guess", .vec s.dimensions)]
  have hserves : bare.Serves [] := ⟨fun _ _ _ => rfl, nofun⟩
  have huntouched : Untouched Γ₀ := Untouched.cons (fun _ _ => rfl) (by decide) _
  obtain ⟨Γ₁, hcheck, ht⟩ := hchecks ⟨[], [], .float⟩ Γ₀ rfl huntouched
  obtain ⟨Γ₂, hcheck', -⟩ := hchecks ⟨[], [], .bool⟩ Γ₀ rfl huntouched
  have halone (g : Fin s.dimensions → K) : ∃ a env₁,
      Stmt.execAll bare declarations [("guess", .vec (List.ofFn g))] = .ok (env₁, .next) ∧
      jacobian.eval bare env₁ = .ok (ofMatrix (n := s.dimensions) a) := by
    have hprovides : Env.Provides bare.globals [("guess", Value.vec (List.ofFn g))] Γ₀ :=
      Env.provides_singleton (.vec List.length_ofFn)
    obtain ⟨env₁, hrun, hprovides₁⟩ := Stmt.execAll_next hserves (fun _ _ => rfl) hprovides hcheck
      (Option.isSome_iff_exists.2 ⟨Γ₂, hcheck'⟩) (by decide)
    obtain ⟨v, hv, hfits⟩ := Term.eval_fits hserves hprovides₁ jacobian _ ht
    obtain ⟨a, rfl⟩ := hfits.exists_matrix
    exact ⟨a, env₁, hrun, hv⟩
  choose J env₁ hrun hvalue using halone
  refine ⟨declarations, jacobian, J, hlower, fun ctx env g hctx hliteral hguess => ?_⟩
  obtain rfl := hliteral
  have hagree : Env.AgreeOn Γ₀ [("guess", .vec (List.ofFn g))] env := Env.agreeOn_singleton hguess
  obtain ⟨env', hrun', halike⟩ := Stmt.execAll_agree (hctx.follows) declarations false Γ₀ Γ₁ _ env (env₁ g)
    .next hcheck hagree (hrun g)
  have hvalue' := Term.eval_agree (hctx.follows) halike jacobian _ _ ht (hvalue g)
  have hrun' := Stmt.execAll_mono declarations env _ hrun'
  refine ⟨env', hrun', Term.eval_mono (ctx.withoutGlobals_widens env') jacobian _ hvalue', fun name hname => ?_⟩
  -- Were the name a global one, the code would still be in order, so it never writes there.
  obtain ⟨Γ', hcheck', -⟩ := hchecks ⟨[], [(name, .float)], .float⟩ (("guess", .vec s.dimensions) :: [(name, .float)])
    rfl (Untouched.cons (Untouched.cons (fun _ _ => rfl) hname _) (by decide) _)
  refine Stmt.execAll_keeps ?_ declarations false _ Γ' env env' .next hcheck' ?_ hrun'
  · simp
  · rw [List.lookup_cons]
    split <;> simp

theorem Checked.isJacobian [Literal.Legible L] {literal : L → K} {declarations : List (Stmt L)} {jacobian : Term L}
    {J : (Fin s.dimensions → K) → Fin s.dimensions → Fin s.dimensions → K}
    (hlower : lowerMatrix (onComponents s.axes "guess") s.jacobian = .ok (declarations, jacobian))
    (hgives : GivesAtGuess literal declarations jacobian J) : s.IsJacobian literal J := by
  let bare : Context L K := ⟨literal, [], fun _ => none⟩
  have hserves : bare.Serves [] := ⟨fun _ _ _ => rfl, nofun⟩
  refine ⟨⟨_, bind_eq_ok_of hlower rfl, fun g => ?_⟩, fun hinterprets hlegible => ?_⟩
  · obtain ⟨env', hexec, hvalue, -⟩ := hgives bare [("guess", .vec (List.ofFn g))] g hserves rfl rfl
    exact Function.run_vector env' (Stmt.execAll_result hexec hvalue)
  have hpos : 0 < s.dimensions := Nat.lt_of_lt_of_le Nat.two_pos hs.two_le
  obtain ⟨e, hrows⟩ := Matrix.exists_jacobian_rows_eq hpos (rfl : s.forward.length = s.dimensions) hs.length_axes
  have hjacobian : s.jacobian = ⟨Matrix.grid e⟩ := congrArg Matrix.mk hrows
  refine ⟨e, hrows, fun g => ?_⟩
  obtain ⟨env', hexec, hvalue, -⟩ := hgives bare [("guess", .vec (List.ofFn g))] g hserves rfl rfl
  have hreads : (onComponents s.axes "guess").Reads bare [("guess", .vec (List.ofFn g))]
      (.ofPoint literal s.axes (List.ofFn g)) :=
    Lowering.reads_bindVector rfl (fun _ => rfl) hinterprets rfl (nodup_axes _)
      (hs.length_axes.trans List.length_ofFn.symm) fun stem hstem => by
        obtain rfl : Names.temporaryStem = stem := Option.some.inj hstem
        decide
  have hentry {a : Expr L} (ha : a ∈ s.jacobian.columnEntries) : a.Legible ∧ a.Over s.axes := by
    obtain ⟨row, hrow, ha⟩ := Matrix.mem_of_mem_columnEntries ha
    exact ⟨hlegible row hrow a ha, Matrix.jacobian_over hs.forward row hrow a ha⟩
  obtain ⟨_, ts, env₁, xs, hlower', hexec', -, hxs, hts⟩ :=
    Lowering.lowerAll_values hreads s.jacobian.entries (fun _ ha => (hentry ha).1) (fun _ ha => (hentry ha).2)
      fun v hv => Bindings.isSome_get?_bindVector {} "guess" (.inl hv)
  obtain ⟨rfl, rfl⟩ := Prod.mk.inj (Except.ok.inj (hlower.symm.trans (bind_eq_ok_of hlower' rfl)))
  obtain ⟨rfl, -⟩ := Prod.mk.inj (Except.ok.inj (hexec.symm.trans hexec'))
  rw [hjacobian, Matrix.columnEntries_grid] at hxs
  obtain ⟨a, rfl⟩ := Value.exists_columns_eq (hxs.length_eq.symm.trans List.length_ofFn)
  have hheight : s.jacobian.height = s.dimensions := by rw [hjacobian, Matrix.height_grid]
  have hmatrix := bind_eq_ok_of hts (Value.construct_mat hs.two_le a)
  rw [hheight] at hvalue
  obtain rfl : J g = a := Value.ofMatrix_injective (Except.ok.inj (hvalue.symm.trans hmatrix))
  intro i j
  have hij := Matrix.forall₂_ofFn.1 hxs (Fin.mkDivMod j i)
  rwa [Fin.modNat_mkDivMod, Fin.divNat_mkDivMod] at hij

theorem Checked.jacobian_legible [LawfulBEq L] (hfinite : ∀ x : L, Literal.isFinite x = true) :
    ∀ row ∈ s.jacobian.rows, ∀ e ∈ row, e.Legible := by
  intro row hrow e he
  have hover : e.Over s.axes := Matrix.jacobian_over hs.forward row hrow e he
  exact hover.legible hfinite isIdentifier_of_mem_axes

end Jacobian

/-- A module in order that holds the transforms of a frame and the inverting function. -/
structure HostedBy (s : Frame L) (solver : Solver L) (m : Module L) : Prop where
  checked : m.Checked
  length_lt : m.functions.length < Module.maxDepth
  inverse : ∃ f ∈ m.functions, Shader.Inverse.function s.dimensions = .ok f
  toNative : ∃ f ∈ m.functions, s.toNative = .ok f
  toCartesian : ∃ f ∈ m.functions, s.toCartesian solver = .ok f

/-- Where there is no inverse but iteration, the transform to Cartesian coordinates returns the first Newton iterate that
is close to the target, or the last one. The iterates start with the target, and take the transform to native
coordinates and the inverting function as the module has them. -/
theorem toCartesian_iterates [Literal.Legible L] (literal : L → K) (r : Record) (s : Frame L)
    (hrecord : ofRecord r = .ok s) (hstrategy : s.strategy = .newton) (solver : Solver L) (m : Module L)
    (hm : s.HostedBy solver m) (globals : Env K) (hglobals : globals.Matches m.types) :
    ∃ F J I, s.IsJacobian literal J ∧
      (∀ g, m.call literal globals Names.toNative [.vec (List.ofFn g)] = .ok (.vec (List.ofFn (F g)))) ∧
      (∀ a, m.call literal globals (Shader.Inverse.functionName s.dimensions) [ofMatrix a] = .ok (ofMatrix (I a))) ∧
      ∀ target, ∃ k,
        IsFirst (fun i => IsClose F (literal solver.tolerance) target ((newtonStep F J I target)^[i] target))
          solver.maxIterations k ∧
        m.call literal globals Names.toCartesian [.vec (List.ofFn target)] =
          .ok (.vec (List.ofFn ((newtonStep F J I target)^[k] target))) := by
  have hs := checked_of_ofRecord hrecord
  obtain ⟨_, hnativeMem, hnative⟩ := hm.toNative
  obtain ⟨_, rfl⟩ := exists_of_toNative hnative
  obtain ⟨F, hF⟩ := hm.checked.exists_map literal hglobals hm.length_lt hnativeMem
    (fun g : Fin s.dimensions → K => .vec (List.ofFn g)) (fun g => .vec (List.ofFn g)) rfl
    (fun _ => .vec List.length_ofFn) fun _ => Value.Fits.exists_vec
  obtain ⟨_, hinverseMem, hinverse⟩ := hm.inverse
  obtain ⟨_, rfl⟩ := Shader.Inverse.exists_of_function hs.two_le hs.le_four hinverse
  obtain ⟨I, hI⟩ := hm.checked.exists_map literal hglobals hm.length_lt hinverseMem
    (fun a : Fin s.dimensions → Fin s.dimensions → K => ofMatrix a) ofMatrix rfl
    (fun _ => .mat List.length_ofFn) fun _ => Value.Fits.exists_matrix
  obtain ⟨declarations, jacobian, J, hlower, hgives⟩ := hs.exists_givesAtGuess literal
  have hsupports : Supports (m.context literal globals 64) F I :=
    ⟨hm.checked.serves_nil literal 64, fun g => (hF g).2, fun a => (hI a).2⟩
  refine ⟨F, J, I, hs.isJacobian hlower hgives, fun g => (hF g).1, fun a => (hI a).1, fun target => ?_⟩
  obtain ⟨k, hfirst, hrun⟩ := hsupports.exists_run hgives solver Names.toCartesian target
  obtain ⟨_, hmem, htoCartesian⟩ := hm.toCartesian
  obtain rfl := Except.ok.inj (htoCartesian.symm.trans (toCartesian_eq_of_newton hstrategy hlower solver))
  exact ⟨k, hfirst, (hm.checked.callAt_eq_run literal globals hmem 64 _).trans hrun⟩

end Coordinates.Frame

namespace Config

theorem exists_hostedBy {c : Config L} {p : Problem L} (h : c.validate = .ok p) (hstrategy : p.frame.strategy = .newton) :
    ∃ out, c.compile = .ok out ∧ p.frame.HostedBy c.solver out.module := by
  obtain ⟨jacobian, _, _, _, out, hout, hassembled⟩ := exists_assembled_of_validate h
  have hcompiles := hassembled.compiles (exists_validate_iff.1 ⟨p, h⟩).free
  have hinverts : p.inverts jacobian = true := by simp [Problem.inverts, hstrategy]
  obtain ⟨f, hf, hfunction, -⟩ := hassembled.inverter hinverts
  have hmem : f ∈ out.module.functions := by
    rw [hassembled.functions]
    simp [hf]
  have hlength : out.module.functions.length < Module.maxDepth := hcompiles.length_le.trans_lt (by decide)
  exact ⟨out, hout, hcompiles.checked, hlength, ⟨f, hmem, hfunction⟩, hcompiles.toNative, hcompiles.toCartesian⟩

section Sheared

def shearedRecord : Record := ⟨"sheared", 2, [⟨"u", ""⟩, ⟨"v", ""⟩], ["x + exp(y)", "y"], none, true⟩

def shearedForward : List (Expr L) := [.op .add (.var "x") (.call .exp (.var "y")), .var "y"]

def shearedFrame : Frame L :=
  ⟨"sheared", [⟨"u", "u"⟩, ⟨"v", "v"⟩], shearedForward, none, true, .generate ["x", "y"] shearedForward⟩

theorem ofRecord_sheared : Frame.ofRecord shearedRecord = .ok (shearedFrame (L := L)) := by
  have hlabels : Frame.checkLabels [] ["u", "v"] = .ok () := rfl
  have hread : Frame.readFormulas .forward (Names.axes 2) shearedRecord.forward = .ok (shearedForward (L := L)) := by cbv
  unfold Frame.ofRecord
  simp only [shearedRecord, Frame.checkCount, List.map, List.length, hlabels]
  change (Frame.readFormulas .forward (Names.axes 2) shearedRecord.forward >>= _) = _
  exact bind_eq_ok_of hread rfl

def sheared : Config L := { ofDerivatives 2 ["u", "v"] with frame := some (.record shearedRecord) }

def shearedProblem : Problem L := ⟨shearedFrame, [.var "u", .var "v"], none, none⟩

theorem readDerivatives_sheared : (sheared (L := L)).readDerivatives ["u", "v"] = .ok shearedProblem.derivatives := by cbv

theorem validate_sheared : (sheared (L := Elementary)).validate = .ok shearedProblem := by
  refine validate_eq_ok_iff.2 ⟨(by decide : 2 ≤ 2 ∧ 2 ≤ 4), ?_, ?_, readDerivatives_sheared, rfl, rfl⟩
  · exact settingErrors_eq_nil_of_defaults rfl rfl rfl rfl
  · exact readFrame_eq_ok_iff.2 ⟨ofRecord_sheared, rfl⟩

/-- The way back from the coordinates 1 and 2, in at most ten rounds. -/
theorem toCartesian_iterates_sheared :
    ∃ (out : Output Elementary) (globals : Env ℝ) (F : (Fin 2 → ℝ) → Fin 2 → ℝ) (J : (Fin 2 → ℝ) → Fin 2 → Fin 2 → ℝ)
      (I : (Fin 2 → Fin 2 → ℝ) → Fin 2 → Fin 2 → ℝ) (e : Fin 2 → Fin 2 → Expr Elementary) (k : Nat),
      sheared.compile = .ok out ∧ out.module.globals Elementary.toReal = .ok globals ∧
      (∀ g, out.module.call Elementary.toReal globals Names.toNative [.vec (List.ofFn g)] =
        .ok (.vec (List.ofFn (F g)))) ∧
      (∀ a, out.module.call Elementary.toReal globals (Shader.Inverse.functionName 2) [ofMatrix a] =
        .ok (ofMatrix (I a))) ∧
      (shearedFrame (L := Elementary)).jacobian.rows = Matrix.grid e ∧
      (∀ g i j, (e i j).meaning true (.ofPoint Elementary.toReal ["x", "y"] (List.ofFn g)) = .ok (J g i j)) ∧
      IsFirst (fun i => IsClose F (Elementary.toReal Solver.standard.tolerance) ![1, 2]
        ((newtonStep F J I ![1, 2])^[i] ![1, 2])) 10 k ∧
      out.module.call Elementary.toReal globals Names.toCartesian [.vec [1, 2]] =
        .ok (.vec (List.ofFn ((newtonStep F J I ![1, 2])^[k] ![1, 2]))) := by
  obtain ⟨out, hout, hhosted⟩ := exists_hostedBy validate_sheared rfl
  obtain ⟨globals, hglobals, hmatches⟩ := hhosted.checked.exists_globals Elementary.toReal
  obtain ⟨F, J, I, hJ, hF, hI, hcalls⟩ := Frame.toCartesian_iterates Elementary.toReal shearedRecord shearedFrame
    ofRecord_sheared rfl _ out.module hhosted globals hmatches
  have hlegible := (Frame.checked_of_ofRecord ofRecord_sheared).jacobian_legible Elementary.faithful_toReal.finite
  obtain ⟨e, hrows, he⟩ := hJ.meaning Elementary.faithful_toReal.interprets hlegible
  obtain ⟨k, hfirst, hcall⟩ := hcalls ![1, 2]
  exact ⟨out, globals, F, J, I, e, k, hout, hglobals, hF, hI, hrows, he, hfirst, hcall⟩

end Sheared

end Config

end FlowShader
