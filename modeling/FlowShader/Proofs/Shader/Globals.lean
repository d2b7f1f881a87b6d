import FlowShader.Proofs.Except
import FlowShader.Proofs.Shader.Environment

namespace FlowShader.Shader

variable {L K : Type} [Scalar K]

/-- Every variable that has a value keeps it. -/
structure Context.Widens (ctx : Context L K) (env : Env K) (ctx' : Context L K) (env' : Env K) : Prop where
  literal : ctx'.literal = ctx.literal
  call : ctx'.call? = ctx.call?
  var (name : String) (v : Value K) : (env.get? name).or (ctx.globals.get? name) = some v →
    (env'.get? name).or (ctx'.globals.get? name) = some v

section Terms

variable {ctx ctx' : Context L K} {env env' : Env K}

mutual

theorem Term.eval_mono (h : ctx.Widens env ctx' env') : ∀ (t : Term L) (v : Value K),
    t.eval ctx env = .ok v → t.eval ctx' env' = .ok v
  | .float _, _, ht => by
      rw [Term.eval] at ht ⊢
      rwa [h.literal]
  | .bool _, _, ht => ht
  | .var name, v, ht => by
      rw [Term.eval] at ht ⊢
      cases hname : (env.get? name).or (ctx.globals.get? name) with
      | none =>
          rw [hname] at ht
          cases ht
      | some w =>
          rw [hname] at ht
          rw [h.var name w hname]
          exact ht
  | .component base i, v, ht => by
      rw [Term.eval] at ht ⊢
      obtain ⟨b, hb, ht⟩ := exists_of_bind_eq_ok ht
      exact bind_eq_ok_of (Term.eval_mono h base b hb) ht
  | .element base col row, v, ht => by
      rw [Term.eval] at ht ⊢
      obtain ⟨b, hb, ht⟩ := exists_of_bind_eq_ok ht
      exact bind_eq_ok_of (Term.eval_mono h base b hb) ht
  | .neg a, v, ht => by
      rw [Term.eval] at ht ⊢
      obtain ⟨x, hx, ht⟩ := exists_of_bind_eq_ok ht
      exact bind_eq_ok_of (Term.eval_mono h a x hx) ht
  | .not a, v, ht => by
      rw [Term.eval] at ht ⊢
      obtain ⟨x, hx, ht⟩ := exists_of_bind_eq_ok ht
      exact bind_eq_ok_of (Term.eval_mono h a x hx) ht
  | .binary o a b, v, ht => by
      rw [Term.eval] at ht ⊢
      obtain ⟨x, hx, ht⟩ := exists_of_bind_eq_ok ht
      obtain ⟨y, hy, ht⟩ := exists_of_bind_eq_ok ht
      exact bind_eq_ok_of (Term.eval_mono h a x hx) (bind_eq_ok_of (Term.eval_mono h b y hy) ht)
  | .call name args, v, ht => by
      rw [Term.eval] at ht ⊢
      obtain ⟨vs, hvs, ht⟩ := exists_of_bind_eq_ok ht
      refine bind_eq_ok_of (Term.evalAll_mono h args vs hvs) ?_
      rwa [Context.apply, h.call]
  | .construct ty args, v, ht => by
      rw [Term.eval] at ht ⊢
      obtain ⟨vs, hvs, ht⟩ := exists_of_bind_eq_ok ht
      exact bind_eq_ok_of (Term.evalAll_mono h args vs hvs) ht

theorem Term.evalAll_mono (h : ctx.Widens env ctx' env') : ∀ (ts : List (Term L)) (vs : List (Value K)),
    Term.evalAll ctx env ts = .ok vs → Term.evalAll ctx' env' ts = .ok vs
  | [], _, ht => ht
  | t :: ts, vs, ht => by
      rw [Term.evalAll] at ht ⊢
      obtain ⟨x, hx, ht⟩ := exists_of_bind_eq_ok ht
      obtain ⟨xs, hxs, ht⟩ := exists_of_bind_eq_ok ht
      exact bind_eq_ok_of (Term.eval_mono h t x hx) (bind_eq_ok_of (Term.evalAll_mono h ts xs hxs) ht)

end

end Terms

section Statements

def Context.withoutGlobals (ctx : Context L K) : Context L K := { ctx with globals := [] }

variable {ctx : Context L K}

omit [Scalar K] in
theorem Context.withoutGlobals_widens (ctx : Context L K) (env : Env K) :
    ctx.withoutGlobals.Widens env ctx env where
  literal := rfl
  call := rfl
  var name v h := by
    cases henv : env.get? name with
    | none =>
        rw [henv] at h
        cases h
    | some w =>
        rw [henv] at h
        exact h

omit [Scalar K] in
theorem rounds_mono {body body' : Env K → Except Fault (Env K × Flow K)}
    (h : ∀ env r, body env = .ok r → body' env = .ok r) (count : Nat) {env : Env K} {r : Env K × Flow K}
    (hr : rounds body count env = .ok r) : rounds body' count env = .ok r := by
  induction count generalizing env with
  | zero => exact hr
  | succ count ih =>
      rw [rounds] at hr ⊢
      obtain ⟨p, hp, hr⟩ := exists_of_bind_eq_ok hr
      refine bind_eq_ok_of (h env p hp) ?_
      obtain ⟨next, flow⟩ := p
      cases flow with
      | next => exact ih hr
      | leave | result v => exact hr

mutual

theorem Stmt.exec_mono : ∀ (s : Stmt L) (env : Env K) (r : Env K × Flow K),
    s.exec ctx.withoutGlobals env = .ok r → s.exec ctx env = .ok r
  | .declare _ name value, env, r, hs => by
      rw [Stmt.exec] at hs ⊢
      obtain ⟨v, hv, hs⟩ := exists_of_bind_eq_ok hs
      exact bind_eq_ok_of (Term.eval_mono (ctx.withoutGlobals_widens env) value v hv) hs
  | .assign place value, env, r, hs => by
      rw [Stmt.exec] at hs ⊢
      obtain ⟨v, hv, hs⟩ := exists_of_bind_eq_ok hs
      exact bind_eq_ok_of (Term.eval_mono (ctx.withoutGlobals_widens env) value v hv) hs
  | .branch cond yes no, env, r, hs => by
      rw [Stmt.exec] at hs ⊢
      obtain ⟨v, hv, hs⟩ := exists_of_bind_eq_ok hs
      obtain ⟨b, hb, hs⟩ := exists_of_bind_eq_ok hs
      refine bind_eq_ok_of (Term.eval_mono (ctx.withoutGlobals_widens env) cond v hv) (bind_eq_ok_of hb ?_)
      cases b with
      | true => exact Stmt.execAll_mono yes env r hs
      | false => exact Stmt.execAll_mono no env r hs
  | .loop count body, env, r, hs => by
      rw [Stmt.exec] at hs ⊢
      exact rounds_mono (Stmt.execAll_mono body) count hs
  | .leave, _, _, hs => hs
  | .result value, env, r, hs => by
      rw [Stmt.exec] at hs ⊢
      obtain ⟨v, hv, hs⟩ := exists_of_bind_eq_ok hs
      exact bind_eq_ok_of (Term.eval_mono (ctx.withoutGlobals_widens env) value v hv) hs
  | .comment _, _, _, hs => hs

theorem Stmt.execAll_mono : ∀ (ss : List (Stmt L)) (env : Env K) (r : Env K × Flow K),
    Stmt.execAll ctx.withoutGlobals ss env = .ok r → Stmt.execAll ctx ss env = .ok r
  | [], _, _, hs => hs
  | s :: ss, env, r, hs => by
      rw [Stmt.execAll] at hs ⊢
      obtain ⟨p, hp, hs⟩ := exists_of_bind_eq_ok hs
      refine bind_eq_ok_of (Stmt.exec_mono s env p hp) ?_
      obtain ⟨next, flow⟩ := p
      cases flow with
      | next => exact Stmt.execAll_mono ss next r hs
      | leave | result v => exact hs

end

theorem Function.run_mono {f : Function L} {args : List (Value K)} {v : Value K}
    (h : f.run ctx.withoutGlobals args = .ok v) : f.run ctx args = .ok v := by
  rw [Function.run] at h ⊢
  split at h
  · next hlen =>
      rw [if_pos hlen]
      obtain ⟨env, henv, h⟩ := exists_of_bind_eq_ok h
      obtain ⟨r, hr, h⟩ := exists_of_bind_eq_ok h
      exact bind_eq_ok_of henv (bind_eq_ok_of (Stmt.execAll_mono f.body env r hr) h)
  · cases h

end Statements

end FlowShader.Shader
