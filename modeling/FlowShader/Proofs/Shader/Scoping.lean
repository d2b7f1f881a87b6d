import FlowShader.Proofs.Shader.Closed

namespace FlowShader.Shader

variable {L K : Type}

def Env.AgreeOn (Γ : Types) (env env' : Env K) : Prop :=
  ∀ name τ, Γ.lookup name = some τ → env.get? name = env'.get? name

/-- Every answer to a call is given by the second context as well. -/
structure Context.Follows [Scalar K] (ctx ctx' : Context L K) : Prop where
  literal : ctx'.literal = ctx.literal
  globals : ctx'.globals = ctx.globals
  apply (name : String) (args : List (Value K)) (v : Value K) : ctx.apply name args = .ok v →
    ctx'.apply name args = .ok v

section Agreement

variable {Γ Γ' : Types} {env env' : Env K}

theorem Types.eq_of_lookup_singleton {name other : String} {τ σ : Ty} (h : List.lookup other [(name, τ)] = some σ) :
    name = other ∧ τ = σ := by
  rw [List.lookup_cons] at h
  split at h
  · next heq => exact ⟨(eq_of_beq heq).symm, Option.some.inj h⟩
  · cases h

theorem Env.AgreeOn.refl (Γ : Types) (env : Env K) : Env.AgreeOn Γ env env := fun _ _ _ => rfl

theorem Env.AgreeOn.mono (h : Types.Extends Γ Γ') (henv : Env.AgreeOn Γ' env env') : Env.AgreeOn Γ env env' :=
  fun name τ hτ => henv name τ (h name τ hτ)

theorem Env.AgreeOn.declare (henv : Env.AgreeOn Γ env env') (name : String) (τ : Ty) (v : Value K) :
    Env.AgreeOn ((name, τ) :: Γ) (env.set name v) (env'.set name v) := by
  intro other σ hσ
  rw [Env.get?_set, Env.get?_set]
  by_cases hname : name = other
  · rw [if_pos hname, if_pos hname]
  · rw [List.lookup_cons, beq_eq_false_iff_ne.2 (Ne.symm hname)] at hσ
    rw [if_neg hname, if_neg hname]
    exact henv other σ hσ

theorem Env.AgreeOn.set (henv : Env.AgreeOn Γ env env') (name : String) (v : Value K) :
    Env.AgreeOn Γ (env.set name v) (env'.set name v) := by
  intro other σ hσ
  rw [Env.get?_set, Env.get?_set]
  split
  · rfl
  · exact henv other σ hσ

theorem Env.agreeOn_singleton {name : String} {τ : Ty} {v : Value K} (h : env.get? name = some v) :
    Env.AgreeOn [(name, τ)] [(name, v)] env := by
  intro other σ hσ
  obtain ⟨rfl, rfl⟩ := Types.eq_of_lookup_singleton hσ
  exact (if_pos (beq_self_eq_true name)).trans h.symm

theorem Env.provides_singleton {globals : Env K} {name : String} {τ : Ty} {v : Value K} (h : v.Fits τ) :
    Env.Provides globals [(name, v)] [(name, τ)] := by
  intro other σ hσ
  obtain ⟨rfl, rfl⟩ := Types.eq_of_lookup_singleton hσ
  have hget : Env.get? [(name, v)] name = some v := if_pos (beq_self_eq_true name)
  exact ⟨v, by rw [hget]; rfl, h⟩

theorem Place.exists_lookup {place : Place} {τ : Ty} (h : place.ty? Γ = some τ) : ∃ σ, Γ.lookup place.name = some σ := by
  cases place with
  | var name => exact ⟨τ, h⟩
  | component name i | element name col row =>
      obtain ⟨σ, hσ, -⟩ := Option.bind_eq_some_iff.1 h
      exact ⟨σ, hσ⟩

theorem Place.write_eq_ok {place : Place} {v : Value K} {env₁ : Env K} (h : place.write v env = .ok env₁) :
    ∃ w, env₁ = env.set place.name w ∧ ∀ env' : Env K, env.get? place.name = env'.get? place.name →
      place.write v env' = .ok (env'.set place.name w) := by
  unfold Place.write at h ⊢
  cases hold : env.get? place.name with
  | none =>
      rw [hold] at h
      cases h
  | some old =>
      rw [hold] at h
      dsimp only at h
      split at h
      case h_1 =>
          obtain rfl := Except.ok.inj h
          refine ⟨v, rfl, fun env' henv => ?_⟩
          rw [← henv]
          rfl
      case h_4 => cases h
      all_goals
        split at h
        · next hi =>
            obtain ⟨x, hx, h⟩ := exists_of_bind_eq_ok h
            obtain rfl := Except.ok.inj h
            refine ⟨_, rfl, fun env' henv => ?_⟩
            rw [← henv]
            dsimp only
            rw [if_pos hi]
            exact bind_eq_ok_of hx rfl
        · cases h

end Agreement

section Terms

variable [Scalar K] {ctx ctx' : Context L K} {env env' : Env K} {fs : Signatures} {Γ : Types}

mutual

theorem Term.eval_agree (h : ctx.Follows ctx') (henv : Env.AgreeOn Γ env env') : ∀ (t : Term L) (τ : Ty) (v : Value K),
    t.ty? fs Γ = some τ → t.eval ctx env = .ok v → t.eval ctx' env' = .ok v
  | .float x, _, v, _, hv => by
      rw [Term.eval] at hv ⊢
      rwa [h.literal]
  | .bool _, _, _, _, hv => hv
  | .var name, τ, v, ht, hv => by
      rw [Term.eval] at hv ⊢
      rwa [h.globals, ← henv name τ ht]
  | .component base i, _, v, ht, hv => by
      obtain ⟨σ, hσ, -⟩ := Option.bind_eq_some_iff.1 ht
      rw [Term.eval] at hv ⊢
      obtain ⟨x, hx, hv⟩ := exists_of_bind_eq_ok hv
      exact bind_eq_ok_of (Term.eval_agree h henv base σ x hσ hx) hv
  | .element base col row, _, v, ht, hv => by
      obtain ⟨σ, hσ, -⟩ := Option.bind_eq_some_iff.1 ht
      rw [Term.eval] at hv ⊢
      obtain ⟨x, hx, hv⟩ := exists_of_bind_eq_ok hv
      exact bind_eq_ok_of (Term.eval_agree h henv base σ x hσ hx) hv
  | .neg a, _, v, ht, hv => by
      obtain ⟨σ, hσ, -⟩ := Option.bind_eq_some_iff.1 ht
      rw [Term.eval] at hv ⊢
      obtain ⟨x, hx, hv⟩ := exists_of_bind_eq_ok hv
      exact bind_eq_ok_of (Term.eval_agree h henv a σ x hσ hx) hv
  | .not a, _, v, ht, hv => by
      obtain ⟨σ, hσ, -⟩ := Option.bind_eq_some_iff.1 ht
      rw [Term.eval] at hv ⊢
      obtain ⟨x, hx, hv⟩ := exists_of_bind_eq_ok hv
      exact bind_eq_ok_of (Term.eval_agree h henv a σ x hσ hx) hv
  | .binary o a b, _, v, ht, hv => by
      obtain ⟨σ, hσ, ht⟩ := Option.bind_eq_some_iff.1 ht
      obtain ⟨υ, hυ, -⟩ := Option.bind_eq_some_iff.1 ht
      rw [Term.eval] at hv ⊢
      obtain ⟨x, hx, hv⟩ := exists_of_bind_eq_ok hv
      obtain ⟨y, hy, hv⟩ := exists_of_bind_eq_ok hv
      exact bind_eq_ok_of (Term.eval_agree h henv a σ x hσ hx)
        (bind_eq_ok_of (Term.eval_agree h henv b υ y hυ hy) hv)
  | .call name args, _, v, ht, hv => by
      obtain ⟨types, htypes, -⟩ := Option.bind_eq_some_iff.1 ht
      rw [Term.eval] at hv ⊢
      obtain ⟨vs, hvs, hv⟩ := exists_of_bind_eq_ok hv
      exact bind_eq_ok_of (Term.evalAll_agree h henv args types vs htypes hvs) (h.apply name vs v hv)
  | .construct ty args, _, v, ht, hv => by
      obtain ⟨types, htypes, -⟩ := Option.bind_eq_some_iff.1 ht
      rw [Term.eval] at hv ⊢
      obtain ⟨vs, hvs, hv⟩ := exists_of_bind_eq_ok hv
      exact bind_eq_ok_of (Term.evalAll_agree h henv args types vs htypes hvs) hv

theorem Term.evalAll_agree (h : ctx.Follows ctx') (henv : Env.AgreeOn Γ env env') :
    ∀ (ts : List (Term L)) (types : List Ty) (vs : List (Value K)), Term.tys? fs Γ ts = some types →
      Term.evalAll ctx env ts = .ok vs → Term.evalAll ctx' env' ts = .ok vs
  | [], _, _, _, hvs => hvs
  | t :: ts, types, vs, ht, hvs => by
      obtain ⟨τ, hτ, ht⟩ := Option.bind_eq_some_iff.1 ht
      obtain ⟨rest, hrest, -⟩ := Option.map_eq_some_iff.1 ht
      rw [Term.evalAll] at hvs ⊢
      obtain ⟨x, hx, hvs⟩ := exists_of_bind_eq_ok hvs
      obtain ⟨xs, hxs, hvs⟩ := exists_of_bind_eq_ok hvs
      exact bind_eq_ok_of (Term.eval_agree h henv t τ x hτ hx)
        (bind_eq_ok_of (Term.evalAll_agree h henv ts rest xs hrest hxs) hvs)

end

end Terms

section Statements

/-- Where two runs end in the same way, they agree on the variables that are in scope there. -/
def Flow.Alike (Γ Γ' : Types) (env env' : Env K) : Flow K → Prop
  | .next => Env.AgreeOn Γ' env env'
  | .leave => Env.AgreeOn Γ env env'
  | .result _ => True

theorem Flow.Alike.outside {Γ Γ' : Types} {env env' : Env K} {flow : Flow K} (h : flow.Alike Γ Γ' env env')
    (hext : Types.Extends Γ Γ') : flow.Alike Γ Γ env env' := by
  cases flow with
  | next => exact Env.AgreeOn.mono hext h
  | leave | result => exact h

theorem rounds_agree {Γ Γ' : Types} {body body' : Env K → Except Fault (Env K × Flow K)} (hext : Types.Extends Γ Γ')
    (hbody : ∀ env env' env₁ flow, Env.AgreeOn Γ env env' → body env = .ok (env₁, flow) →
      ∃ env₁', body' env' = .ok (env₁', flow) ∧ flow.Alike Γ Γ' env₁ env₁')
    (count : Nat) {env env' env₁ : Env K} {flow : Flow K} (henv : Env.AgreeOn Γ env env')
    (h : rounds body count env = .ok (env₁, flow)) :
    ∃ env₁', rounds body' count env' = .ok (env₁', flow) ∧ flow.Alike Γ Γ env₁ env₁' := by
  induction count generalizing env env' with
  | zero =>
      obtain ⟨rfl, rfl⟩ := Prod.mk.inj (Except.ok.inj h)
      exact ⟨env', rfl, henv⟩
  | succ count ih =>
      rw [rounds] at h
      obtain ⟨⟨env₂, flow₂⟩, hrun, h⟩ := exists_of_bind_eq_ok h
      obtain ⟨env₂', hrun', halike⟩ := hbody env env' env₂ flow₂ henv hrun
      rw [rounds, hrun']
      cases flow₂ with
      | next => exact ih (Env.AgreeOn.mono hext halike) h
      | leave =>
          obtain ⟨rfl, rfl⟩ := Prod.mk.inj (Except.ok.inj h)
          exact ⟨env₂', rfl, halike⟩
      | result v =>
          obtain ⟨rfl, rfl⟩ := Prod.mk.inj (Except.ok.inj h)
          exact ⟨env₂', rfl, trivial⟩

variable [Scalar K] {ctx ctx' : Context L K} {S : Scope}

mutual

theorem Stmt.exec_agree (h : ctx.Follows ctx') : ∀ (s : Stmt L) (looping : Bool) (Γ Γ' : Types) (env env' env₁ : Env K)
    (flow : Flow K), s.check S looping Γ = some Γ' → Env.AgreeOn Γ env env' → s.exec ctx env = .ok (env₁, flow) →
    ∃ env₁', s.exec ctx' env' = .ok (env₁', flow) ∧ flow.Alike Γ Γ' env₁ env₁'
  | .declare ty name value, looping, Γ, Γ', env, env', env₁, flow, hs, henv, hrun => by
      rw [Stmt.check] at hs
      split at hs
      · next hnew =>
          obtain rfl := Option.some.inj hs
          obtain ⟨v, hv, hrun⟩ := exists_of_bind_eq_ok hrun
          obtain ⟨rfl, rfl⟩ := Prod.mk.inj (Except.ok.inj hrun)
          exact ⟨_, bind_eq_ok_of (Term.eval_agree h henv value ty v hnew.2 hv) rfl, henv.declare name ty v⟩
      · cases hs
  | .assign place value, looping, Γ, Γ', env, env', env₁, flow, hs, henv, hrun => by
      rw [Stmt.check] at hs
      split at hs
      · next hplace =>
          obtain rfl := Option.some.inj hs
          obtain ⟨-, hsome, hvalue⟩ := hplace
          obtain ⟨τ, hτ⟩ := Option.isSome_iff_exists.1 hsome
          obtain ⟨σ, hσ⟩ := Place.exists_lookup hτ
          obtain ⟨v, hv, hrun⟩ := exists_of_bind_eq_ok hrun
          obtain ⟨env₂, hwrite, hrun⟩ := exists_of_bind_eq_ok hrun
          obtain ⟨rfl, rfl⟩ := Prod.mk.inj (Except.ok.inj hrun)
          obtain ⟨w, rfl, hwrite'⟩ := Place.write_eq_ok hwrite
          exact ⟨_, bind_eq_ok_of (Term.eval_agree h henv value τ v (hvalue.trans hτ) hv)
            (bind_eq_ok_of (hwrite' env' (henv _ σ hσ)) rfl), henv.set place.name w⟩
      · cases hs
  | .branch cond yes no, looping, Γ, Γ', env, env', env₁, flow, hs, henv, hrun => by
      rw [Stmt.check] at hs
      split at hs
      · next hchecked =>
          obtain rfl := Option.some.inj hs
          obtain ⟨hcond, hyes, hno⟩ := hchecked
          obtain ⟨Γ₁, hyes⟩ := Option.isSome_iff_exists.1 hyes
          obtain ⟨Γ₂, hno⟩ := Option.isSome_iff_exists.1 hno
          obtain ⟨v, hv, hrun⟩ := exists_of_bind_eq_ok hrun
          obtain ⟨b, hb, hrun⟩ := exists_of_bind_eq_ok hrun
          have hv' := Term.eval_agree h henv cond .bool v hcond hv
          cases b with
          | true =>
              obtain ⟨env₁', hrun', halike⟩ := Stmt.execAll_agree h yes looping Γ Γ₁ env env' env₁ flow hyes henv hrun
              exact ⟨env₁', bind_eq_ok_of hv' (bind_eq_ok_of hb hrun'), halike.outside (Stmt.checkAll_extends hyes)⟩
          | false =>
              obtain ⟨env₁', hrun', halike⟩ := Stmt.execAll_agree h no looping Γ Γ₂ env env' env₁ flow hno henv hrun
              exact ⟨env₁', bind_eq_ok_of hv' (bind_eq_ok_of hb hrun'), halike.outside (Stmt.checkAll_extends hno)⟩
      · cases hs
  | .loop count body, looping, Γ, Γ', env, env', env₁, flow, hs, henv, hrun => by
      rw [Stmt.check] at hs
      split at hs
      · next hbody =>
          obtain rfl := Option.some.inj hs
          obtain ⟨Γ₁, hbody⟩ := Option.isSome_iff_exists.1 hbody
          exact rounds_agree (Stmt.checkAll_extends hbody)
            (fun env env' env₁ flow => Stmt.execAll_agree h body true Γ Γ₁ env env' env₁ flow hbody) count henv hrun
      · cases hs
  | .leave, looping, Γ, Γ', env, env', env₁, flow, hs, henv, hrun => by
      obtain ⟨rfl, rfl⟩ := Prod.mk.inj (Except.ok.inj hrun)
      exact ⟨env', rfl, henv⟩
  | .result value, looping, Γ, Γ', env, env', env₁, flow, hs, henv, hrun => by
      rw [Stmt.check] at hs
      split at hs
      · next hvalue =>
          obtain ⟨v, hv, hrun⟩ := exists_of_bind_eq_ok hrun
          obtain ⟨rfl, rfl⟩ := Prod.mk.inj (Except.ok.inj hrun)
          exact ⟨env', bind_eq_ok_of (Term.eval_agree h henv value S.ret v hvalue hv) rfl, trivial⟩
      · cases hs
  | .comment _, looping, Γ, Γ', env, env', env₁, flow, hs, henv, hrun => by
      obtain rfl := Option.some.inj hs
      obtain ⟨rfl, rfl⟩ := Prod.mk.inj (Except.ok.inj hrun)
      exact ⟨env', rfl, henv⟩

theorem Stmt.execAll_agree (h : ctx.Follows ctx') : ∀ (ss : List (Stmt L)) (looping : Bool) (Γ Γ' : Types)
    (env env' env₁ : Env K) (flow : Flow K), Stmt.checkAll S looping Γ ss = some Γ' → Env.AgreeOn Γ env env' →
    Stmt.execAll ctx ss env = .ok (env₁, flow) →
    ∃ env₁', Stmt.execAll ctx' ss env' = .ok (env₁', flow) ∧ flow.Alike Γ Γ' env₁ env₁'
  | [], looping, Γ, Γ', env, env', env₁, flow, hs, henv, hrun => by
      obtain rfl := Option.some.inj hs
      obtain ⟨rfl, rfl⟩ := Prod.mk.inj (Except.ok.inj hrun)
      exact ⟨env', rfl, henv⟩
  | s :: ss, looping, Γ, Γ', env, env', env₁, flow, hs, henv, hrun => by
      obtain ⟨Γ₁, hfirst, hrest⟩ := Option.bind_eq_some_iff.1 hs
      rw [Stmt.execAll] at hrun
      obtain ⟨⟨env₂, flow₂⟩, hrun₂, hrun⟩ := exists_of_bind_eq_ok hrun
      obtain ⟨env₂', hrun₂', halike⟩ := Stmt.exec_agree h s looping Γ Γ₁ env env' env₂ flow₂ hfirst henv hrun₂
      rw [Stmt.execAll, hrun₂']
      cases flow₂ with
      | next =>
          obtain ⟨env₁', hrun', halike'⟩ :=
            Stmt.execAll_agree h ss looping Γ₁ Γ' env₂ env₂' env₁ flow hrest halike hrun
          refine ⟨env₁', hrun', ?_⟩
          cases flow with
          | next | result => exact halike'
          | leave => exact Env.AgreeOn.mono (Stmt.check_extends hfirst) halike'
      | leave =>
          obtain ⟨rfl, rfl⟩ := Prod.mk.inj (Except.ok.inj hrun)
          exact ⟨env₂', rfl, halike⟩
      | result v =>
          obtain ⟨rfl, rfl⟩ := Prod.mk.inj (Except.ok.inj hrun)
          exact ⟨env₂', rfl, trivial⟩

end

end Statements

section Reading

variable [Scalar K] {ctx : Context L K} {S : Scope} {name : String}

mutual

theorem Stmt.exec_keeps (hread : S.globals.lookup name ≠ none) : ∀ (s : Stmt L) (looping : Bool) (Γ Γ' : Types)
    (env env₁ : Env K) (flow : Flow K), s.check S looping Γ = some Γ' → Γ.lookup name ≠ none →
    s.exec ctx env = .ok (env₁, flow) → env₁.get? name = env.get? name
  | .declare ty other value, looping, Γ, Γ', env, env₁, flow, hs, hname, hrun => by
      rw [Stmt.check] at hs
      split at hs
      · next hnew =>
          have hne : other ≠ name := fun heq => hname (heq ▸ hnew.1)
          obtain ⟨v, -, hrun⟩ := exists_of_bind_eq_ok hrun
          obtain ⟨rfl, rfl⟩ := Prod.mk.inj (Except.ok.inj hrun)
          exact Env.get?_set_ne env hne v
      · cases hs
  | .assign place value, looping, Γ, Γ', env, env₁, flow, hs, hname, hrun => by
      rw [Stmt.check] at hs
      split at hs
      · next hplace =>
          have hne : place.name ≠ name := fun heq => hread (heq ▸ hplace.1)
          obtain ⟨v, -, hrun⟩ := exists_of_bind_eq_ok hrun
          obtain ⟨env₂, hwrite, hrun⟩ := exists_of_bind_eq_ok hrun
          obtain ⟨rfl, rfl⟩ := Prod.mk.inj (Except.ok.inj hrun)
          obtain ⟨w, rfl, -⟩ := Place.write_eq_ok hwrite
          exact Env.get?_set_ne env hne w
      · cases hs
  | .branch cond yes no, looping, Γ, Γ', env, env₁, flow, hs, hname, hrun => by
      rw [Stmt.check] at hs
      split at hs
      · next hchecked =>
          obtain ⟨-, hyes, hno⟩ := hchecked
          obtain ⟨Γ₁, hyes⟩ := Option.isSome_iff_exists.1 hyes
          obtain ⟨Γ₂, hno⟩ := Option.isSome_iff_exists.1 hno
          obtain ⟨v, -, hrun⟩ := exists_of_bind_eq_ok hrun
          obtain ⟨b, -, hrun⟩ := exists_of_bind_eq_ok hrun
          cases b with
          | true => exact Stmt.execAll_keeps hread yes looping Γ Γ₁ env env₁ flow hyes hname hrun
          | false => exact Stmt.execAll_keeps hread no looping Γ Γ₂ env env₁ flow hno hname hrun
      · cases hs
  | .loop count body, looping, Γ, Γ', env, env₁, flow, hs, hname, hrun => by
      rw [Stmt.check] at hs
      split at hs
      · next hbody =>
          obtain ⟨Γ₁, hbody⟩ := Option.isSome_iff_exists.1 hbody
          rw [Stmt.exec] at hrun
          clear hs
          induction count generalizing env with
          | zero =>
              obtain ⟨rfl, -⟩ := Prod.mk.inj (Except.ok.inj hrun)
              rfl
          | succ count ih =>
              rw [rounds] at hrun
              obtain ⟨⟨env₂, flow₂⟩, hround, hrun⟩ := exists_of_bind_eq_ok hrun
              have hkept := Stmt.execAll_keeps hread body true Γ Γ₁ env env₂ flow₂ hbody hname hround
              cases flow₂ with
              | next => exact (ih env₂ hrun).trans hkept
              | leave | result v =>
                  obtain ⟨rfl, -⟩ := Prod.mk.inj (Except.ok.inj hrun)
                  exact hkept
      · cases hs
  | .leave, looping, Γ, Γ', env, env₁, flow, hs, hname, hrun => by
      obtain ⟨rfl, -⟩ := Prod.mk.inj (Except.ok.inj hrun)
      rfl
  | .result value, looping, Γ, Γ', env, env₁, flow, hs, hname, hrun => by
      obtain ⟨v, -, hrun⟩ := exists_of_bind_eq_ok hrun
      obtain ⟨rfl, -⟩ := Prod.mk.inj (Except.ok.inj hrun)
      rfl
  | .comment _, looping, Γ, Γ', env, env₁, flow, hs, hname, hrun => by
      obtain ⟨rfl, -⟩ := Prod.mk.inj (Except.ok.inj hrun)
      rfl

theorem Stmt.execAll_keeps (hread : S.globals.lookup name ≠ none) : ∀ (ss : List (Stmt L)) (looping : Bool)
    (Γ Γ' : Types) (env env₁ : Env K) (flow : Flow K), Stmt.checkAll S looping Γ ss = some Γ' → Γ.lookup name ≠ none →
    Stmt.execAll ctx ss env = .ok (env₁, flow) → env₁.get? name = env.get? name
  | [], looping, Γ, Γ', env, env₁, flow, hs, hname, hrun => by
      obtain ⟨rfl, -⟩ := Prod.mk.inj (Except.ok.inj hrun)
      rfl
  | s :: ss, looping, Γ, Γ', env, env₁, flow, hs, hname, hrun => by
      obtain ⟨Γ₁, hfirst, hrest⟩ := Option.bind_eq_some_iff.1 hs
      rw [Stmt.execAll] at hrun
      obtain ⟨⟨env₂, flow₂⟩, hrun₂, hrun⟩ := exists_of_bind_eq_ok hrun
      have hkept := Stmt.exec_keeps hread s looping Γ Γ₁ env env₂ flow₂ hfirst hname hrun₂
      cases flow₂ with
      | next =>
          obtain ⟨σ, hσ⟩ := Option.ne_none_iff_exists'.1 hname
          have hname₁ : Γ₁.lookup name ≠ none := by
            rw [Stmt.check_extends hfirst name σ hσ]
            nofun
          exact (Stmt.execAll_keeps hread ss looping Γ₁ Γ' env₂ env₁ flow hrest hname₁ hrun).trans hkept
      | leave | result v =>
          obtain ⟨rfl, -⟩ := Prod.mk.inj (Except.ok.inj hrun)
          exact hkept

end

end Reading

section Calls

variable [Scalar K] {ctx ctx' : Context L K} {Γ Γ' : Types}

/-- Code outside of loops that is in order for results of two types has no result: it runs to its end. -/
theorem Stmt.execAll_next {fs : Signatures} {globals : Types} {ret ret' : Ty} {ss : List (Stmt L)} {env : Env K}
    (hserves : ctx.Serves fs) (hglobals : ∀ name, globals.lookup name = none → ctx.globals.get? name = none)
    (henv : Env.Provides ctx.globals env Γ) (h : Stmt.checkAll ⟨fs, globals, ret⟩ false Γ ss = some Γ')
    (h' : Stmt.Checks ⟨fs, globals, ret'⟩ false Γ ss) (hne : ret ≠ ret') :
    ∃ env', Stmt.execAll ctx ss env = .ok (env', .next) ∧ Env.Provides ctx.globals env' Γ' := by
  obtain ⟨Γ'', h'⟩ := Option.isSome_iff_exists.1 h'
  obtain ⟨env₁, flow, hrun, hends⟩ := Stmt.execAll_ends ⟨hserves, hglobals⟩ ss false Γ Γ' env h henv
  obtain ⟨env₂, flow', hrun', hends'⟩ := Stmt.execAll_ends ⟨hserves, hglobals⟩ ss false Γ Γ'' env h' henv
  obtain ⟨rfl, rfl⟩ := Prod.mk.inj (Except.ok.inj (hrun.symm.trans hrun'))
  cases flow with
  | next => exact ⟨env₁, hrun, hends.1⟩
  | leave => exact absurd hends.1 (by decide)
  | result v => exact absurd (hends.ty_eq.symm.trans hends'.ty_eq) hne

theorem Function.Checked.run_follows {types : Types} {fs : Signatures} {f : Function L} (hf : f.Checked types fs)
    (h : ctx.Follows ctx') {args : List (Value K)} {v : Value K} (hv : f.run ctx args = .ok v) :
    f.run ctx' args = .ok v := by
  obtain ⟨Γ, hbody⟩ := Option.isSome_iff_exists.1 hf.body
  rw [Function.run] at hv ⊢
  split at hv
  · next hlength =>
      rw [if_pos hlength]
      obtain ⟨env, hbind, hv⟩ := exists_of_bind_eq_ok hv
      obtain ⟨⟨env₁, flow⟩, hrun, hv⟩ := exists_of_bind_eq_ok hv
      obtain ⟨env₁', hrun', -⟩ := Stmt.execAll_agree h f.body false _ Γ env env env₁ flow hbody (.refl _ env) hrun
      refine bind_eq_ok_of hbind (bind_eq_ok_of hrun' ?_)
      cases flow with
      | next | leave => cases hv
      | result w => exact hv
  · cases hv

theorem Module.Checked.callAt_succ {m : Module L} (hm : m.Checked) {literal : L → K} {globals : Env K} {depth : Nat}
    {name : String} {args : List (Value K)} {v : Value K} (h : m.callAt literal globals depth name args = .ok v) :
    m.callAt literal globals (depth + 1) name args = .ok v := by
  induction depth generalizing name args v with
  | zero => cases h
  | succ depth ih =>
      rw [Module.callAt] at h ⊢
      split at h
      · cases h
      · next f hf =>
          obtain ⟨before, after, hsplit⟩ := List.append_of_mem (List.mem_of_find?_eq_some hf)
          have hfollows : (m.context literal globals depth).Follows (m.context literal globals (depth + 1)) := by
            refine ⟨rfl, rfl, fun callee args w hcall => ?_⟩
            unfold Context.apply at hcall ⊢
            dsimp only [Module.context] at hcall ⊢
            by_cases hdefines : m.defines callee = true
            · rw [if_pos hdefines] at hcall ⊢
              exact ih hcall
            · rwa [if_neg hdefines] at hcall ⊢
          exact (hm.functions.split hsplit).run_follows hfollows h

end Calls

end FlowShader.Shader
