import FlowShader.Proofs.Shader.Typing

namespace FlowShader.Shader

variable {L K : Type}

/-- What a function body is checked against: the functions before it, the variables that it may read but
not write, and the type of its result. -/
structure Scope where
  functions : Signatures
  globals : Types
  ret : Ty

def Place.ty? (Γ : Types) : Place → Option Ty
  | .var name => Γ.lookup name
  | .component name i => (Γ.lookup name).bind (Ty.component? i)
  | .element name col row => (Γ.lookup name).bind (Ty.element? col row)

mutual

/-- The types of variables after a statement, if it is in order. Declarations bring in new names only, and
end with the block that they stand in. -/
def Stmt.check (S : Scope) (looping : Bool) (Γ : Types) : Stmt L → Option Types
  | .declare ty name value =>
    if Γ.lookup name = none ∧ value.ty? S.functions Γ = some ty then some ((name, ty) :: Γ) else none
  | .assign place value =>
    if S.globals.lookup place.name = none ∧ (place.ty? Γ).isSome = true ∧ value.ty? S.functions Γ = place.ty? Γ
    then some Γ else none
  | .branch cond yes no =>
    if cond.ty? S.functions Γ = some .bool ∧ (Stmt.checkAll S looping Γ yes).isSome = true ∧
      (Stmt.checkAll S looping Γ no).isSome = true
    then some Γ else none
  | .loop _ body => if (Stmt.checkAll S true Γ body).isSome = true then some Γ else none
  | .leave => if looping = true then some Γ else none
  | .result value => if value.ty? S.functions Γ = some S.ret then some Γ else none
  | .comment _ => some Γ

def Stmt.checkAll (S : Scope) (looping : Bool) (Γ : Types) : List (Stmt L) → Option Types
  | [] => some Γ
  | s :: ss => (s.check S looping Γ).bind fun Γ' => Stmt.checkAll S looping Γ' ss

end

mutual

def Stmt.returns : Stmt L → Bool
  | .result _ => true
  | .branch _ yes no => Stmt.anyReturns yes && Stmt.anyReturns no
  | _ => false

def Stmt.anyReturns : List (Stmt L) → Bool
  | [] => false
  | s :: ss => s.returns || Stmt.anyReturns ss

end

section Extension

variable {S : Scope} {looping : Bool} {Γ Γ' Γ'' : Types}

theorem Types.Extends.refl (Γ : Types) : Types.Extends Γ Γ := fun _ _ h => h

theorem Types.Extends.trans (h : Types.Extends Γ Γ') (h' : Types.Extends Γ' Γ'') : Types.Extends Γ Γ'' :=
  fun name τ hτ => h' name τ (h name τ hτ)

theorem Types.extends_cons {name : String} (h : Γ.lookup name = none) (τ : Ty) : Types.Extends Γ ((name, τ) :: Γ) := by
  intro other σ hσ
  have hne : (other == name) = false := by
    by_contra heq
    rw [Bool.not_eq_false, beq_iff_eq] at heq
    rw [heq, h] at hσ
    cases hσ
  rw [List.lookup_cons, hne]
  exact hσ

theorem Stmt.check_extends {s : Stmt L} (h : s.check S looping Γ = some Γ') : Types.Extends Γ Γ' := by
  cases s with
  | declare ty name value =>
      rw [Stmt.check] at h
      split at h
      · next hnew =>
          obtain rfl := Option.some.inj h
          exact Types.extends_cons hnew.1 ty
      · cases h
  | comment =>
      obtain rfl := Option.some.inj h
      exact .refl Γ
  | assign | branch | loop | leave | result =>
      rw [Stmt.check] at h
      split at h
      · obtain rfl := Option.some.inj h
        exact .refl Γ
      · cases h

theorem Stmt.checkAll_extends {ss : List (Stmt L)} (h : Stmt.checkAll S looping Γ ss = some Γ') :
    Types.Extends Γ Γ' := by
  induction ss generalizing Γ with
  | nil =>
      obtain rfl := Option.some.inj h
      exact .refl Γ
  | cons s ss ih =>
      obtain ⟨Γ₁, hs, h⟩ := Option.bind_eq_some_iff.1 h
      exact (Stmt.check_extends hs).trans (ih h)

theorem Stmt.checkAll_append (ss ts : List (Stmt L)) :
    Stmt.checkAll S looping Γ (ss ++ ts) = (Stmt.checkAll S looping Γ ss).bind (Stmt.checkAll S looping · ts) := by
  induction ss generalizing Γ with
  | nil => rfl
  | cons s ss ih =>
      rw [List.cons_append, Stmt.checkAll, Stmt.checkAll, Option.bind_assoc]
      exact congrArg _ (funext fun Γ' => ih)

theorem Stmt.anyReturns_append (ss ts : List (Stmt L)) :
    Stmt.anyReturns (ss ++ ts) = (Stmt.anyReturns ss || Stmt.anyReturns ts) := by
  induction ss with
  | nil => rfl
  | cons s ss ih => rw [List.cons_append, Stmt.anyReturns, Stmt.anyReturns, ih, Bool.or_assoc]

theorem Stmt.checkAll_cons {s : Stmt L} (hs : s.check S looping Γ = some Γ') (ss : List (Stmt L)) :
    Stmt.checkAll S looping Γ (s :: ss) = Stmt.checkAll S looping Γ' ss := by
  rw [Stmt.checkAll, hs]
  rfl

theorem Stmt.checkAll_of_forall {ss : List (Stmt L)} (h : ∀ s ∈ ss, s.check S looping Γ = some Γ) :
    Stmt.checkAll S looping Γ ss = some Γ := by
  induction ss with
  | nil => rfl
  | cons s ss ih =>
      obtain ⟨hs, hss⟩ := List.forall_mem_cons.1 h
      rw [Stmt.checkAll_cons hs]
      exact ih hss

def Stmt.Checks (S : Scope) (looping : Bool) (Γ : Types) (ss : List (Stmt L)) : Prop :=
  (Stmt.checkAll S looping Γ ss).isSome = true

theorem Stmt.Checks.nil : Stmt.Checks (L := L) S looping Γ [] := rfl

theorem Stmt.Checks.cons {s : Stmt L} {ss : List (Stmt L)} (hs : s.check S looping Γ = some Γ')
    (h : Stmt.Checks S looping Γ' ss) : Stmt.Checks S looping Γ (s :: ss) := by
  rwa [Stmt.Checks, Stmt.checkAll_cons hs]

theorem Stmt.Checks.of_checkAll {ss : List (Stmt L)} (h : Stmt.checkAll S looping Γ ss = some Γ') :
    Stmt.Checks S looping Γ ss := by
  rw [Stmt.Checks, h]
  rfl

theorem Stmt.Checks.append {ss ts : List (Stmt L)} (hss : Stmt.checkAll S looping Γ ss = some Γ')
    (h : Stmt.Checks S looping Γ' ts) : Stmt.Checks S looping Γ (ss ++ ts) := by
  rw [Stmt.Checks, Stmt.checkAll_append, hss]
  exact h

theorem Stmt.Checks.result {ss : List (Stmt L)} {t : Term L} (hss : Stmt.checkAll S looping Γ ss = some Γ')
    (ht : t.ty? S.functions Γ' = some S.ret) : Stmt.Checks S looping Γ (ss ++ [.result t]) := by
  have hlast : Stmt.checkAll S looping Γ' [.result t] = some Γ' := by
    rw [Stmt.checkAll, Stmt.check, if_pos ht]
    rfl
  exact .append hss (.of_checkAll hlast)

theorem Stmt.anyReturns_result (ss : List (Stmt L)) (t : Term L) : Stmt.anyReturns (ss ++ [.result t]) = true :=
  (Stmt.anyReturns_append _ _).trans (Bool.or_true _)

theorem Stmt.check_declare {ty : Ty} {name : String} {value : Term L} (hname : Γ.lookup name = none)
    (hvalue : value.ty? S.functions Γ = some ty) :
    (Stmt.declare ty name value).check S looping Γ = some ((name, ty) :: Γ) := by
  rw [Stmt.check, if_pos ⟨hname, hvalue⟩]

theorem Stmt.check_assign {place : Place} {value : Term L} {τ : Ty} (hlocal : S.globals.lookup place.name = none)
    (hplace : place.ty? Γ = some τ) (hvalue : value.ty? S.functions Γ = some τ) :
    (Stmt.assign place value).check S looping Γ = some Γ := by
  rw [Stmt.check, if_pos ⟨hlocal, by rw [hplace]; rfl, hvalue.trans hplace.symm⟩]

theorem Stmt.check_branch {cond : Term L} {yes no : List (Stmt L)} (hcond : cond.ty? S.functions Γ = some .bool)
    (hyes : Stmt.Checks S looping Γ yes) (hno : Stmt.Checks S looping Γ no) :
    (Stmt.branch cond yes no).check S looping Γ = some Γ := by
  rw [Stmt.check, if_pos ⟨hcond, hyes, hno⟩]

theorem Stmt.check_loop {body : List (Stmt L)} (count : Nat) (hbody : Stmt.Checks S true Γ body) :
    (Stmt.loop count body).check S looping Γ = some Γ := by
  rw [Stmt.check]
  exact if_pos hbody

theorem Stmt.check_result {value : Term L} (hvalue : value.ty? S.functions Γ = some S.ret) :
    (Stmt.result value).check S looping Γ = some Γ := by
  rw [Stmt.check, if_pos hvalue]

end Extension

section Statements

variable [Scalar K]

structure Context.Backs (ctx : Context L K) (S : Scope) : Prop where
  serves : ctx.Serves S.functions
  globals (name : String) : S.globals.lookup name = none → ctx.globals.get? name = none

def Flow.Ends (ret : Ty) (globals : Env K) (looping returns : Bool) (Γ Γ' : Types) (env : Env K) : Flow K → Prop
  | .next => Env.Provides globals env Γ' ∧ returns = false
  | .leave => looping = true ∧ Env.Provides globals env Γ
  | .result v => v.Fits ret

variable {ctx : Context L K} {S : Scope} {env : Env K} {looping returns : Bool} {Γ Γ' : Types}

omit [Scalar K] in
theorem Env.Provides.mono {globals : Env K} (h : Types.Extends Γ Γ') (henv : Env.Provides globals env Γ') :
    Env.Provides globals env Γ :=
  fun name τ hτ => henv name τ (h name τ hτ)

omit [Scalar K] in
theorem Env.Provides.set {globals : Env K} (henv : Env.Provides globals env Γ) {name : String} {v : Value K}
    (hv : ∀ τ, Γ.lookup name = some τ → v.Fits τ) : Env.Provides globals (env.set name v) Γ := by
  intro other τ hτ
  by_cases hname : name = other
  · subst hname
    exact ⟨v, by rw [Env.get?_set_self]; rfl, hv τ hτ⟩
  · rw [Env.get?_set_ne env hname]
    exact henv other τ hτ

omit [Scalar K] in
theorem Env.Provides.declare {globals : Env K} (henv : Env.Provides globals env Γ) {name : String} {v : Value K}
    {τ : Ty} (hname : Γ.lookup name = none) (hv : v.Fits τ) :
    Env.Provides globals (env.set name v) ((name, τ) :: Γ) := by
  intro other σ hσ
  by_cases hother : other = name
  · subst hother
    rw [List.lookup_cons_self] at hσ
    obtain rfl := Option.some.inj hσ
    exact ⟨v, by rw [Env.get?_set_self]; rfl, hv⟩
  · rw [List.lookup_cons, beq_eq_false_iff_ne.2 hother] at hσ
    rw [Env.get?_set_ne env (Ne.symm hother)]
    exact henv other σ hσ

omit [Scalar K] in
theorem Place.write_provides {globals : Env K} {place : Place} {τ : Ty} {v : Value K}
    (hlocal : globals.get? place.name = none) (henv : Env.Provides globals env Γ) (hτ : place.ty? Γ = some τ)
    (hv : v.Fits τ) : ∃ env', place.write v env = .ok env' ∧ Env.Provides globals env' Γ := by
  have hold {σ : Ty} (hσ : Γ.lookup place.name = some σ) :
      ∃ old, env.get? place.name = some old ∧ old.Fits σ := by
    obtain ⟨old, hold, hfits⟩ := henv place.name σ hσ
    rw [hlocal, Option.or_none] at hold
    exact ⟨old, hold, hfits⟩
  unfold Place.write
  cases place with
  | var name =>
      obtain ⟨old, hold, -⟩ := hold hτ
      rw [hold]
      refine ⟨_, rfl, henv.set fun σ hσ => ?_⟩
      obtain rfl := Option.some.inj (hσ.symm.trans hτ)
      exact hv
  | component name i =>
      obtain ⟨σ, hσ, hτ⟩ := Option.bind_eq_some_iff.1 hτ
      obtain ⟨old, hold, hfits⟩ := hold hσ
      rw [hold]
      cases hfits with
      | float | bool | mat => cases hτ
      | @vec xs n hlength =>
          rw [Ty.component?] at hτ
          split at hτ
          · next hi =>
              obtain rfl := Option.some.inj hτ
              cases hv with
              | float x =>
                  rw [← hlength] at hi
                  refine ⟨_, if_pos hi, henv.set fun υ hυ => ?_⟩
                  obtain rfl := Option.some.inj (hυ.symm.trans hσ)
                  exact .vec (by rwa [List.length_set])
          · cases hτ
  | element name col row =>
      obtain ⟨σ, hσ, hτ⟩ := Option.bind_eq_some_iff.1 hτ
      obtain ⟨old, hold, hfits⟩ := hold hσ
      rw [hold]
      cases hfits with
      | float | bool | vec => cases hτ
      | @mat n xs hlength =>
          rw [Ty.element?] at hτ
          split at hτ
          · next hi =>
              obtain rfl := Option.some.inj hτ
              cases hv with
              | float x =>
                  refine ⟨_, if_pos (by simp [hi]), henv.set fun υ hυ => ?_⟩
                  obtain rfl := Option.some.inj (hυ.symm.trans hσ)
                  exact .mat (by rwa [List.length_set])
          · cases hτ

omit [Scalar K] in
theorem Flow.Ends.outside {ret : Ty} {globals : Env K} {returns' : Bool} {flow : Flow K}
    (h : flow.Ends ret globals looping returns Γ Γ' env) (hext : Types.Extends Γ Γ')
    (hreturns : returns = false → returns' = false) : flow.Ends ret globals looping returns' Γ Γ env := by
  cases flow with
  | next => exact ⟨h.1.mono hext, hreturns h.2⟩
  | leave | result => exact h

omit [Scalar K] in
theorem rounds_ends {ret : Ty} {globals : Env K} {body : Env K → Except Fault (Env K × Flow K)}
    (hext : Types.Extends Γ Γ')
    (hbody : ∀ env, Env.Provides globals env Γ →
      ∃ env' flow, body env = .ok (env', flow) ∧ flow.Ends ret globals true returns Γ Γ' env')
    (count : Nat) (henv : Env.Provides globals env Γ) :
    ∃ env' flow, rounds body count env = .ok (env', flow) ∧ flow.Ends ret globals looping false Γ Γ env' := by
  induction count generalizing env with
  | zero => exact ⟨env, .next, rfl, henv, rfl⟩
  | succ count ih =>
      obtain ⟨env₁, flow, hrun, hends⟩ := hbody env henv
      rw [rounds, hrun]
      cases flow with
      | next => exact ih (hends.1.mono hext)
      | leave => exact ⟨env₁, .next, rfl, hends.2, rfl⟩
      | result v => exact ⟨env₁, .result v, rfl, hends⟩

mutual

theorem Stmt.exec_ends (h : ctx.Backs S) : ∀ (s : Stmt L) (looping : Bool) (Γ Γ' : Types) (env : Env K),
    s.check S looping Γ = some Γ' → Env.Provides ctx.globals env Γ →
    ∃ env' flow, s.exec ctx env = .ok (env', flow) ∧
      flow.Ends S.ret ctx.globals looping s.returns Γ Γ' env'
  | .declare ty name value, looping, Γ, Γ', env, hs, henv => by
      rw [Stmt.check] at hs
      split at hs
      · next hnew =>
          obtain rfl := Option.some.inj hs
          obtain ⟨v, hv, hfits⟩ := Term.eval_fits h.serves henv value ty hnew.2
          exact ⟨_, .next, bind_eq_ok_of hv rfl, henv.declare hnew.1 hfits, rfl⟩
      · cases hs
  | .assign place value, looping, Γ, Γ', env, hs, henv => by
      rw [Stmt.check] at hs
      split at hs
      · next hplace =>
          obtain rfl := Option.some.inj hs
          obtain ⟨hlocal, hsome, hvalue⟩ := hplace
          obtain ⟨τ, hτ⟩ := Option.isSome_iff_exists.1 hsome
          obtain ⟨v, hv, hfits⟩ := Term.eval_fits h.serves henv value τ (hvalue.trans hτ)
          obtain ⟨env', hwrite, henv'⟩ := Place.write_provides (h.globals _ hlocal) henv hτ hfits
          exact ⟨env', .next, bind_eq_ok_of hv (bind_eq_ok_of hwrite rfl), henv', rfl⟩
      · cases hs
  | .branch cond yes no, looping, Γ, Γ', env, hs, henv => by
      rw [Stmt.check] at hs
      split at hs
      · next hchecked =>
          obtain rfl := Option.some.inj hs
          obtain ⟨hcond, hyes, hno⟩ := hchecked
          obtain ⟨Γ₁, hyes⟩ := Option.isSome_iff_exists.1 hyes
          obtain ⟨Γ₂, hno⟩ := Option.isSome_iff_exists.1 hno
          obtain ⟨v, hv, hfits⟩ := Term.eval_fits h.serves henv cond .bool hcond
          cases hfits with
          | bool b =>
              rw [Stmt.exec, hv]
              cases b with
              | true =>
                  obtain ⟨env', flow, hrun, hends⟩ := Stmt.execAll_ends h yes looping Γ Γ₁ env hyes henv
                  refine ⟨env', flow, hrun, hends.outside (Stmt.checkAll_extends hyes) fun hreturns => ?_⟩
                  rw [Stmt.returns, hreturns, Bool.false_and]
              | false =>
                  obtain ⟨env', flow, hrun, hends⟩ := Stmt.execAll_ends h no looping Γ Γ₂ env hno henv
                  refine ⟨env', flow, hrun, hends.outside (Stmt.checkAll_extends hno) fun hreturns => ?_⟩
                  rw [Stmt.returns, hreturns, Bool.and_false]
      · cases hs
  | .loop count body, looping, Γ, Γ', env, hs, henv => by
      rw [Stmt.check] at hs
      split at hs
      · next hbody =>
          obtain rfl := Option.some.inj hs
          obtain ⟨Γ₁, hbody⟩ := Option.isSome_iff_exists.1 hbody
          exact rounds_ends (Stmt.checkAll_extends hbody)
            (fun env henv => Stmt.execAll_ends h body true Γ Γ₁ env hbody henv) count henv
      · cases hs
  | .leave, looping, Γ, Γ', env, hs, henv => by
      rw [Stmt.check] at hs
      split at hs
      · next hlooping => exact ⟨env, .leave, rfl, hlooping, henv⟩
      · cases hs
  | .result value, looping, Γ, Γ', env, hs, henv => by
      rw [Stmt.check] at hs
      split at hs
      · next hvalue =>
          obtain ⟨v, hv, hfits⟩ := Term.eval_fits h.serves henv value S.ret hvalue
          exact ⟨env, .result v, bind_eq_ok_of hv rfl, hfits⟩
      · cases hs
  | .comment _, looping, Γ, Γ', env, hs, henv => by
      obtain rfl := Option.some.inj hs
      exact ⟨env, .next, rfl, henv, rfl⟩

theorem Stmt.execAll_ends (h : ctx.Backs S) : ∀ (ss : List (Stmt L)) (looping : Bool) (Γ Γ' : Types) (env : Env K),
    Stmt.checkAll S looping Γ ss = some Γ' → Env.Provides ctx.globals env Γ →
    ∃ env' flow, Stmt.execAll ctx ss env = .ok (env', flow) ∧
      flow.Ends S.ret ctx.globals looping (Stmt.anyReturns ss) Γ Γ' env'
  | [], looping, Γ, Γ', env, hs, henv => by
      obtain rfl := Option.some.inj hs
      exact ⟨env, .next, rfl, henv, rfl⟩
  | s :: ss, looping, Γ, Γ', env, hs, henv => by
      obtain ⟨Γ₁, hfirst, hrest⟩ := Option.bind_eq_some_iff.1 hs
      obtain ⟨env₁, flow, hrun, hends⟩ := Stmt.exec_ends h s looping Γ Γ₁ env hfirst henv
      rw [Stmt.execAll, hrun]
      cases flow with
      | next =>
          obtain ⟨env₂, flow, hrun, hends'⟩ := Stmt.execAll_ends h ss looping Γ₁ Γ' env₁ hrest hends.1
          refine ⟨env₂, flow, hrun, ?_⟩
          cases flow with
          | next => exact ⟨hends'.1, by rw [Stmt.anyReturns, hends.2, hends'.2]; rfl⟩
          | leave => exact ⟨hends'.1, hends'.2.mono (Stmt.check_extends hfirst)⟩
          | result => exact hends'
      | leave => exact ⟨env₁, .leave, rfl, hends⟩
      | result v => exact ⟨env₁, .result v, rfl, hends⟩

end

end Statements

section Functions

namespace Function

def signature (f : Function L) : Signature := ⟨f.params.map (·.1), f.ret⟩

def paramTypes (f : Function L) : Types := f.params.map Prod.swap

/-- A function in order, behind others and beside global variables. -/
structure Checked (globals : Types) (fs : Signatures) (f : Function L) : Prop where
  name : Builtin.ofName? f.name = none
  nodup : (f.params.map (·.2)).Nodup
  apart : ∀ p ∈ f.params, globals.lookup p.2 = none
  body : Stmt.Checks ⟨fs, globals, f.ret⟩ false (f.paramTypes ++ globals) f.body
  returns : Stmt.anyReturns f.body = true

/-- A function in order, with a name and a signature that others rely on. -/
structure Meets (globals : Types) (fs : Signatures) (name : String) (sig : Signature) (f : Function L) : Prop where
  checked : f.Checked globals fs
  name_eq : f.name = name
  signature_eq : f.signature = sig

theorem bind_provides {params : List (Ty × String)} {args : List (Value K)}
    (h : List.Forall₂ Value.Fits args (params.map (·.1))) (hnodup : (params.map (·.2)).Nodup) (name : String)
    (env : Env K) :
    ∃ env', bind name params args env = .ok env' ∧
      (∀ v τ, (params.map Prod.swap).lookup v = some τ → ∃ w, env'.get? v = some w ∧ w.Fits τ) ∧
      ∀ v, (params.map Prod.swap).lookup v = none → env'.get? v = env.get? v := by
  induction params generalizing args env with
  | nil =>
      refine ⟨env, ?_, nofun, fun _ _ => rfl⟩
      rw [bind]
      nofun
  | cons p params ih =>
      obtain ⟨ty, param⟩ := p
      cases h with
      | @cons arg _ args _ hfits hargs =>
          obtain ⟨hnew, hnodup⟩ := List.nodup_cons.1 hnodup
          obtain ⟨env', hbind, hparams, hothers⟩ := ih hargs hnodup (env.set param arg)
          have hparam : (params.map Prod.swap).lookup param = none := by
            rw [List.lookup_eq_none_iff]
            rintro ⟨v, τ⟩ hmem
            obtain ⟨q, hq, hswap⟩ := List.mem_map.1 hmem
            rw [bne_iff_ne]
            rintro rfl
            exact hnew (List.mem_map.2 ⟨q, hq, congrArg Prod.fst hswap⟩)
          refine ⟨env', ?_, fun v τ hτ => ?_, fun v hv => ?_⟩
          · rw [bind, if_pos hfits.ty_eq]
            exact hbind
          · rw [List.map_cons, Prod.swap_prod_mk, List.lookup_cons] at hτ
            by_cases hv : v = param
            · subst hv
              rw [beq_self_eq_true] at hτ
              obtain rfl := Option.some.inj hτ
              refine ⟨arg, ?_, hfits⟩
              rw [hothers v hparam, Env.get?_set_self]
            · rw [beq_eq_false_iff_ne.2 hv] at hτ
              exact hparams v τ hτ
          · rw [List.map_cons, Prod.swap_prod_mk, List.lookup_cons] at hv
            by_cases hvp : v = param
            · rw [hvp, beq_self_eq_true] at hv
              cases hv
            · rw [beq_eq_false_iff_ne.2 hvp] at hv
              rw [hothers v hv, Env.get?_set_ne env (Ne.symm hvp)]

end Function

/-- Global variables are there as declared, and no others. -/
structure Env.Matches (globals : Env K) (types : Types) : Prop where
  some (name : String) (τ : Ty) : types.lookup name = some τ → ∃ v, globals.get? name = .some v ∧ v.Fits τ
  none (name : String) : types.lookup name = none → globals.get? name = .none

variable [Scalar K] {ctx : Context L K} {fs : Signatures} {types : Types} {f : Function L}

theorem Function.Checked.run (h : f.Checked types fs) (hctx : ctx.Serves fs) (hglobals : ctx.globals.Matches types)
    {args : List (Value K)} (hargs : List.Forall₂ Value.Fits args f.signature.params) :
    ∃ v, f.run ctx args = .ok v ∧ v.Fits f.ret := by
  obtain ⟨env, hbind, hparams, hothers⟩ := Function.bind_provides hargs h.nodup f.name []
  have henv : Env.Provides ctx.globals env (f.paramTypes ++ types) := by
    intro v τ hτ
    rw [List.lookup_append] at hτ
    cases hv : f.paramTypes.lookup v with
    | some σ =>
        rw [hv] at hτ
        obtain rfl := Option.some.inj hτ
        obtain ⟨w, hw, hfits⟩ := hparams v σ hv
        exact ⟨w, by rw [hw]; rfl, hfits⟩
    | none =>
        rw [hv] at hτ
        obtain ⟨w, hw, hfits⟩ := hglobals.some v τ hτ
        exact ⟨w, by rw [hothers v hv, hw]; rfl, hfits⟩
  obtain ⟨Γ, hbody⟩ := Option.isSome_iff_exists.1 h.body
  have hbacks : ctx.Backs ⟨fs, types, f.ret⟩ := ⟨hctx, hglobals.none⟩
  obtain ⟨env', flow, hrun, hends⟩ := Stmt.execAll_ends hbacks f.body false _ Γ env hbody henv
  have hlength : f.params.length = args.length := by simpa [Function.signature] using hargs.length_eq.symm
  rw [Function.run, if_pos hlength, hbind]
  cases flow with
  | next => exact absurd (h.returns.symm.trans hends.2) (by decide)
  | leave => exact absurd hends.1 (by decide)
  | result v => exact ⟨v, bind_eq_ok_of rfl (bind_eq_ok_of hrun rfl), hends⟩

end Functions

section Modules

def signatures (fs : List (Function L)) : Signatures := fs.map fun f => (f.name, f.signature)

/-- Every function is in order behind those before it, and has a name of its own. -/
inductive AllChecked (types : Types) : List (Function L) → Prop
  | nil : AllChecked types []
  | snoc {fs : List (Function L)} {f : Function L} : AllChecked types fs → f.Checked types (signatures fs) →
      f.name ∉ fs.map (·.name) → AllChecked types (fs ++ [f])

def Uniform.entry (u : Uniform) : String × Ty := (u.name, u.ty)

def Global.entry (c : Global L) : String × Ty := (c.name, c.ty)

namespace Module

def types (m : Module L) : Types := m.uniforms.map Uniform.entry ++ m.constants.map Global.entry

structure Checked (m : Module L) : Prop where
  functions : AllChecked m.types m.functions
  constants : ∀ c ∈ m.constants, c.value.ty? [] [] = some c.ty
  nodup : (m.types.map (·.1)).Nodup

end Module

variable {types : Types} {fs : List (Function L)} {m : Module L}

theorem AllChecked.nodup (h : AllChecked types fs) : (fs.map (·.name)).Nodup := by
  induction h with
  | nil => exact List.nodup_nil
  | snoc _ _ hnew ih =>
      rw [List.map_append, List.map_singleton]
      refine List.nodup_append.2 ⟨ih, by simp, fun a ha b hb hab => hnew ?_⟩
      rwa [← List.mem_singleton.1 hb, ← hab]

theorem AllChecked.not_builtin (h : AllChecked types fs) : ∀ f ∈ fs, Builtin.ofName? f.name = none := by
  induction h with
  | nil => nofun
  | snoc _ hf _ ih =>
      intro g hg
      rcases List.mem_append.1 hg with hg | hg
      · exact ih g hg
      · rw [List.mem_singleton.1 hg]
        exact hf.name

theorem exists_of_lookup_signatures {name : String} {sig : Signature} (h : (signatures fs).lookup name = some sig) :
    ∃ f ∈ fs, f.name = name ∧ f.signature = sig := by
  obtain ⟨l₁, l₂, hl, -⟩ := List.lookup_eq_some_iff.1 h
  have hmem : (name, sig) ∈ signatures fs := by
    rw [hl]
    exact List.mem_append_right _ List.mem_cons_self
  obtain ⟨f, hf, hpair⟩ := List.mem_map.1 hmem
  exact ⟨f, hf, congrArg Prod.fst hpair, congrArg Prod.snd hpair⟩

theorem Module.function?_of_mem (hnodup : m.functionNames.Nodup) {f : Function L} (hf : f ∈ m.functions) :
    m.function? f.name = some f := by
  obtain ⟨before, after, hsplit⟩ := List.append_of_mem hf
  unfold Module.function?
  rw [Module.functionNames, hsplit, List.map_append, List.map_cons] at hnodup
  have hbefore : before.find? (fun g => g.name == f.name) = none := by
    rw [List.find?_eq_none]
    intro g hg hname
    exact (List.nodup_append.1 hnodup).2.2 g.name (List.mem_map_of_mem hg) f.name List.mem_cons_self (eq_of_beq hname)
  rw [hsplit, List.find?_append, hbefore, List.find?_cons, beq_self_eq_true]
  rfl

theorem Module.Checked.defines_eq_false (h : m.Checked) {name : String} {b : Builtin}
    (hb : Builtin.ofName? name = some b) : m.defines name = false := by
  rw [Module.defines, List.any_eq_false]
  intro f hf hname
  rw [← eq_of_beq hname, h.functions.not_builtin f hf] at hb
  cases hb

variable [Scalar K] {literal : L → K} {globals : Env K}

/-- A call needs one level of depth for each function up to the one that is called. -/
theorem Module.Checked.callAt (h : m.Checked) (hglobals : globals.Matches m.types) {fs : List (Function L)}
    (hfs : AllChecked m.types fs) (hmodule : ∀ f ∈ fs, f ∈ m.functions) {depth : Nat} (hdepth : fs.length ≤ depth) :
    ∀ f ∈ fs, ∀ args, List.Forall₂ Value.Fits args f.signature.params →
      ∃ v, m.callAt literal globals depth f.name args = .ok v ∧ v.Fits f.ret := by
  induction hfs generalizing depth with
  | nil => nofun
  | @snoc fs f hfs hf hnew ih =>
      intro g hg args hargs
      rw [List.length_append, List.length_singleton] at hdepth
      have hbefore : ∀ g ∈ fs, g ∈ m.functions := fun g hg => hmodule g (List.mem_append_left _ hg)
      rcases List.mem_append.1 hg with hg | hg
      · exact ih hbefore (Nat.le_of_succ_le hdepth) g hg args hargs
      · obtain rfl := List.mem_singleton.1 hg
        have hmem : g ∈ m.functions := hmodule g (List.mem_append_right _ hg)
        obtain ⟨depth, rfl⟩ : ∃ d, depth = d + 1 := ⟨depth - 1, by omega⟩
        rw [Module.callAt, Module.function?_of_mem h.functions.nodup hmem]
        -- A callee stands before its caller, so the depth that is left is enough for it.
        refine hf.run ⟨fun name b hb => ?_, fun name sig hsig => ?_⟩ hglobals hargs
        · exact if_neg (by rw [h.defines_eq_false hb]; exact Bool.false_ne_true)
        · obtain ⟨callee, hcallee, rfl, rfl⟩ := exists_of_lookup_signatures hsig
          have hdefines : m.defines callee.name = true :=
            List.any_eq_true.2 ⟨callee, hbefore callee hcallee, beq_self_eq_true _⟩
          exact ⟨_, if_pos hdefines, fun args hargs => ih hbefore (Nat.le_of_succ_le_succ hdepth) callee hcallee args hargs⟩

section Globals

omit [Scalar K] in
theorem Env.Matches.add (h : globals.Matches types) {name : String} {v : Value K} {τ : Ty}
    (hname : types.lookup name = .none) (hv : v.Fits τ) : (globals.set name v).Matches (types ++ [(name, τ)]) := by
  refine ⟨fun other σ hσ => ?_, fun other hother => ?_⟩
  · rw [List.lookup_append, List.lookup_cons] at hσ
    by_cases hne : name = other
    · subst hne
      rw [hname, beq_self_eq_true] at hσ
      obtain rfl := Option.some.inj hσ
      exact ⟨v, Env.get?_set_self _ _ _, hv⟩
    · rw [beq_eq_false_iff_ne.2 (Ne.symm hne), List.lookup_nil, Option.or_none] at hσ
      rw [Env.get?_set_ne _ hne]
      exact h.some other σ hσ
  · rw [List.lookup_append, Option.or_eq_none_iff, List.lookup_cons] at hother
    have hne : name ≠ other := by
      rintro rfl
      rw [beq_self_eq_true] at hother
      cases hother.2
    rw [Env.get?_set_ne _ hne]
    exact h.none other hother.1

omit [Scalar K] in
/-- A global variable may be given any value of its type. -/
theorem Env.Matches.set (h : globals.Matches types) {name : String} {v : Value K} {τ : Ty}
    (hname : types.lookup name = .some τ) (hv : v.Fits τ) : (globals.set name v).Matches types := by
  refine ⟨fun other σ hσ => ?_, fun other hother => ?_⟩
  · by_cases hne : name = other
    · subst hne
      obtain rfl := Option.some.inj (hσ.symm.trans hname)
      exact ⟨v, Env.get?_set_self _ _ _, hv⟩
    · rw [Env.get?_set_ne _ hne]
      exact h.some other σ hσ
  · have hne : name ≠ other := by
      rintro rfl
      rw [hname] at hother
      cases hother
    rw [Env.get?_set_ne _ hne]
    exact h.none other hother

theorem lookup_eq_none_of_nodup {before after : Types} {name : String} {τ : Ty}
    (h : ((before ++ (name, τ) :: after).map (·.1)).Nodup) : before.lookup name = none := by
  rw [List.map_append, List.map_cons] at h
  rw [List.lookup_eq_none_iff]
  intro p hp
  rw [bne_iff_ne]
  exact ((List.nodup_append.1 h).2.2 p.1 (List.mem_map_of_mem hp) name List.mem_cons_self).symm

theorem foldl_uniforms_matches {us : List Uniform} (h : globals.Matches types)
    (hnodup : ((types ++ us.map Uniform.entry).map (·.1)).Nodup) :
    (us.foldl (fun env u => env.set u.name (.zero u.ty)) globals).Matches (types ++ us.map Uniform.entry) := by
  induction us generalizing globals types with
  | nil => simpa using h
  | cons u us ih =>
      rw [List.map_cons] at hnodup ⊢
      have hadd := h.add (lookup_eq_none_of_nodup hnodup) (Value.fits_zero u.ty)
      rw [List.append_cons] at hnodup ⊢
      exact ih hadd hnodup

theorem Module.Checked.evalConstants (h : m.Checked) {cs : List (Global L)} (hcs : ∀ c ∈ cs, c ∈ m.constants)
    (hglobals : globals.Matches types) (hnodup : ((types ++ cs.map Global.entry).map (·.1)).Nodup) :
    ∃ globals', m.evalConstants literal cs globals = .ok globals' ∧
      globals'.Matches (types ++ cs.map Global.entry) := by
  induction cs generalizing globals types with
  | nil => exact ⟨globals, rfl, by simpa using hglobals⟩
  | cons c cs ih =>
      obtain ⟨hc, hcs⟩ := List.forall_mem_cons.1 hcs
      rw [List.map_cons] at hnodup ⊢
      let ctx : Context L K := ⟨literal, globals, fun callee =>
        if m.defines callee then some (m.callAt literal globals (Module.maxDepth - 1) callee) else none⟩
      have hserves : ctx.Serves [] := ⟨fun name b hb => by simp [ctx, h.defines_eq_false hb], nofun⟩
      have hnone : Env.Provides ctx.globals ([] : Env K) [] := nofun
      obtain ⟨v, hv, hfits⟩ := Term.eval_fits hserves hnone c.value c.ty (h.constants c hc)
      have hadd := hglobals.add (lookup_eq_none_of_nodup hnodup) hfits
      rw [List.append_cons] at hnodup ⊢
      obtain ⟨globals', hrun, hmatches⟩ := ih hcs hadd hnodup
      exact ⟨globals', bind_eq_ok_of hv hrun, hmatches⟩

theorem Module.Checked.exists_globals (h : m.Checked) (literal : L → K) :
    ∃ globals : Env K, m.globals literal = .ok globals ∧ globals.Matches m.types := by
  have hempty : Env.Matches ([] : Env K) [] := ⟨nofun, fun _ _ => rfl⟩
  have hnodup := h.nodup
  have huniforms : ((([] : Types) ++ m.uniforms.map Uniform.entry).map (·.1)).Nodup := by
    rw [Module.types, List.map_append] at hnodup
    exact (List.nodup_append.1 hnodup).1
  exact h.evalConstants (fun c hc => hc) (foldl_uniforms_matches hempty huniforms) hnodup

/-- Calls of a checked module return values of the types that its functions declare. -/
theorem Module.Checked.call (h : m.Checked) (hglobals : globals.Matches m.types)
    (hlength : m.functions.length ≤ Module.maxDepth) {f : Function L} (hf : f ∈ m.functions) {args : List (Value K)}
    (hargs : List.Forall₂ Value.Fits args f.signature.params) :
    ∃ v, m.call literal globals f.name args = .ok v ∧ v.Fits f.ret :=
  h.callAt hglobals h.functions (fun _ hf => hf) hlength f hf args hargs

end Globals

end Modules

end FlowShader.Shader
