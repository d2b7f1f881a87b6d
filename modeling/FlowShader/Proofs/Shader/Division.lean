import FlowShader.Proofs.Shader.Execution

namespace FlowShader.Shader

variable {L K : Type}

def Value.numbers : Value K → List K
  | .float x => [x]
  | .bool _ => []
  | .vec xs | .mat _ xs => xs

/-- What an operator divides its first operand by. -/
def BinOp.divisors : BinOp → Value K → List K
  | .div, b => b.numbers
  | _, _ => []

variable [Scalar K]

/-- Remainders and directions are computed with quotients. -/
def Builtin.divisors : Builtin → List (Value K) → List K
  | .mod, [_, b] => b.numbers
  | .func .normalize, [.vec xs] => [Value.norm xs]
  | _, _ => []

/-- What running code divides by, where `inner` tells it for the functions of the module. -/
structure Divisions (L K : Type) where
  ctx : Context L K
  inner : String → List (Value K) → List K

namespace Divisions

def apply (D : Divisions L K) (name : String) (args : List (Value K)) : List K :=
  match D.ctx.call? name with
  | some _ => D.inner name args
  | none => ((Builtin.ofName? name).map (·.divisors args)).getD []

mutual

def term (D : Divisions L K) (env : Env K) : Term L → List K
  | .float _ | .bool _ | .var _ => []
  | .component base _ | .element base _ _ => term D env base
  | .neg a | .not a => term D env a
  | .binary o a b => term D env a ++ term D env b ++
    match b.eval D.ctx env with
    | .ok y => o.divisors y
    | .error _ => []
  | .call name args => terms D env args ++
    match Term.evalAll D.ctx env args with
    | .ok vs => D.apply name vs
    | .error _ => []
  | .construct _ args => terms D env args

def terms (D : Divisions L K) (env : Env K) : List (Term L) → List K
  | [] => []
  | t :: ts => term D env t ++ terms D env ts

end

/-- The divisors of a loop that is run up to `count` times. -/
def rounds (D : Divisions L K) (body : List (Stmt L)) (divisors : Env K → List K) : Nat → Env K → List K
  | 0, _ => []
  | count + 1, env => divisors env ++
    match Stmt.execAll D.ctx body env with
    | .ok (env, .next) => rounds D body divisors count env
    | _ => []

mutual

def stmt (D : Divisions L K) : Stmt L → Env K → List K
  | .declare _ _ value, env | .assign _ value, env | .result value, env => D.term env value
  | .branch cond yes no, env => D.term env cond ++
    match cond.eval D.ctx env with
    | .ok (.bool true) => stmts D yes env
    | .ok (.bool false) => stmts D no env
    | _ => []
  | .loop count body, env => D.rounds body (fun env => stmts D body env) count env
  | .leave, _ | .comment _, _ => []

def stmts (D : Divisions L K) : List (Stmt L) → Env K → List K
  | [], _ => []
  | s :: ss, env => stmt D s env ++
    match s.exec D.ctx env with
    | .ok (env, .next) => stmts D ss env
    | _ => []

end

end Divisions

def Function.divisors (f : Function L) (D : Divisions L K) (args : List (Value K)) : List K :=
  match bind f.name f.params args [] with
  | .ok env => D.stmts f.body env
  | .error _ => []

namespace Module

def divisorsAt (m : Module L) (literal : L → K) (globals : Env K) : Nat → String → List (Value K) → List K
  | 0, _, _ => []
  | depth + 1, name, args =>
    match m.function? name with
    | none => []
    | some f => f.divisors ⟨m.context literal globals depth, divisorsAt m literal globals depth⟩ args

def divisors (m : Module L) (literal : L → K) (globals : Env K) (name : String) (args : List (Value K)) : List K :=
  m.divisorsAt literal globals maxDepth name args

end Module

section Congruence

/-- The same scalars with another division. -/
abbrev redivided (d : K → K → K) : Scalar K := { ‹Scalar K› with div := d }

def Keeps (d : K → K → K) (ys : List K) : Prop := ∀ y ∈ ys, ∀ x, d x y = x / y

variable {d : K → K → K}

theorem keeps_append {ys zs : List K} : Keeps d (ys ++ zs) ↔ Keeps d ys ∧ Keeps d zs := List.forall_mem_append

omit [Scalar K] in
theorem Value.zip_congr {f g : K → K → K} (construct : String) (a : Value K) {b : Value K}
    (h : ∀ y ∈ b.numbers, ∀ x, f x y = g x y) : a.zip construct f b = a.zip construct g b := by
  have hzip (xs ys : List K) (hys : ∀ y ∈ ys, ∀ x, f x y = g x y) : xs.zipWith f ys = xs.zipWith g ys := by
    rw [← List.map_uncurry_zip_eq_zipWith, ← List.map_uncurry_zip_eq_zipWith]
    exact List.map_congr_left fun z hz => hys z.2 (List.of_mem_zip hz).2 z.1
  have hmap (x : K) (ys : List K) (hys : ∀ y ∈ ys, ∀ x, f x y = g x y) : ys.map (f x) = ys.map (g x) :=
    List.map_congr_left fun y hy => hys y hy x
  cases b with
  | bool b => cases a <;> rfl
  | float y =>
      have hy : (f · y) = (g · y) := funext (h y (List.mem_singleton_self y))
      cases a with
      | float x => exact congrArg (fun x => Except.ok (Value.float x)) (congrFun hy x)
      | bool b => rfl
      | vec xs | mat n xs => simp only [zip, map, hy]
  | vec ys | mat m ys =>
      cases a with
      | float x => simp only [zip, map, hmap x ys h]
      | bool b => rfl
      | vec xs | mat n xs => simp only [zip, hzip xs ys h]

theorem BinOp.eval_redivided (o : BinOp) (a : Value K) {b : Value K} (h : Keeps d (o.divisors b)) :
    @BinOp.eval K (redivided d) o a b = o.eval a b := by
  cases o with
  | div => exact Value.zip_congr "/" a h
  | _ => rfl

theorem Builtin.eval_redivided (b : Builtin) (name : String) {args : List (Value K)} (h : Keeps d (b.divisors args)) :
    @Builtin.eval K (redivided d) b name args = b.eval name args := by
  cases b with
  | mod =>
      match args with
      | [x, y] =>
          refine Value.zip_congr name x fun v hv u => ?_
          exact congrArg (fun q => u - v * Scalar.floor q) (h v hv u)
      | [] | [_] | _ :: _ :: _ :: _ => rfl
  | func f =>
      match args with
      | [x] =>
          cases f with
          | normalize =>
              cases x with
              | vec xs =>
                  refine congrArg (fun xs => Except.ok (Value.vec xs)) (List.map_congr_left fun x _ => ?_)
                  exact h _ (List.mem_singleton_self _) x
              | _ => rfl
          | _ => cases x <;> rfl
      | [] => cases f <;> rfl
      | x :: _ :: _ => cases f <;> cases x <;> rfl
  | _ => rcases args with _ | ⟨_, _ | ⟨_, _ | ⟨_, _ | _⟩⟩⟩ <;> rfl

/-- A context for the other division, where the functions of the module return the same if they divide by kept numbers
only. -/
structure Divisions.Agrees (D : Divisions L K) (d : K → K → K) (ctx : Context L K) : Prop where
  literal : ctx.literal = D.ctx.literal
  globals : ctx.globals = D.ctx.globals
  call (name : String) (args : List (Value K)) : Keeps d (D.apply name args) →
    @Context.apply L K (redivided d) ctx name args = D.ctx.apply name args

variable {D : Divisions L K} {ctx : Context L K} {env : Env K}

mutual

theorem Term.eval_redivided (hctx : D.Agrees d ctx) : ∀ t : Term L, Keeps d (D.term env t) →
    @Term.eval L K (redivided d) ctx env t = t.eval D.ctx env
  | .float x, _ => congrArg (fun literal : L → K => Except.ok (Value.float (literal x))) hctx.literal
  | .bool _, _ => rfl
  | .var name, _ => congrArg (fun globals : Env K => match (env.get? name).or (globals.get? name) with
      | some v => Except.ok v
      | none => Except.error (Fault.unknownVariable name)) hctx.globals
  | .component base i, h =>
      congrArg (fun r : Except Fault (Value K) => do return Value.float (← (← r).component i))
        (eval_redivided hctx base h)
  | .element base col row, h =>
      congrArg (fun r : Except Fault (Value K) => do return Value.float (← (← r).element col row))
        (eval_redivided hctx base h)
  | .neg a, h => congrArg (fun r : Except Fault (Value K) => do (← r).map "negation" (- ·)) (eval_redivided hctx a h)
  | .not a, h =>
      congrArg (fun r : Except Fault (Value K) => do return (.bool !(← (← r).toBool) : Value K))
        (eval_redivided hctx a h)
  | .binary o a b, h => by
      simp only [Divisions.term, keeps_append] at h
      obtain ⟨⟨ha, hb⟩, ho⟩ := h
      have heval : @Term.eval L K (redivided d) ctx env (.binary o a b) =
          (a.eval D.ctx env >>= fun x => b.eval D.ctx env >>= fun y => @BinOp.eval K (redivided d) o x y) := by
        rw [← eval_redivided hctx a ha, ← eval_redivided hctx b hb]
        rfl
      rw [heval, Term.eval]
      cases hy : b.eval D.ctx env with
      | error fault => rfl
      | ok y =>
          rw [hy] at ho
          exact congrArg _ (funext fun x => BinOp.eval_redivided o x ho)
  | .call name args, h => by
      simp only [Divisions.term, keeps_append] at h
      obtain ⟨hargs, hcall⟩ := h
      have heval : @Term.eval L K (redivided d) ctx env (.call name args) =
          (Term.evalAll D.ctx env args >>= @Context.apply L K (redivided d) ctx name) :=
        congrArg (· >>= @Context.apply L K (redivided d) ctx name) (evalAll_redivided hctx args hargs)
      rw [heval, Term.eval]
      cases hvs : Term.evalAll D.ctx env args with
      | error fault => rfl
      | ok vs =>
          rw [hvs] at hcall
          exact hctx.call name vs hcall
  | .construct ty args, h => congrArg (· >>= Value.construct ty) (evalAll_redivided hctx args h)

theorem Term.evalAll_redivided (hctx : D.Agrees d ctx) : ∀ ts : List (Term L), Keeps d (D.terms env ts) →
    @Term.evalAll L K (redivided d) ctx env ts = Term.evalAll D.ctx env ts
  | [], _ => rfl
  | t :: ts, h => by
      obtain ⟨ht, hts⟩ := keeps_append.1 h
      have heval := congr (congrArg (fun v vs => v >>= fun v => vs >>= fun vs => Except.ok (v :: vs))
        (eval_redivided hctx t ht)) (evalAll_redivided hctx ts hts)
      exact heval

end

theorem rounds_redivided {body : List (Stmt L)} {divisors : Env K → List K}
    (hbody : ∀ env, Keeps d (divisors env) →
      @Stmt.execAll L K (redivided d) ctx body env = Stmt.execAll D.ctx body env) (count : Nat) (env : Env K)
    (h : Keeps d (D.rounds body divisors count env)) :
    rounds (fun env => @Stmt.execAll L K (redivided d) ctx body env) count env =
      rounds (fun env => Stmt.execAll D.ctx body env) count env := by
  induction count generalizing env with
  | zero => rfl
  | succ count ih =>
      obtain ⟨hfirst, hrest⟩ := keeps_append.1 h
      rw [rounds, rounds, hbody env hfirst]
      rcases hexec : Stmt.execAll D.ctx body env with fault | ⟨env', flow⟩
      · rfl
      · rw [hexec] at hrest
        cases flow with
        | next => exact ih env' hrest
        | leave | result v => rfl

mutual

theorem Stmt.exec_redivided (hctx : D.Agrees d ctx) : ∀ (s : Stmt L) (env : Env K), Keeps d (D.stmt s env) →
    @Stmt.exec L K (redivided d) ctx s env = s.exec D.ctx env
  | .declare _ name value, env, h =>
      congrArg (fun r : Except Fault (Value K) => do return (env.set name (← r), (.next : Flow K)))
        (Term.eval_redivided hctx value h)
  | .assign place value, env, h =>
      congrArg (fun r : Except Fault (Value K) => do return (← place.write (← r) env, (.next : Flow K)))
        (Term.eval_redivided hctx value h)
  | .branch cond yes no, env, h => by
      obtain ⟨hcond, h⟩ := keeps_append.1 h
      have hexec : @Stmt.exec L K (redivided d) ctx (.branch cond yes no) env =
          (cond.eval D.ctx env >>= fun v => v.toBool >>= fun b =>
            if b then @Stmt.execAll L K (redivided d) ctx yes env else @Stmt.execAll L K (redivided d) ctx no env) := by
        rw [← Term.eval_redivided hctx cond hcond]
        rfl
      rw [hexec, Stmt.exec]
      rcases hv : cond.eval D.ctx env with fault | v
      · rfl
      · rw [hv] at h
        match v with
        | .bool true => exact execAll_redivided hctx yes env h
        | .bool false => exact execAll_redivided hctx no env h
        | .float _ | .vec _ | .mat _ _ => rfl
  | .loop count body, env, h =>
      rounds_redivided (fun env => execAll_redivided hctx body env) count env h
  | .leave, _, _ => rfl
  | .result value, env, h =>
      congrArg (fun r : Except Fault (Value K) => do return (env, Flow.result (← r))) (Term.eval_redivided hctx value h)
  | .comment _, _, _ => rfl

theorem Stmt.execAll_redivided (hctx : D.Agrees d ctx) : ∀ (ss : List (Stmt L)) (env : Env K),
    Keeps d (D.stmts ss env) → @Stmt.execAll L K (redivided d) ctx ss env = Stmt.execAll D.ctx ss env
  | [], _, _ => rfl
  | s :: ss, env, h => by
      obtain ⟨hs, hss⟩ := keeps_append.1 h
      rw [@Stmt.execAll.eq_2 L K (redivided d), Stmt.execAll, exec_redivided hctx s env hs]
      rcases hexec : s.exec D.ctx env with fault | ⟨env', flow⟩
      · rfl
      · rw [hexec] at hss
        cases flow with
        | next => exact execAll_redivided hctx ss env' hss
        | leave | result v => rfl

end

theorem Function.run_redivided (hctx : D.Agrees d ctx) (f : Function L) (args : List (Value K))
    (h : Keeps d (f.divisors D args)) : @Function.run L K (redivided d) f ctx args = f.run D.ctx args := by
  rw [@Function.run.eq_1 L K (redivided d), Function.run]
  rw [Function.divisors] at h
  cases henv : bind f.name f.params args [] with
  | error fault => rfl
  | ok env =>
      rw [henv] at h
      have hbody := Stmt.execAll_redivided hctx f.body env h
      simp only [Bind.bind, Except.bind, hbody]

theorem Module.callAt_redivided (m : Module L) (literal : L → K) (globals : Env K) (depth : Nat) (name : String)
    (args : List (Value K)) (h : Keeps d (m.divisorsAt literal globals depth name args)) :
    @Module.callAt L K (redivided d) m literal globals depth name args = m.callAt literal globals depth name args := by
  induction depth generalizing name args with
  | zero => rfl
  | succ depth ih =>
      have hagrees : Divisions.Agrees ⟨m.context literal globals depth, m.divisorsAt literal globals depth⟩ d
          (@Module.context L K (redivided d) m literal globals depth) := by
        refine ⟨rfl, rfl, fun callee vs hvs => ?_⟩
        rw [@Context.apply.eq_1 L K (redivided d), Context.apply, @Module.context.eq_1 L K (redivided d),
          Module.context]
        rw [Divisions.apply, Module.context] at hvs
        cases hdefines : m.defines callee with
        | true =>
            simp only [hdefines, if_true] at hvs ⊢
            exact ih callee vs hvs
        | false =>
            simp only [hdefines, Bool.false_eq_true, if_false] at hvs ⊢
            cases hb : Builtin.ofName? callee with
            | none => rfl
            | some b =>
                rw [hb] at hvs
                exact Builtin.eval_redivided b callee hvs
      rw [Module.divisorsAt] at h
      rw [@Module.callAt.eq_2 L K (redivided d), Module.callAt]
      cases hf : m.function? name with
      | none => rfl
      | some f =>
          rw [hf] at h
          exact Function.run_redivided hagrees f args h

end Congruence

section Divisors

variable {D : Divisions L K} {P Q R : Env K → Prop} {s : Stmt L} {ss ts : List (Stmt L)} {p : K → Prop}

theorem Divisions.stmts_append {env env' : Env K} (h : Stmt.execAll D.ctx ss env = .ok (env', .next)) :
    D.stmts (ss ++ ts) env = D.stmts ss env ++ D.stmts ts env' := by
  induction ss generalizing env with
  | nil =>
      obtain rfl : env = env' := congrArg Prod.fst (Except.ok.inj h)
      rfl
  | cons s ss ih =>
      rw [List.cons_append, stmts, stmts, List.append_assoc]
      rw [Stmt.execAll] at h
      obtain ⟨⟨env₁, flow⟩, hs, h⟩ := exists_of_bind_eq_ok h
      rw [hs]
      cases flow with
      | next => exact congrArg _ (ih h)
      | leave | result v => cases h

theorem Divisions.stmts_eq_nil (h : ∀ s ∈ ss, ∀ env, D.stmt s env = []) {env : Env K} : D.stmts ss env = [] := by
  induction ss generalizing env with
  | nil => rfl
  | cons s ss ih =>
      obtain ⟨hs, hss⟩ := List.forall_mem_cons.1 h
      rw [stmts, hs env, List.nil_append]
      split
      · exact ih hss
      · rfl

theorem Divisions.term_binary_eq_nil {env : Env K} {o : BinOp} (ho : o ≠ .div) {a b : Term L} (ha : D.term env a = [])
    (hb : D.term env b = []) : D.term env (.binary o a b) = [] := by
  have hdivisors (y : Value K) : o.divisors y = [] := by
    cases o with
    | div => exact absurd rfl ho
    | _ => rfl
  rw [term, ha, hb]
  split
  · exact hdivisors _
  · rfl

theorem Divisions.term_div_var {env : Env K} (t : Term L) {name : String} {v : Value K} (h : env.get? name = some v) :
    D.term env (.binary .div t (.var name)) = D.term env t ++ v.numbers := by
  rw [term, Term.eval_var h, term, List.append_nil]
  rfl

theorem Divisions.stmt_branch_eq_nil {env : Env K} {cond : Term L} {yes no : List (Stmt L)}
    (hcond : D.term env cond = []) (hyes : D.stmts yes env = []) (hno : D.stmts no env = []) :
    D.stmt (.branch cond yes no) env = [] := by
  rw [stmt, hcond, List.nil_append]
  split
  · exact hyes
  · exact hno
  · rfl

namespace Stmt

def DividesBy (D : Divisions L K) (P : Env K → Prop) (ss : List (Stmt L)) (p : K → Prop) : Prop :=
  ∀ env, P env → ∀ y ∈ D.stmts ss env, p y

namespace DividesBy

theorem append (h : DividesBy D P ss p) (hss : Takes D.ctx P ss Q) (h' : DividesBy D Q ts p) :
    DividesBy D P (ss ++ ts) p := by
  intro env hP y hy
  obtain ⟨env', hexec, hQ⟩ := hss env hP
  rw [Divisions.stmts_append hexec] at hy
  rcases List.mem_append.1 hy with hy | hy
  · exact h env hP y hy
  · exact h' env' hQ y hy

theorem single (h : ∀ env, P env → ∀ y ∈ D.stmt s env, p y) : DividesBy D P [s] p := by
  intro env hP y hy
  have hsingle : D.stmts [s] env = D.stmt s env := by
    rw [Divisions.stmts]
    split <;> simp [Divisions.stmts]
  exact h env hP y (hsingle ▸ hy)

theorem of_forall (h : ∀ s ∈ ss, Takes D.ctx P [s] P ∧ DividesBy D P [s] p) : DividesBy D P ss p := by
  induction ss with
  | nil => exact fun env hP y hy => absurd hy List.not_mem_nil
  | cons s ss ih =>
      obtain ⟨⟨htakes, hs⟩, hss⟩ := List.forall_mem_cons.1 h
      exact hs.append htakes (ih hss)

theorem of_forall_nil (h : ∀ s ∈ ss, ∀ env, D.stmt s env = []) : DividesBy D P ss p := by
  intro env _ y hy
  rw [Divisions.stmts_eq_nil h] at hy
  exact absurd hy List.not_mem_nil

theorem flatMap {ι : Type} {code : ι → List (Stmt L)} {is : List ι}
    (h : ∀ i ∈ is, Takes D.ctx P (code i) P ∧ DividesBy D P (code i) p) : DividesBy D P (is.flatMap code) p := by
  induction is with
  | nil => exact fun env hP y hy => absurd hy List.not_mem_nil
  | cons i is ih =>
      obtain ⟨⟨htakes, hi⟩, his⟩ := List.forall_mem_cons.1 h
      exact hi.append htakes (ih his)

end DividesBy

end Stmt

end Divisors

end FlowShader.Shader
