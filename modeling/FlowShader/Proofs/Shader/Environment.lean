import FlowShader.Shader.Interpreter

namespace FlowShader.Shader

variable {L K : Type}

namespace Env

theorem get?_set (env : Env K) (name other : String) (v : Value K) :
    (env.set name v).get? other = if name = other then some v else env.get? other := by
  induction env with
  | nil => simp [set, get?]
  | cons entry rest ih =>
      obtain ⟨n, w⟩ := entry
      by_cases hn : n = name
      · subst hn
        by_cases ho : n = other <;> simp [set, get?, ho]
      · by_cases ho : n = other
        · subst ho
          simp [set, get?, hn, Ne.symm hn]
        · simp [set, get?, hn, ho, ih]

theorem get?_set_self (env : Env K) (name : String) (v : Value K) : (env.set name v).get? name = some v := by
  simp [get?_set]

theorem get?_set_ne (env : Env K) {name other : String} (h : name ≠ other) (v : Value K) :
    (env.set name v).get? other = env.get? other := by
  simp [get?_set, h]

theorem set_set (env : Env K) (name : String) (v w : Value K) : (env.set name v).set name w = env.set name w := by
  induction env with
  | nil => simp [set]
  | cons entry rest ih =>
      obtain ⟨n, u⟩ := entry
      by_cases hn : n = name
      · simp [set, hn]
      · simp [set, hn, ih]

theorem set_eq_self {env : Env K} {name : String} {v : Value K} (h : env.get? name = some v) :
    env.set name v = env := by
  induction env with
  | nil => cases h
  | cons entry rest ih =>
      obtain ⟨n, w⟩ := entry
      by_cases hn : n = name
      · simp_all [set, get?]
      · simp only [get?, beq_iff_eq, hn, if_false] at h
        simp [set, hn, ih h]

end Env

mutual

def Term.mentions : Term L → List String
  | .float _ | .bool _ => []
  | .var name => [name]
  | .component base _ | .element base _ _ => base.mentions
  | .neg a | .not a => a.mentions
  | .binary _ a b => a.mentions ++ b.mentions
  | .call _ args | .construct _ args => Term.allMentions args

def Term.allMentions : List (Term L) → List String
  | [] => []
  | t :: ts => t.mentions ++ Term.allMentions ts

end

section Congruence

variable [Scalar K] {ctx : Context L K} {env env' : Env K}

mutual

/-- Environments that give the variables of an expression the same values give it the same value. -/
theorem Term.eval_congr : ∀ t : Term L, (∀ name ∈ t.mentions, env.get? name = env'.get? name) →
    t.eval ctx env = t.eval ctx env'
  | .float _, _ | .bool _, _ => rfl
  | .var name, h => by rw [Term.eval, Term.eval, h name (by simp [Term.mentions])]
  | .component base i, h => by rw [Term.eval, Term.eval, Term.eval_congr base h]
  | .element base col row, h => by rw [Term.eval, Term.eval, Term.eval_congr base h]
  | .neg a, h => by rw [Term.eval, Term.eval, Term.eval_congr a h]
  | .not a, h => by rw [Term.eval, Term.eval, Term.eval_congr a h]
  | .binary o a b, h => by
      have ha := Term.eval_congr a fun name hn => h name (by simp [Term.mentions, hn])
      have hb := Term.eval_congr b fun name hn => h name (by simp [Term.mentions, hn])
      rw [Term.eval, Term.eval, ha, hb]
  | .call name args, h => by rw [Term.eval, Term.eval, Term.evalAll_congr args h]
  | .construct ty args, h => by rw [Term.eval, Term.eval, Term.evalAll_congr args h]

theorem Term.evalAll_congr : ∀ ts : List (Term L),
    (∀ name ∈ Term.allMentions ts, env.get? name = env'.get? name) →
    Term.evalAll ctx env ts = Term.evalAll ctx env' ts
  | [], _ => rfl
  | t :: ts, h => by
      have ht := Term.eval_congr t fun name hn => h name (by simp [Term.allMentions, hn])
      have hts := Term.evalAll_congr ts fun name hn => h name (by simp [Term.allMentions, hn])
      rw [Term.evalAll, Term.evalAll, ht, hts]

end

end Congruence

theorem Term.eval_binary_of [Scalar K] {ctx : Context L K} {env : Env K} (o : BinOp) {a b : Term L} {x y : Value K}
    (ha : a.eval ctx env = .ok x) (hb : b.eval ctx env = .ok y) :
    (Term.binary o a b).eval ctx env = o.eval x y := by
  rw [Term.eval, ha, hb]
  rfl

theorem Term.eval_component_var [Scalar K] {ctx : Context L K} {env : Env K} {base : String} {xs : List K} {i : Nat} {x : K}
    (hbase : env.get? base = some (.vec xs)) (hx : xs[i]? = some x) :
    (Term.component (.var base) i : Term L).eval ctx env = .ok (.float x) := by
  simp only [Term.eval, hbase, Option.some_or, bind, Except.bind, Value.component, hx]
  rfl

theorem Stmt.execAll_singleton [Scalar K] (ctx : Context L K) (s : Stmt L) (env : Env K) :
    Stmt.execAll ctx [s] env = s.exec ctx env := by
  rw [Stmt.execAll]
  rcases s.exec ctx env with fault | ⟨next, flow⟩
  · rfl
  · cases flow <;> rfl

theorem Stmt.execAll_append [Scalar K] {ctx : Context L K} {first second : List (Stmt L)} {env env' : Env K}
    (h : Stmt.execAll ctx first env = .ok (env', .next)) :
    Stmt.execAll ctx (first ++ second) env = Stmt.execAll ctx second env' := by
  induction first generalizing env with
  | nil =>
      simp only [Stmt.execAll, Except.ok.injEq, Prod.mk.injEq, and_true] at h
      rw [List.nil_append, h]
  | cons s ss ih =>
      rw [List.cons_append]
      simp only [Stmt.execAll, bind, Except.bind] at h ⊢
      split at h
      · cases h
      · next result hs =>
        obtain ⟨next, flow⟩ := result
        cases flow with
        | next => exact ih h
        | leave | result v => cases h

section Modules

variable [Scalar K] (m : Module L) (literal : L → K) (globals : Env K)

/-- What a function of the module sees that can call `depth` levels deep. -/
def Module.context (depth : Nat) : Context L K :=
  ⟨literal, globals, fun callee => if m.defines callee then some (m.callAt literal globals depth callee) else none⟩

variable {m}

theorem Module.callAt_of_function? {name : String} {f : Function L} (hf : m.function? name = some f) (depth : Nat)
    (args : List (Value K)) :
    m.callAt literal globals (depth + 1) name args = f.run (m.context literal globals depth) args := by
  rw [Module.callAt, hf]
  rfl

theorem Module.context_apply_of_callAt {depth : Nat} {name : String} {args args' : List (Value K)} {v : Value K}
    (h : m.callAt literal globals depth name args = .ok v) :
    (m.context literal globals depth).apply name args' = m.callAt literal globals depth name args' := by
  have hdefines : m.defines name = true := by
    cases hf : m.function? name with
    | none => cases depth <;> simp [Module.callAt, hf] at h
    | some f =>
        have hname : f.name == name := List.find?_some (p := fun f : Function L => f.name == name) hf
        exact List.any_eq_true.2 ⟨f, List.mem_of_find?_eq_some hf, hname⟩
  rw [Context.apply, Module.context]
  simp only [hdefines, if_true]

end Modules

end FlowShader.Shader
