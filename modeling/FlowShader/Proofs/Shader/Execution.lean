import Mathlib.Logic.Function.Iterate
import FlowShader.Proofs.Except
import FlowShader.Proofs.Shader.Environment

namespace FlowShader.Shader

/-- The first number below the bound with the property, or the bound if there is none. -/
structure IsFirst (p : Nat → Prop) (bound k : Nat) : Prop where
  le : k ≤ bound
  before : ∀ i < k, ¬ p i
  found : k < bound → p k

theorem IsFirst.zero {p : Nat → Prop} {bound : Nat} (h : 0 < bound → p 0) : IsFirst p bound 0 :=
  ⟨Nat.zero_le _, nofun, h⟩

theorem IsFirst.succ {p : Nat → Prop} {bound k : Nat} (h : IsFirst (fun i => p (i + 1)) bound k) (h₀ : ¬ p 0) :
    IsFirst p (bound + 1) (k + 1) := by
  refine ⟨Nat.succ_le_succ h.le, fun i hi => ?_, fun hk => h.found (Nat.lt_of_succ_lt_succ hk)⟩
  cases i with
  | zero => exact h₀
  | succ i => exact h.before i (Nat.lt_of_succ_lt_succ hi)

variable {L K : Type} [Scalar K] {ctx : Context L K}

theorem Term.evalAll_floats {env : Env K} {ts : List (Term L)} {xs : List K}
    (h : List.Forall₂ (fun t x => t.eval ctx env = .ok (.float x)) ts xs) :
    Term.evalAll ctx env ts = .ok (xs.map .float) := by
  induction h with
  | nil => rfl
  | cons ht _ ih =>
      rw [Term.evalAll]
      exact bind_eq_ok_of ht (bind_eq_ok_of ih rfl)

theorem Term.eval_var {env : Env K} {name : String} {v : Value K} (h : env.get? name = some v) :
    (Term.var name : Term L).eval ctx env = .ok v := by
  rw [Term.eval, h]
  rfl

theorem Term.eval_call {env : Env K} {name : String} {t : Term L} {v : Value K} (ht : t.eval ctx env = .ok v) :
    (Term.call name [t]).eval ctx env = ctx.apply name [v] := by
  simp only [Term.eval, Term.evalAll, ht]
  rfl

theorem Function.run_eq_ok {f : Function L} {args : List (Value K)} {env env' : Env K}
    {v : Value K} (hlength : f.params.length = args.length) (hbind : Function.bind f.name f.params args [] = .ok env)
    (hbody : Stmt.execAll ctx f.body env = .ok (env', .result v)) : f.run ctx args = .ok v := by
  rw [Function.run, if_pos hlength]
  exact bind_eq_ok_of hbind (bind_eq_ok_of hbody rfl)

namespace Stmt

variable {P Q R : Env K → Prop} {s : Stmt L} {ss ts : List (Stmt L)}

/-- Started with variables of the first kind, the code runs to its end, where the variables are of the second
kind. -/
def Takes (ctx : Context L K) (P : Env K → Prop) (ss : List (Stmt L)) (Q : Env K → Prop) : Prop :=
  ∀ env, P env → ∃ env', execAll ctx ss env = .ok (env', .next) ∧ Q env'

theorem execAll_result {env env' : Env K} {t : Term L} {v : Value K} (h : execAll ctx ss env = .ok (env', .next))
    (ht : t.eval ctx env' = .ok v) : execAll ctx (ss ++ [.result t]) env = .ok (env', .result v) := by
  rw [execAll_append h, execAll_singleton, exec]
  exact bind_eq_ok_of ht rfl

theorem execAll_leave {env env₁ env₂ : Env K} (h : execAll ctx ss env = .ok (env₁, .next))
    (hs : s.exec ctx env₁ = .ok (env₂, .leave)) : execAll ctx (ss ++ s :: ts) env = .ok (env₂, .leave) := by
  rw [execAll_append h, execAll, hs]
  rfl

namespace Takes

theorem nil : Takes ctx P ([] : List (Stmt L)) P := fun env h => ⟨env, rfl, h⟩

theorem append (h : Takes ctx P ss Q) (h' : Takes ctx Q ts R) : Takes ctx P (ss ++ ts) R := by
  intro env hP
  obtain ⟨env', hexec, hQ⟩ := h env hP
  obtain ⟨env'', hexec', hR⟩ := h' env' hQ
  exact ⟨env'', (execAll_append hexec).trans hexec', hR⟩

theorem weaken (h : Takes ctx P ss Q) (hQ : ∀ env, Q env → R env) : Takes ctx P ss R := by
  intro env hP
  obtain ⟨env', hexec, h'⟩ := h env hP
  exact ⟨env', hexec, hQ env' h'⟩

theorem cons (h : Takes ctx P [s] Q) (h' : Takes ctx Q ss R) : Takes ctx P (s :: ss) R := h.append h'

theorem single (h : ∀ env, P env → ∃ env', s.exec ctx env = .ok (env', .next) ∧ Q env') : Takes ctx P [s] Q := by
  intro env hP
  rw [execAll_singleton]
  exact h env hP

theorem declare {ty : Ty} {name : String} {value : Term L}
    (h : ∀ env, P env → ∃ v, value.eval ctx env = .ok v ∧ Q (env.set name v)) :
    Takes ctx P [.declare ty name value] Q := by
  refine single fun env hP => ?_
  obtain ⟨v, hv, hQ⟩ := h env hP
  exact ⟨_, bind_eq_ok_of hv rfl, hQ⟩

theorem declare_eq (ty : Ty) (name : String) {value : Term L} {env : Env K} {v : Value K}
    (h : value.eval ctx env = .ok v) : Takes ctx (· = env) [.declare ty name value] (· = env.set name v) :=
  declare fun _ henv => ⟨v, henv ▸ h, by rw [henv]⟩

theorem assign {name : String} {value : Term L}
    (h : ∀ env, P env → ∃ old v, env.get? name = some old ∧ value.eval ctx env = .ok v ∧ Q (env.set name v)) :
    Takes ctx P [.assign (.var name) value] Q := by
  refine single fun env hP => ?_
  obtain ⟨old, v, hold, hv, hQ⟩ := h env hP
  refine ⟨_, bind_eq_ok_of hv (bind_eq_ok_of (a := env.set name v) ?_ rfl), hQ⟩
  rw [Place.write, Place.name, hold]

theorem branch {cond : Term L} {yes no : List (Stmt L)} (b : Bool)
    (hcond : ∀ env, P env → cond.eval ctx env = .ok (.bool b))
    (h : Takes ctx P (if b then yes else no) Q) : Takes ctx P [.branch cond yes no] Q := by
  refine single fun env hP => ?_
  obtain ⟨env', hexec, hQ⟩ := h env hP
  refine ⟨env', bind_eq_ok_of (hcond env hP) (bind_eq_ok_of (a := b) rfl ?_), hQ⟩
  cases b with
  | true => exact hexec
  | false => exact hexec

/-- Code that was unrolled: the invariant knows what has been done. -/
theorem flatMap {ι : Type} {code : ι → List (Stmt L)} {I : List ι → Env K → Prop} (is : List ι)
    (h : ∀ done i rest, is = done ++ i :: rest → Takes ctx (I done) (code i) (I (done ++ [i]))) :
    Takes ctx (I []) (is.flatMap code) (I is) := by
  -- The list stays as it is, and the cut through it moves.
  suffices hrest : ∀ rest done, is = done ++ rest → Takes ctx (I done) (rest.flatMap code) (I is) from hrest is [] rfl
  intro rest
  induction rest with
  | nil =>
      intro done his
      rw [his, List.append_nil]
      exact nil
  | cons i rest ih =>
      intro done his
      exact (h done i rest his).append (ih (done ++ [i]) (by rw [his, List.append_assoc]; rfl))

theorem loop {body : List (Stmt L)} {I : Nat → Env K → Prop} (h : ∀ i, Takes ctx (I i) body (I (i + 1)))
    (count : Nat) : Takes ctx (I 0) [.loop count body] (I count) := by
  refine single ?_
  -- Rounds are counted down, the invariant counts up.
  suffices hrounds : ∀ i env, I i env → ∃ env',
      rounds (fun env => execAll ctx body env) count env = .ok (env', .next) ∧ I (i + count) env' by
    simpa [exec] using hrounds 0
  induction count with
  | zero => exact fun i env hI => ⟨env, rfl, hI⟩
  | succ count ih =>
      intro i env hI
      obtain ⟨env', hexec, hI'⟩ := h i env hI
      obtain ⟨env'', hrounds, hI''⟩ := ih (i + 1) env' hI'
      rw [Nat.add_assoc, Nat.add_comm 1] at hI''
      exact ⟨env'', bind_eq_ok_of hexec hrounds, hI''⟩

theorem iterate {α : Type} {P : α → Env K → Prop} {g : α → α} {body : List (Stmt L)}
    (h : ∀ a, Takes ctx (P a) body (P (g a))) (count : Nat) (a : α) :
    Takes ctx (P a) [.loop count body] (P (g^[count] a)) := by
  refine loop (I := fun i => P (g^[i] a)) (fun i => ?_) count
  rw [Function.iterate_succ_apply']
  exact h _

theorem iterate_until {α : Type} {P : α → Env K → Prop} {g : α → α} {test : α → Prop} {body : List (Stmt L)}
    (hleave : ∀ a, test a → ∀ env, P a env → ∃ env', execAll ctx body env = .ok (env', .leave) ∧ P a env')
    (hnext : ∀ a, ¬ test a → Takes ctx (P a) body (P (g a))) (count : Nat) (a : α) :
    ∃ k, IsFirst (fun i => test (g^[i] a)) count k ∧ Takes ctx (P a) [.loop count body] (P (g^[k] a)) := by
  induction count generalizing a with
  | zero => exact ⟨0, .zero nofun, single fun env hP => ⟨env, rfl, hP⟩⟩
  | succ count ih =>
      by_cases htest : test a
      · refine ⟨0, .zero fun _ => htest, single fun env hP => ?_⟩
        obtain ⟨env', hexec, hP'⟩ := hleave a htest env hP
        exact ⟨env', bind_eq_ok_of hexec rfl, hP'⟩
      · obtain ⟨k, hk, htakes⟩ := ih (g a)
        refine ⟨k + 1, hk.succ htest, single fun env hP => ?_⟩
        obtain ⟨env₁, hexec, hP₁⟩ := hnext a htest env hP
        obtain ⟨env₂, hrest, hP₂⟩ := htakes env₁ hP₁
        rw [execAll_singleton] at hrest
        exact ⟨env₂, bind_eq_ok_of hexec hrest, hP₂⟩

end Takes

end Stmt

end FlowShader.Shader
