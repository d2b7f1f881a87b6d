import Std.Data.String.ToNat
import FlowShader.Proofs.Expr.Text
import FlowShader.Proofs.Lowering.Meaning
import FlowShader.Proofs.Shader.Environment

namespace FlowShader.Lowering

open Shader (Term Stmt Context Env)

variable {L K : Type} [Literal L] [Scalar K]

def Later (c : Lowering L) (n : Nat) (name : String) : Prop :=
  ∃ stem, c.hoist = some stem ∧ ∃ k, n ≤ k ∧ name = stem ++ toString k

def Agrees (c : Lowering L) (n : Nat) (env env' : Env K) : Prop :=
  ∀ name, ¬ c.Later n name → env'.get? name = env.get? name

def Settled (c : Lowering L) (n : Nat) (t : Term L) : Prop := ∀ name ∈ t.mentions, ¬ c.Later n name

/-- The key belongs to a formula: its own text, or the text of a base that is used several times. -/
def KeyOf (key : String) (e : Expr L) : Prop := key = e.text ∨ key = e.text ++ "#base"

/-- What running code has to offer to a lowering: builtins under their names, literals that mean
numbers, and a number for every bound variable, from expressions that mention no temporary. -/
structure Reads (c : Lowering L) (ctx : Context L K) (env : Env K) (ρ : Valuation L K) : Prop where
  builtins : ctx.Plain
  literals : Literal.Interprets ctx.literal
  literal : ρ.literal = ctx.literal
  bound (v : String) (t : Term L) : c.bindings.get? v = some t →
    ∃ x, ρ.binding v = some x ∧ t.eval ctx env = .ok (.float x)
  fresh (v : String) (t : Term L) (stem : String) : c.bindings.get? v = some t → c.hoist = some stem →
    ∀ name ∈ t.mentions, Names.isNumbered stem name = false

structure Holds (c : Lowering L) (ctx : Context L K) (env : Env K) (ρ : Valuation L K)
    (s : State L) (env' : Env K) : Prop where
  runs : Stmt.execAll ctx s.statements.toList env = .ok (env', .next)
  agrees : c.Agrees 0 env env'
  shared (key name : String) : s.temporaries[key]? = some name →
    ∃ e x, e.Legible ∧ KeyOf key e ∧ e.meaning c.clamp ρ = .ok x ∧
      env'.get? name = some (.float x) ∧ ¬ c.Later s.temporaries.size name

structure Grows (c : Lowering L) (bound : Nat) (s : State L) (env : Env K) (s' : State L) (env' : Env K) :
    Prop where
  size : s.temporaries.size ≤ s'.temporaries.size
  agrees : c.Agrees s.temporaries.size env env'
  keys (key : String) : key ∈ s'.temporaries → key ∈ s.temporaries ∨
    ∃ e : Expr L, e.Legible ∧ e.size ≤ bound ∧ KeyOf key e

/-- What lowering a formula gives at one state: an expression with the right value, now and while
temporaries are added. -/
structure Yields (c : Lowering L) (ctx : Context L K) (env : Env K) (ρ : Valuation L K) (bound : Nat) (x : K)
    (s : State L) (env₁ : Env K) (t : Term L) (s' : State L) (env₂ : Env K) : Prop where
  holds : c.Holds ctx env ρ s' env₂
  grows : c.Grows bound s env₁ s' env₂
  settled : c.Settled s'.temporaries.size t
  eval : t.eval ctx env₂ = .ok (.float x)

def Runs {α : Type} (action : Action L α) (s : State L) (a : α) (s' : State L) : Prop :=
  action.run.run s = (.ok a, s')

def Computes (c : Lowering L) (ctx : Context L K) (env : Env K) (ρ : Valuation L K)
    (action : Action L (Term L)) (bound : Nat) (x : K) : Prop :=
  ∀ s env₁, c.Holds ctx env ρ s env₁ →
    ∃ t s' env₂, Runs action s t s' ∧ c.Yields ctx env ρ bound x s env₁ t s' env₂

section Growth

omit [Literal L] in
theorem Later.mono {c : Lowering L} {m n : Nat} {name : String} (h : m ≤ n) (hl : c.Later n name) :
    c.Later m name := by
  obtain ⟨stem, hs, k, hk, hn⟩ := hl
  exact ⟨stem, hs, k, Nat.le_trans h hk, hn⟩

omit [Literal L] [Scalar K] in
theorem Agrees.trans {c : Lowering L} {m n : Nat} {a b d : Env K} (hmn : m ≤ n)
    (h : c.Agrees m a b) (h' : c.Agrees n b d) : c.Agrees m a d := by
  intro name hname
  rw [h' name fun hl => hname (hl.mono hmn), h name hname]

omit [Literal L] in
theorem Settled.mono {c : Lowering L} {m n : Nat} {t : Term L} (h : m ≤ n) (ht : c.Settled m t) :
    c.Settled n t :=
  fun name hname hl => ht name hname (hl.mono h)

omit [Literal L] in
theorem Settled.eval_eq {c : Lowering L} {n : Nat} {t : Term L} {ctx : Context L K} {env env' : Env K}
    (ht : c.Settled n t) (h : c.Agrees n env env') : t.eval ctx env' = t.eval ctx env :=
  Shader.Term.eval_congr t fun name hname => h name (ht name hname)

omit [Scalar K] in
theorem Grows.refl (c : Lowering L) (bound : Nat) (s : State L) (env : Env K) : c.Grows bound s env s env :=
  ⟨Nat.le_refl _, fun _ _ => rfl, fun _ h => .inl h⟩

omit [Scalar K] in
theorem Grows.trans {c : Lowering L} {n : Nat} {s s' s'' : State L} {a b d : Env K}
    (h : c.Grows n s a s' b) (h' : c.Grows n s' b s'' d) : c.Grows n s a s'' d := by
  refine ⟨Nat.le_trans h.size h'.size, h.agrees.trans h.size h'.agrees, fun key hkey => ?_⟩
  rcases h'.keys key hkey with hk | hk
  · exact h.keys key hk
  · exact .inr hk

omit [Scalar K] in
theorem Grows.mono {c : Lowering L} {m n : Nat} {s s' : State L} {a b : Env K} (hmn : m ≤ n)
    (h : c.Grows m s a s' b) : c.Grows n s a s' b := by
  refine ⟨h.size, h.agrees, fun key hkey => ?_⟩
  rcases h.keys key hkey with hk | ⟨e, he, hsize, hk⟩
  · exact .inl hk
  · exact .inr ⟨e, he, Nat.le_trans hsize hmn, hk⟩

theorem Yields.mono {c : Lowering L} {ctx : Context L K} {env env₁ env₂ : Env K} {ρ : Valuation L K}
    {m n : Nat} {x : K} {s s' : State L} {t : Term L} (hmn : m ≤ n)
    (h : c.Yields ctx env ρ m x s env₁ t s' env₂) : c.Yields ctx env ρ n x s env₁ t s' env₂ :=
  ⟨h.holds, h.grows.mono hmn, h.settled, h.eval⟩

end Growth

section Actions

variable {α β : Type} {s s' s'' : State L}

omit [Literal L] in
theorem Runs.pure (a : α) (s : State L) : Runs (Pure.pure a) s a s := rfl

omit [Literal L] in
theorem Runs.bind {action : Action L α} {next : α → Action L β} {a : α} {b : β} (h : Runs action s a s')
    (h' : Runs (next a) s' b s'') : Runs (action >>= next) s b s'' := by
  unfold Runs at h h' ⊢
  rw [ExceptT.run_bind, StateT.run_bind, h]
  exact h'

omit [Literal L] in
theorem Runs.get (s : State L) : Runs (MonadState.get : Action L (State L)) s s s := rfl

end Actions

theorem isNumbered_append (stem : String) (k : Nat) : Names.isNumbered stem (stem ++ toString k) = true := by
  have hdigits : ∀ c ∈ Nat.toDigits 10 k, c.isDigit = true :=
    fun c hc => Nat.isDigit_of_mem_toDigits (by decide) (by decide) hc
  simpa [Names.isNumbered, String.toList_append, ← String.length_toList] using hdigits

theorem append_toString_inj {stem : String} {k m : Nat} (h : stem ++ toString k = stem ++ toString m) : k = m := by
  rw [← String.toList_inj, String.toList_append, String.toList_append, List.append_cancel_left_eq,
    String.toList_inj] at h
  exact Nat.repr_injective h

section Declaring

variable {c : Lowering L} {ctx : Context L K} {env env₁ env₂ : Env K} {ρ : Valuation L K} {s : State L}
  {e : Expr L} {t : Term L} {x : K} {stem key : String}

theorem declare_yields (hstem : c.hoist = some stem) (hs : c.Holds ctx env ρ s env₁) (hkey : key ∉ s.temporaries)
    (he : e.Legible) (hk : KeyOf key e) (hx : e.meaning c.clamp ρ = .ok x)
    (ht : t.eval ctx env₁ = .ok (.float x)) :
    ∃ t' s' env₂, Runs (declare stem key t) s t' s' ∧ c.Yields ctx env ρ e.size x s env₁ t' s' env₂ := by
  let name := stem ++ toString s.temporaries.size
  have hlater : ∀ n ≤ s.temporaries.size, c.Later n name := fun n hn => ⟨stem, hstem, _, hn, rfl⟩
  have hsize : (s.temporaries.insert key name).size = s.temporaries.size + 1 := by
    rw [Std.HashMap.size_insert, if_neg hkey]
  have hnew : ¬ c.Later (s.temporaries.size + 1) name := by
    rintro ⟨stem', hstem', k, hk, hname⟩
    rw [hstem, Option.some.injEq] at hstem'
    subst hstem'
    have := append_toString_inj hname
    omega
  have hagrees : c.Agrees s.temporaries.size env₁ (env₁.set name (.float x)) := by
    intro other hother
    have hne : name ≠ other := fun h => hother (h ▸ hlater _ (Nat.le_refl _))
    exact Env.get?_set_ne _ hne _
  refine ⟨.var name, _, env₁.set name (.float x), rfl, ⟨?_, ?_, ?_⟩, ⟨?_, hagrees, ?_⟩, ?_, ?_⟩
  · rw [Array.toList_push, Stmt.execAll_append hs.runs]
    simp only [Stmt.execAll, Stmt.exec, ht, bind, Except.bind, pure, Except.pure]
    rfl
  · exact hs.agrees.trans (Nat.zero_le _) hagrees
  · intro key' name' hname
    simp only [Std.HashMap.getElem?_insert] at hname
    rw [hsize]
    split at hname
    · next heq =>
      obtain rfl : key = key' := by simpa using heq
      obtain rfl : name = name' := Option.some.inj hname
      exact ⟨e, x, he, hk, hx, Env.get?_set_self _ _ _, hnew⟩
    · obtain ⟨e', x', he', hk', hx', hget, hl⟩ := hs.shared key' name' hname
      exact ⟨e', x', he', hk', hx', by rw [hagrees name' hl, hget], fun h => hl (h.mono (Nat.le_succ _))⟩
  · rw [hsize]
    exact Nat.le_succ _
  · intro key' hkey'
    rw [Std.HashMap.mem_insert] at hkey'
    rcases hkey' with heq | hmem
    · obtain rfl : key = key' := by simpa using heq
      exact .inr ⟨e, he, Nat.le_refl _, hk⟩
    · exact .inl hmem
  · rw [hsize]
    simpa [Settled, Shader.Term.mentions] using hnew
  · rw [Shader.Term.eval, Env.get?_set_self]
    rfl

theorem KeyOf.split (h : KeyOf key e) : ∃ r, Expr.Ends r ∧ key.toList = e.text.toList ++ r := by
  rcases h with rfl | rfl
  · exact ⟨[], .nil, by simp⟩
  · exact ⟨"#base".toList, .cons (by decide) (by decide), by simp⟩

variable [Literal.Legible L]

theorem KeyOf.unique {e' : Expr L} (he : e.Legible) (he' : e'.Legible) (h : KeyOf key e) (h' : KeyOf key e') :
    e = e' := by
  obtain ⟨r, hr, hkey⟩ := h.split
  obtain ⟨r', hr', hkey'⟩ := h'.split
  exact (Expr.text_append_inj he he' hr hr' (hkey ▸ hkey')).1

theorem shared_yields (hs : c.Holds ctx env ρ s env₁) {name : String} (bound : Nat) (he : e.Legible)
    (hk : KeyOf key e) (hx : e.meaning c.clamp ρ = .ok x) (hname : s.temporaries[key]? = some name) :
    c.Yields ctx env ρ bound x s env₁ (.var name) s env₁ := by
  obtain ⟨e', x', he', hk', hx', hget, hl⟩ := hs.shared key name hname
  obtain rfl := hk.unique he he' hk'
  obtain rfl : x' = x := by simpa [hx'] using hx
  refine ⟨hs, .refl _ _ _ _, ?_, ?_⟩
  · simpa [Settled, Shader.Term.mentions] using hl
  · rw [Shader.Term.eval, hget]
    rfl

/-- Sharing does not change what is computed. The subtree has no temporary after its parts have been
lowered, as these are smaller. -/
theorem share_computes {lowered : Action L (Term L)} {n : Nat} (hn : n < e.size) (he : e.Legible)
    (hx : e.meaning c.clamp ρ = .ok x) (h : c.Computes ctx env ρ lowered n x) :
    c.Computes ctx env ρ (c.share e lowered) e.size x := by
  intro s env₁ hs
  unfold share
  cases hstem : c.hoist with
  | none =>
      obtain ⟨t, s', env₂, hrun, hy⟩ := h s env₁ hs
      exact ⟨t, s', env₂, hrun, hy.mono (Nat.le_of_lt hn)⟩
  | some stem =>
      cases hname : s.temporaries[e.text]? with
      | some name =>
          refine ⟨.var name, s, env₁, .bind (.get s) ?_, shared_yields hs _ he (.inl rfl) hx hname⟩
          simp only [hname]
          exact .pure _ _
      | none =>
          obtain ⟨t, s', env₂, hrun, hy⟩ := h s env₁ hs
          have hkey : e.text ∉ s'.temporaries := by
            intro hmem
            rcases hy.grows.keys _ hmem with hmem | ⟨f, hf, hsize, hk⟩
            · rw [Std.HashMap.mem_iff_isSome_getElem?, hname] at hmem
              exact absurd hmem (by simp)
            · obtain rfl := KeyOf.unique he hf (.inl rfl) hk
              omega
          by_cases hcount : 1 < s'.counts.getD e.text 0
          · obtain ⟨t', s'', env₃, hrun', hy'⟩ := declare_yields hstem hy.holds hkey he (.inl rfl) hx hy.eval
            refine ⟨t', s'', env₃, .bind (.get s) ?_, hy'.holds, ?_, hy'.settled, hy'.eval⟩
            · simp only [hname]
              refine hrun.bind (.bind (.get s') ?_)
              rwa [if_pos hcount]
            · exact (hy.grows.mono (Nat.le_of_lt hn)).trans hy'.grows
          · refine ⟨t, s', env₂, .bind (.get s) ?_, hy.mono (Nat.le_of_lt hn)⟩
            simp only [hname]
            refine hrun.bind (.bind (.get s') ?_)
            rw [if_neg hcount]
            exact .pure _ _

theorem shareFactor_yields (hs : c.Holds ctx env ρ s env₁) (n : Nat) (he : e.Legible)
    (hx : e.meaning c.clamp ρ = .ok x) (hsettled : c.Settled s.temporaries.size t)
    (ht : t.eval ctx env₁ = .ok (.float x)) :
    ∃ t' s' env₂, Runs (c.shareFactor e n t) s t' s' ∧ c.Yields ctx env ρ e.size x s env₁ t' s' env₂ := by
  have hsame : c.Yields ctx env ρ e.size x s env₁ t s env₁ := ⟨hs, .refl _ _ _ _, hsettled, ht⟩
  unfold shareFactor
  cases hstem : c.hoist with
  | none => exact ⟨t, s, env₁, .pure _ _, hsame⟩
  | some stem =>
      by_cases htriv : (t.isTrivial || decide (n ≤ 1)) = true
      · simp only [htriv, if_true]
        exact ⟨t, s, env₁, .pure _ _, hsame⟩
      · simp only [htriv, Bool.false_eq_true, if_false]
        cases hname : s.temporaries[e.text ++ "#base"]? with
        | some name =>
            refine ⟨.var name, s, env₁, .bind (.get s) ?_, shared_yields hs _ he (.inr rfl) hx hname⟩
            simp only [hname]
            exact .pure _ _
        | none =>
            have hkey : e.text ++ "#base" ∉ s.temporaries := by
              rw [Std.HashMap.mem_iff_isSome_getElem?, hname]
              simp
            obtain ⟨t', s', env₂, hrun, hy⟩ := declare_yields hstem hs hkey he (.inr rfl) hx ht
            refine ⟨t', s', env₂, .bind (.get s) ?_, hy⟩
            simp only [hname]
            exact hrun

end Declaring

end FlowShader.Lowering
