import Mathlib.Data.List.Forall2
import FlowShader.Proofs.Lowering.Sharing
import FlowShader.Proofs.Scalar.Double

namespace FlowShader

namespace Bindings

variable {L : Type} (b : Bindings L)

theorem get?_bind (name v : String) (t : Shader.Term L) :
    (b.bind name t).get? v = if name = v then some t else b.get? v := by
  by_cases h : name = v <;> simp [bind, get?, h]

/-- The names of a vector stand for its components, and hide what they stood for before. -/
theorem get?_bindVector (names : List String) (base v : String) :
    (v ∉ names ∧ (b.bindVector names base).get? v = b.get? v) ∨
      ∃ i, names[i]? = some v ∧ (b.bindVector names base).get? v = some (.component (.var base) i) := by
  have hfold (entries : List (String × Nat)) (b : Bindings L) :
      let b' := entries.foldl (fun b entry => b.bind entry.1 (.component (.var base) entry.2)) b
      (v ∉ entries.map (·.1) ∧ b'.get? v = b.get? v) ∨
        ∃ i, (v, i) ∈ entries ∧ b'.get? v = some (.component (.var base) i) := by
    induction entries generalizing b with
    | nil => exact .inl ⟨List.not_mem_nil, rfl⟩
    | cons entry entries ih =>
        obtain ⟨name, i⟩ := entry
        rcases ih (b.bind name (.component (.var base) i)) with ⟨hv, hget⟩ | ⟨j, hj, hget⟩
        · rw [get?_bind] at hget
          by_cases hname : name = v
          · rw [if_pos hname] at hget
            exact .inr ⟨i, hname ▸ List.mem_cons_self, hget⟩
          · rw [if_neg hname] at hget
            exact .inl ⟨List.not_mem_cons_of_ne_of_not_mem (Ne.symm hname) hv, hget⟩
        · exact .inr ⟨j, List.mem_cons_of_mem _ hj, hget⟩
  rcases hfold names.zipIdx b with ⟨hv, hget⟩ | ⟨i, hi, hget⟩
  · rw [List.zipIdx_map_fst] at hv
    exact .inl ⟨hv, hget⟩
  · exact .inr ⟨i, List.mem_zipIdx_iff_getElem?.1 hi, hget⟩

theorem isSome_get?_bind {name : String} (t : Shader.Term L) {v : String} (h : v = name ∨ (b.get? v).isSome = true) :
    ((b.bind name t).get? v).isSome = true := by
  rw [get?_bind]
  split
  · rfl
  · next hname => exact h.resolve_left (Ne.symm hname)

theorem isSome_get?_bindVector {names : List String} (base : String) {v : String}
    (h : v ∈ names ∨ (b.get? v).isSome = true) : ((b.bindVector names base).get? v).isSome = true := by
  rcases b.get?_bindVector names base v with ⟨hv, hget⟩ | ⟨i, -, hget⟩
  · rw [hget]
    exact h.resolve_left hv
  · rw [hget]
    rfl

end Bindings

namespace Lowering

open Shader (Term Stmt Context Env)

variable {L K : Type} [Literal L] [Scalar K]

section Mentions

theorem mentions_guardArgument (c : Lowering L) (f : Func) (t : Term L) :
    (c.guardArgument f t).mentions = t.mentions := by
  unfold guardArgument
  split <;> simp [callBuiltin, Term.mentions, Term.allMentions]

omit [Literal L] in
theorem mentions_binary (o : Operator) (s t : Term L) :
    (binary o s t).mentions = s.mentions ++ t.mentions := by
  cases o with
  | add | sub | mul | div => rfl
  | pow | mod => simp [binary, callBuiltin, Term.mentions, Term.allMentions]

omit [Literal L] in
theorem mem_mentions_product {t : Term L} {n : Nat} {name : String} (h : name ∈ (product t n).mentions) :
    name ∈ t.mentions := by
  unfold product at h
  suffices hall : ∀ (indices : List Nat) (s : Term L), (∀ v ∈ s.mentions, v ∈ t.mentions) →
      ∀ v ∈ (indices.foldl (fun acc _ => acc * t) s).mentions, v ∈ t.mentions from
    hall _ t (fun _ hv => hv) name h
  intro indices
  induction indices with
  | nil => exact fun s hs => hs
  | cons _ indices ih =>
      intro s hs
      refine ih (s * t) fun v hv => ?_
      have hv : v ∈ s.mentions ++ t.mentions := hv
      rcases List.mem_append.1 hv with hv | hv
      · exact hs v hv
      · exact hv

end Mentions

variable {c : Lowering L} {ctx : Context L K} {env : Env K} {ρ : Valuation L K}

section Steps

variable {m n : Nat} {x y z : K}

theorem computes_pure {t : Term L} (hsettled : c.Settled 0 t) (ht : t.eval ctx env = .ok (.float x)) :
    c.Computes ctx env ρ (pure t) n x := by
  intro s env₁ hs
  refine ⟨t, s, env₁, .pure t s, hs, .refl _ _ _ _, hsettled.mono (Nat.zero_le _), ?_⟩
  rw [hsettled.eval_eq hs.agrees, ht]

theorem Computes.map {action : Action L (Term L)} (h : c.Computes ctx env ρ action n x) (g : Term L → Term L)
    (hmentions : ∀ t, ∀ v ∈ (g t).mentions, v ∈ t.mentions)
    (hg : ∀ t env', t.eval ctx env' = .ok (.float x) → (g t).eval ctx env' = .ok (.float y)) :
    c.Computes ctx env ρ (do return g (← action)) n y := by
  intro s env₁ hs
  obtain ⟨t, s', env₂, hrun, hy⟩ := h s env₁ hs
  exact ⟨g t, s', env₂, hrun.bind (.pure _ _), hy.holds, hy.grows,
    fun v hv => hy.settled v (hmentions t v hv), hg t env₂ hy.eval⟩

theorem Computes.map₂ {first second : Action L (Term L)} (h : c.Computes ctx env ρ first m x)
    (h' : c.Computes ctx env ρ second n y) (g : Term L → Term L → Term L)
    (hmentions : ∀ t u, ∀ v ∈ (g t u).mentions, v ∈ t.mentions ++ u.mentions)
    (hg : ∀ t u env', t.eval ctx env' = .ok (.float x) → u.eval ctx env' = .ok (.float y) →
      (g t u).eval ctx env' = .ok (.float z)) :
    c.Computes ctx env ρ (do let t ← first; let u ← second; return g t u) (max m n) z := by
  intro s env₁ hs
  obtain ⟨t, s', env₂, hrun, ht⟩ := h s env₁ hs
  obtain ⟨u, s'', env₃, hrun', hu⟩ := h' s' env₂ ht.holds
  have hgrows := (ht.grows.mono (Nat.le_max_left m n)).trans (hu.grows.mono (Nat.le_max_right m n))
  refine ⟨g t u, s'', env₃, hrun.bind (hrun'.bind (.pure _ _)), hu.holds, hgrows, fun v hv => ?_, ?_⟩
  · rcases List.mem_append.1 (hmentions t u v hv) with hv | hv
    · exact ht.settled.mono hu.grows.size v hv
    · exact hu.settled v hv
  · exact hg t u env₃ (by rw [ht.settled.eval_eq hu.grows.agrees, ht.eval]) hu.eval

variable [Literal.Legible L]

theorem Computes.power {action : Action L (Term L)} {e : Expr L} (k : Int) (hctx : c.Reads ctx env ρ)
    (he : e.Legible) (hx : e.meaning c.clamp ρ = .ok x) (h : c.Computes ctx env ρ action e.size x) :
    c.Computes ctx env ρ (do power c e k (← action)) e.size (Expr.wholePower x k) := by
  intro s env₁ hs
  obtain ⟨t, s', env₂, hrun, ht⟩ := h s env₁ hs
  obtain ⟨u, s'', env₃, hrun', hu⟩ := shareFactor_yields ht.holds k.natAbs he hx ht.settled ht.eval
  have hproduct := Shader.eval_product hu.eval k.natAbs
  refine ⟨_, s'', env₃, hrun.bind (hrun'.bind (.pure _ _)), hu.holds, ht.grows.trans hu.grows, ?_, ?_⟩
  · intro v hv
    apply hu.settled v
    split at hv
    · have hv : v ∈ [] ++ (product u k.natAbs).mentions := hv
      exact mem_mentions_product (by simpa using hv)
    · exact mem_mentions_product hv
  · unfold Expr.wholePower
    split
    · exact Shader.eval_reciprocal hctx.literals hproduct
    · exact hproduct

end Steps

theorem Reads.settled (h : c.Reads ctx env ρ) {v : String} {t : Term L} (ht : c.bindings.get? v = some t) :
    c.Settled 0 t := by
  rintro name hname ⟨stem, hstem, k, -, rfl⟩
  have hfresh := h.fresh v t stem ht hstem _ hname
  rw [isNumbered_append] at hfresh
  exact absurd hfresh (by simp)

variable [Literal.Legible L]

theorem build_computes (h : c.Reads ctx env ρ) {e : Expr L} (he : e.Legible)
    (hbound : ∀ v ∈ e.names, (c.bindings.get? v).isSome = true) :
    ∃ x, e.meaning c.clamp ρ = .ok x ∧ c.Computes ctx env ρ (c.build e) e.size x := by
  induction e with
  | literal x =>
      refine ⟨ρ.literal x, rfl, computes_pure (by simp [Settled, Term.mentions]) ?_⟩
      rw [Term.eval, h.literal]
  | constant k =>
      refine ⟨k.value, rfl, computes_pure (by simp [Settled, Term.mentions]) ?_⟩
      rw [Term.eval, h.literals.constant]
  | var v =>
      obtain ⟨t, ht⟩ := Option.isSome_iff_exists.1 (hbound v (by simp [Expr.names]))
      obtain ⟨x, hx, heval⟩ := h.bound v t ht
      refine ⟨x, by rw [Expr.meaning, hx], ?_⟩
      rw [build, ht]
      exact computes_pure (h.settled ht) heval
  | call f a ih =>
      obtain ⟨x, hx, hc⟩ := ih he hbound
      have hm : (Expr.call f a).meaning c.clamp ρ = .ok (f.apply (Expr.guarded c.clamp f x)) := by
        rw [Expr.meaning, hx]
        rfl
      refine ⟨_, hm, share_computes (n := a.size) (by simp only [Expr.size]; omega) he hm ?_⟩
      refine hc.map (fun t => .call f.name [c.guardArgument f t]) (fun t v hv => ?_) fun t env' ht => ?_
      · simpa [Term.mentions, Term.allMentions, mentions_guardArgument] using hv
      · exact Shader.eval_func h.builtins f (Shader.eval_guardArgument h.builtins h.literals c f ht)
  | call₂ f a b iha ihb =>
      obtain ⟨x, hx, ha⟩ := iha he.1 fun v hv => hbound v (by simp [Expr.names, hv])
      obtain ⟨y, hy, hb⟩ := ihb he.2 fun v hv => hbound v (by simp [Expr.names, hv])
      have hm : (Expr.call₂ f a b).meaning c.clamp ρ = .ok (f.apply x y) := by
        rw [Expr.meaning, hx, hy]
        rfl
      refine ⟨_, hm, share_computes (n := max a.size b.size) (by simp only [Expr.size]; omega) he hm ?_⟩
      refine ha.map₂ hb (fun t u => callBuiltin (.ofBiFunc f) [t, u]) (fun t u v hv => ?_) fun t u env' ht hu => ?_
      · simpa [callBuiltin, Term.mentions, Term.allMentions] using hv
      · exact Shader.eval_biFunc h.builtins f ht hu
  | op o a b iha ihb =>
      obtain ⟨x, hx, ha⟩ := iha he.1 fun v hv => hbound v (by simp [Expr.names, hv])
      obtain ⟨y, hy, hb⟩ := ihb he.2 fun v hv => hbound v (by simp [Expr.names, hv])
      cases hn : Expr.productExponent? o b with
      | some n =>
          have hm : (Expr.op o a b).meaning c.clamp ρ = .ok (Expr.wholePower x n) := by
            simp only [Expr.meaning, hx, hn]
            rfl
          refine ⟨_, hm, share_computes (n := a.size) (by simp only [Expr.size]; omega) he hm ?_⟩
          simpa only [smallPower?_eq, hn] using ha.power n h he.1 hx
      | none =>
          have hm : (Expr.op o a b).meaning c.clamp ρ = .ok (o.apply x y) := by
            simp only [Expr.meaning, hx, hy, hn]
            rfl
          refine ⟨_, hm, share_computes (n := max a.size b.size) (by simp only [Expr.size]; omega) he hm ?_⟩
          simp only [smallPower?_eq, hn]
          refine ha.map₂ hb (binary o) (fun t u v hv => ?_) fun t u env' ht hu => ?_
          · rwa [mentions_binary] at hv
          · exact Shader.eval_binary h.builtins o ht hu

section Lists

def Lasting (c : Lowering L) (ctx : Context L K) (n : Nat) (env : Env K) (t : Term L) (x : K) : Prop :=
  c.Settled n t ∧ t.eval ctx env = .ok (.float x)

/-- From one sound state to a later one. -/
structure Extends (c : Lowering L) (ctx : Context L K) (env : Env K) (ρ : Valuation L K) (s : State L)
    (env₁ : Env K) (s' : State L) (env₂ : Env K) : Prop where
  holds : c.Holds ctx env ρ s' env₂
  size : s.temporaries.size ≤ s'.temporaries.size
  agrees : c.Agrees s.temporaries.size env₁ env₂

variable {s s' s'' : State L} {env₁ env₂ env₃ : Env K} {t : Term L} {x : K}

omit [Literal.Legible L] in
theorem Extends.refl (hs : c.Holds ctx env ρ s env₁) : c.Extends ctx env ρ s env₁ s env₁ :=
  ⟨hs, Nat.le_refl _, fun _ _ => rfl⟩

omit [Literal.Legible L] in
theorem Extends.trans (h : c.Extends ctx env ρ s env₁ s' env₂) (h' : c.Extends ctx env ρ s' env₂ s'' env₃) :
    c.Extends ctx env ρ s env₁ s'' env₃ :=
  ⟨h'.holds, Nat.le_trans h.size h'.size, h.agrees.trans h.size h'.agrees⟩

omit [Literal.Legible L] in
theorem Lasting.extends (ht : c.Lasting ctx s.temporaries.size env₁ t x) (h : c.Extends ctx env ρ s env₁ s' env₂) :
    c.Lasting ctx s'.temporaries.size env₂ t x :=
  ⟨ht.1.mono h.size, by rw [ht.1.eval_eq h.agrees, ht.2]⟩

theorem build_extends (h : c.Reads ctx env ρ) {e : Expr L} (he : e.Legible)
    (hbound : ∀ v ∈ e.names, (c.bindings.get? v).isSome = true) (hs : c.Holds ctx env ρ s env₁) :
    ∃ x t s' env₂, e.meaning c.clamp ρ = .ok x ∧ Runs (c.build e) s t s' ∧ c.Extends ctx env ρ s env₁ s' env₂ ∧
      c.Lasting ctx s'.temporaries.size env₂ t x := by
  obtain ⟨x, hx, hc⟩ := build_computes h he hbound
  obtain ⟨t, s', env₂, hrun, ht⟩ := hc s env₁ hs
  exact ⟨x, t, s', env₂, hx, hrun, ⟨ht.holds, ht.grows.size, ht.grows.agrees⟩, ht.settled, ht.eval⟩

def Renders (c : Lowering L) (ctx : Context L K) (ρ : Valuation L K) (n : Nat) (env : Env K) (e : Expr L)
    (t : Term L) : Prop :=
  ∃ x, e.meaning c.clamp ρ = .ok x ∧ c.Lasting ctx n env t x

theorem buildAll_renders (h : c.Reads ctx env ρ) {es : List (Expr L)} (hlegible : ∀ e ∈ es, e.Legible)
    (hbound : ∀ e ∈ es, ∀ v ∈ e.names, (c.bindings.get? v).isSome = true) (hs : c.Holds ctx env ρ s env₁) :
    ∃ ts s' env₂, Runs (c.buildAll es) s ts s' ∧ c.Extends ctx env ρ s env₁ s' env₂ ∧
      List.Forall₂ (c.Renders ctx ρ s'.temporaries.size env₂) es ts := by
  induction es generalizing s env₁ with
  | nil => exact ⟨[], s, env₁, .pure _ _, .refl hs, .nil⟩
  | cons e es ih =>
      obtain ⟨x, t, s', env₂, hx, hrun, hext, ht⟩ := build_extends h (hlegible e (by simp)) (hbound e (by simp)) hs
      obtain ⟨ts, s'', env₃, hrun', hext', hts⟩ :=
        ih (fun e he => hlegible e (by simp [he])) (fun e he => hbound e (by simp [he])) hext.holds
      exact ⟨t :: ts, s'', env₃, hrun.bind (hrun'.bind (.pure _ _)), hext.trans hext',
        .cons ⟨x, hx, ht.extends hext'⟩ hts⟩

end Lists

omit [Literal.Legible L] in
theorem prepare_runs (c : Lowering L) (es : List (Expr L)) :
    ∃ counts, Runs (c.prepare es) {} () { counts := counts } := by
  unfold prepare
  split
  · exact ⟨_, rfl⟩
  · exact ⟨{}, rfl⟩

omit [Literal.Legible L] in
theorem Holds.start (c : Lowering L) (ctx : Context L K) (env : Env K) (ρ : Valuation L K)
    (counts : Std.HashMap String Nat) : c.Holds ctx env ρ { counts := counts } env := by
  refine ⟨rfl, fun _ _ => rfl, fun key name hname => ?_⟩
  simp at hname

theorem lowerAll_renders (h : c.Reads ctx env ρ) (shared : List (Expr L)) {es : List (Expr L)}
    (hlegible : ∀ e ∈ es, e.Legible) (hbound : ∀ e ∈ es, ∀ v ∈ e.names, (c.bindings.get? v).isSome = true) :
    ∃ declarations ts n env', c.lowerAll shared es = .ok (declarations, ts) ∧
      Stmt.execAll ctx declarations env = .ok (env', .next) ∧ c.Agrees 0 env env' ∧
      List.Forall₂ (c.Renders ctx ρ n env') es ts := by
  obtain ⟨counts, hprepare⟩ := prepare_runs c shared
  obtain ⟨ts, s, env', hrun, hext, hts⟩ := buildAll_renders h hlegible hbound (.start c ctx env ρ counts)
  have hall : Runs (do
      c.prepare shared
      let terms ← c.buildAll es
      let declarations ← takeStatements
      return (declarations, terms)) {} (s.statements.toList, ts) { s with statements := #[] } :=
    hprepare.bind (hrun.bind rfl)
  refine ⟨s.statements.toList, ts, s.temporaries.size, env', ?_, hext.holds.runs, hext.holds.agrees, hts⟩
  exact congrArg Prod.fst hall

/-- Lowering preserves meaning, shared or not: the declarations run, and after them every expression
has the value of its formula. -/
theorem lowerAll_eval (c : Lowering L) (ctx : Context L K) (env : Env K) (ρ : Valuation L K) (es : List (Expr L))
    (h : c.Reads ctx env ρ) (hlegible : ∀ e ∈ es, e.Legible)
    (hbound : ∀ e ∈ es, ∀ v ∈ e.names, (c.bindings.get? v).isSome = true) :
    ∃ declarations ts env', c.lowerAll es es = .ok (declarations, ts) ∧
      Stmt.execAll ctx declarations env = .ok (env', .next) ∧
      List.Forall₂ (fun e t => ∃ x, e.meaning c.clamp ρ = .ok x ∧ t.eval ctx env' = .ok (.float x)) es ts := by
  obtain ⟨declarations, ts, n, env', hlower, hrun, -, hts⟩ := lowerAll_renders h es hlegible hbound
  refine ⟨declarations, ts, env', hlower, hrun, hts.imp ?_⟩
  rintro e t ⟨x, hx, -, ht⟩
  exact ⟨x, hx, ht⟩

/-- The inverse cube of a clamped arcsine, twice, in doubles: both subtrees and the base are shared. -/
theorem lowerAll_eval_inverse_cube :
    let e : Expr Float := .op .pow (.call .asin (.op .add (.var "x") (.literal 1.0))) (.literal (-3.0))
    let c : Lowering Float := emitting (.identity ["x"])
    let ctx : Context Float Float := ⟨id, [], fun _ => none⟩
    let ρ : Valuation Float Float := ⟨id, fun v => if v = "x" then some 0.5 else none⟩
    ∃ declarations ts env', c.lowerAll [e, e] [e, e] = .ok (declarations, ts) ∧
      Stmt.execAll ctx declarations [("x", .float 0.5)] = .ok (env', .next) ∧
      List.Forall₂ (fun e t => ∃ x, e.meaning c.clamp ρ = .ok x ∧ t.eval ctx env' = .ok (.float x)) [e, e] ts := by
  intro e c ctx ρ
  have hget (v : String) (t : Term Float) (h : c.bindings.get? v = some t) : v = "x" ∧ t = .var "x" := by
    have hbind : c.bindings.get? v = if "x" = v then some (.var "x") else none := Bindings.get?_bind {} "x" v _
    rw [hbind] at h
    split at h
    · next hv => exact ⟨hv.symm, (Option.some.inj h).symm⟩
    · cases h
  have hplain : Literal.Plain (1.0 : Float) ∧ Literal.Plain (-3.0 : Float) :=
    ⟨⟨by decide, fun h => absurd h (by decide)⟩, ⟨by decide, fun h => absurd h (by decide)⟩⟩
  have hlegible : e.Legible := ⟨⟨(by decide : Token.isIdentifier "x" = true), hplain.1⟩, hplain.2⟩
  refine lowerAll_eval c ctx _ ρ [e, e] ⟨fun _ => rfl, ⟨rfl, rfl, fun _ => rfl⟩, rfl, ?_, ?_⟩ ?_ ?_
  · intro v t ht
    obtain ⟨rfl, rfl⟩ := hget v t ht
    exact ⟨0.5, rfl, rfl⟩
  · intro v t stem ht hstem name hname
    obtain ⟨rfl, rfl⟩ := hget v t ht
    obtain rfl : Names.temporaryStem = stem := Option.some.inj hstem
    obtain rfl : name = "x" := by simpa [Term.mentions] using hname
    decide
  · simpa using hlegible
  · simp only [List.mem_cons, List.not_mem_nil, or_false, or_self, forall_eq]
    decide

end Lowering

end FlowShader
