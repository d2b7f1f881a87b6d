import FlowShader.Proofs.Expr.Names
import FlowShader.Proofs.Lowering.Typing

namespace FlowShader.Lowering

open Shader (Term Stmt)

variable {L : Type}

/-- The name of the temporary that is declared next. -/
def State.next (s : State L) (stem : String) : String := stem ++ toString s.temporaries.size

def State.declared (s : State L) (stem key : String) (value : Term L) : State L :=
  { s with
    temporaries := s.temporaries.insert key (s.next stem)
    statements := s.statements.push (.declare .float (s.next stem) value) }

variable [Literal L]

/-- The parts that are lowered for a formula. A power that becomes a product has no use for its exponent. -/
def operands : Expr L → List (Expr L)
  | .literal _ | .constant _ | .var _ => []
  | .call _ a => [a]
  | .call₂ _ a b => [a, b]
  | .op o a b => if (smallPower? o b).isSome then [a] else [a, b]

inductive Stands (c : Lowering L) : Expr L → Term L → Prop
  | literal (x : L) : Stands c (.literal x) (.float x)
  | constant (k : Constant) : Stands c (.constant k) (.float k.value)
  | var {v : String} {t : Term L} (h : c.bindings.get? v = some t) : Stands c (.var v) t

inductive Factors (stem : String) (base : Expr L) (n : Nat) (factor : Term L) (s : State L) :
    Term L → State L → Prop
  | plain (h : factor.isTrivial = true ∨ n ≤ 1) : Factors stem base n factor s factor s
  | known {name : String} (hn : 1 < n) (hfactor : factor.isTrivial = false)
      (h : s.temporaries[base.text ++ "#base"]? = some name) : Factors stem base n factor s (.var name) s
  | fresh (hn : 1 < n) (hfactor : factor.isTrivial = false) (h : s.temporaries[base.text ++ "#base"]? = none) :
      Factors stem base n factor s (.var (s.next stem)) (s.declared stem (base.text ++ "#base") factor)

def raised (factor : Term L) (n : Int) : Term L :=
  if n < 0 then .float 1 / product factor n.natAbs else product factor n.natAbs

/-- The expression for a formula from those for its operands. -/
inductive Assembles (c : Lowering L) (stem : String) (s : State L) :
    Expr L → List (Term L) → Term L → State L → Prop
  | call (f : Func) (a : Expr L) (x : Term L) :
      Assembles c stem s (.call f a) [x] (.call f.name [c.guardArgument f x]) s
  | call₂ (f : BiFunc) (a b : Expr L) (x y : Term L) :
      Assembles c stem s (.call₂ f a b) [x, y] (callBuiltin (.ofBiFunc f) [x, y]) s
  | op {o : Operator} {a b : Expr L} (x y : Term L) (h : smallPower? o b = none) :
      Assembles c stem s (.op o a b) [x, y] (binary o x y) s
  | power {o : Operator} {a b : Expr L} {x factor : Term L} {n : Int} {s' : State L}
      (h : smallPower? o b = some n) (hfactor : Factors stem a n.natAbs x s factor s') :
      Assembles c stem s (.op o a b) [x] (raised factor n) s'

/-- A lowered formula gets a temporary if it was counted more than once. -/
inductive Stores (stem : String) (e : Expr L) (value : Term L) (s : State L) : Term L → State L → Prop
  | once (h : s.counts.getD e.text 0 ≤ 1) : Stores stem e value s value s
  | shared (h : 1 < s.counts.getD e.text 0) :
      Stores stem e value s (.var (s.next stem)) (s.declared stem e.text value)

/-- Lowering formulas one after the other: the outcome, the state that is left, and all formulas that were
lowered on the way. -/
inductive Lowers (c : Lowering L) (stem : String) :
    List (Expr L) → State L → Except UnknownIdentifier (List (Term L)) → State L → List (Expr L) → Prop
  | nil (s : State L) : Lowers c stem [] s (.ok []) s []
  | leaf {e : Expr L} {es trace : List (Expr L)} {t : Term L} {s s' : State L}
      {r : Except UnknownIdentifier (List (Term L))} (hleaf : Stands c e t) (hrest : Lowers c stem es s r s' trace) :
      Lowers c stem (e :: es) s (r.map (t :: ·)) s' trace
  | unbound {v : String} (es : List (Expr L)) (s : State L) (h : c.bindings.get? v = none) :
      Lowers c stem (.var v :: es) s (.error ⟨v⟩) s []
  | reused {e : Expr L} {es trace : List (Expr L)} {name : String} {s s' : State L}
      {r : Except UnknownIdentifier (List (Term L))} (he : isLeaf e = false)
      (hname : s.temporaries[e.text]? = some name) (hrest : Lowers c stem es s r s' trace) :
      Lowers c stem (e :: es) s (r.map (.var name :: ·)) s' trace
  | failed {e : Expr L} (es : List (Expr L)) {trace : List (Expr L)} {u : UnknownIdentifier} {s s' : State L}
      (he : isLeaf e = false) (hname : s.temporaries[e.text]? = none)
      (hparts : Lowers c stem (operands e) s (.error u) s' trace) :
      Lowers c stem (e :: es) s (.error u) s' (e :: trace)
  | node {e : Expr L} {es parts trace : List (Expr L)} {ts : List (Term L)} {value t : Term L}
      {s s₁ s₂ s₃ s' : State L} {r : Except UnknownIdentifier (List (Term L))} (he : isLeaf e = false)
      (hname : s.temporaries[e.text]? = none) (hparts : Lowers c stem (operands e) s (.ok ts) s₁ parts)
      (hvalue : Assembles c stem s₁ e ts value s₂) (hstore : Stores stem e value s₂ t s₃)
      (hrest : Lowers c stem es s₃ r s' trace) :
      Lowers c stem (e :: es) s (r.map (t :: ·)) s' (e :: (parts ++ trace))

section Outcomes

omit [Literal L]

def outcome : Except UnknownIdentifier (List (Term L)) → List (Term L)
  | .ok ts => ts
  | .error _ => []

theorem mem_outcome_map {r : Except UnknownIdentifier (List (Term L))} {t u : Term L}
    (h : u ∈ outcome (r.map (t :: ·))) : u = t ∨ u ∈ outcome r := by
  cases r with
  | error => cases h
  | ok ts => exact List.mem_cons.1 h

end Outcomes

section Runs

variable {c : Lowering L} {stem : String}

section Binding

variable {α β : Type} {action : Action L α} {next : α → Action L β} {s s' : State L}

omit [Literal L] in
theorem run_bind_of_ok {a : α} (h : action.run.run s = (.ok a, s')) :
    (action >>= next).run.run s = (next a).run.run s' := by
  rw [ExceptT.run_bind, StateT.run_bind, h]
  rfl

omit [Literal L] in
theorem run_get_bind (next : State L → Action L β) (s : State L) :
    (get >>= next).run.run s = (next s).run.run s := rfl

omit [Literal L] in
theorem run_bind_of_error {u : UnknownIdentifier} (h : action.run.run s = (.error u, s')) :
    (action >>= next).run.run s = (.error u, s') := by
  rw [ExceptT.run_bind, StateT.run_bind, h]
  rfl

end Binding

def Begins (c : Lowering L) (stem : String) (e : Expr L) (s : State L) :
    Except UnknownIdentifier (Term L) × State L → Prop
  | (.ok t, s') => ∀ es r s'' trace, Lowers c stem es s' r s'' trace →
      ∃ trace', Lowers c stem (e :: es) s (r.map (t :: ·)) s'' trace'
  | (.error u, s') => ∀ es, ∃ trace, Lowers c stem (e :: es) s (.error u) s' trace

def Arises (c : Lowering L) (stem : String) (e : Expr L) (s : State L) :
    Except UnknownIdentifier (Term L) × State L → Prop
  | (.ok t, s') => ∃ ts s₁ trace, Lowers c stem (operands e) s (.ok ts) s₁ trace ∧ Assembles c stem s₁ e ts t s'
  | (.error u, s') => ∃ trace, Lowers c stem (operands e) s (.error u) s' trace

theorem share_of_known (hstem : c.hoist = some stem) {e : Expr L} {s : State L} {name : String}
    (hname : s.temporaries[e.text]? = some name) (lowered : Action L (Term L)) :
    (c.share e lowered).run.run s = (.ok (.var name), s) := by
  simp only [share, hstem]
  rw [run_get_bind, hname]
  rfl

theorem share_of_unknown (hstem : c.hoist = some stem) {e : Expr L} {s : State L}
    (hname : s.temporaries[e.text]? = none) (lowered : Action L (Term L)) :
    (c.share e lowered).run.run s = (do
      let value ← lowered
      if 1 < (← get).counts.getD e.text 0 then declare stem e.text value else return value).run.run s := by
  simp only [share, hstem]
  rw [run_get_bind, hname]

theorem share_begins (hstem : c.hoist = some stem) {e : Expr L} (he : isLeaf e = false)
    {lowered : Action L (Term L)} {s : State L} (h : Arises c stem e s (lowered.run.run s)) :
    Begins c stem e s ((c.share e lowered).run.run s) := by
  cases hname : s.temporaries[e.text]? with
  | some name =>
      rw [share_of_known hstem hname]
      exact fun es r s'' trace hrest => ⟨trace, .reused he hname hrest⟩
  | none =>
      rw [share_of_unknown hstem hname]
      rcases hrun : lowered.run.run s with ⟨_ | t, s₂⟩
      · rw [hrun] at h
        rw [run_bind_of_error hrun]
        obtain ⟨trace, hparts⟩ := h
        exact fun es => ⟨_, .failed es he hname hparts⟩
      · rw [hrun] at h
        rw [run_bind_of_ok hrun, run_get_bind]
        obtain ⟨ts, s₁, parts, hparts, hvalue⟩ := h
        split
        · next hcount => exact fun es r s'' trace hrest => ⟨_, .node he hname hparts hvalue (.shared hcount) hrest⟩
        · next hcount =>
          exact fun es r s'' trace hrest => ⟨_, .node he hname hparts hvalue (.once (Nat.le_of_not_lt hcount)) hrest⟩

theorem shareFactor_factors (hstem : c.hoist = some stem) (base : Expr L) (n : Nat) (x : Term L) (s : State L) :
    ∃ factor s', (c.shareFactor base n x).run.run s = (.ok factor, s') ∧ Factors stem base n x s factor s' := by
  simp only [shareFactor, hstem]
  split
  · next h => exact ⟨x, s, rfl, .plain (by simpa using h)⟩
  · next h =>
    simp only [Bool.or_eq_true, decide_eq_true_eq, not_or, Bool.not_eq_true, Nat.not_le] at h
    rw [run_get_bind]
    cases hname : s.temporaries[base.text ++ "#base"]? with
    | some name => exact ⟨.var name, s, rfl, .known h.2 h.1 hname⟩
    | none => exact ⟨_, _, rfl, .fresh h.2 h.1 hname⟩

theorem power_assembles (hstem : c.hoist = some stem) {o : Operator} {a b : Expr L} {n : Int}
    (h : smallPower? o b = some n) (x : Term L) (s : State L) :
    ∃ t s', (c.power a n x).run.run s = (.ok t, s') ∧ Assembles c stem s (.op o a b) [x] t s' := by
  obtain ⟨factor, s', hrun, hfactor⟩ := shareFactor_factors hstem a n.natAbs x s
  exact ⟨_, s', by rw [power, run_bind_of_ok hrun]; rfl, .power h hfactor⟩

theorem arises_of_one {e a : Expr L} (hparts : operands e = [a]) {s : State L}
    (ha : Begins c stem a s ((c.build a).run.run s)) {next : Term L → Action L (Term L)}
    (hnext : ∀ x s₁, ∃ t s', (next x).run.run s₁ = (.ok t, s') ∧ Assembles c stem s₁ e [x] t s') :
    Arises c stem e s ((c.build a >>= next).run.run s) := by
  rcases hrun : (c.build a).run.run s with ⟨u | x, s₁⟩
  · rw [hrun] at ha
    rw [run_bind_of_error hrun]
    obtain ⟨trace, h⟩ := ha []
    exact ⟨trace, hparts ▸ h⟩
  · rw [hrun] at ha
    obtain ⟨t, s', hrun', hvalue⟩ := hnext x s₁
    rw [run_bind_of_ok hrun, hrun']
    obtain ⟨trace, h⟩ := ha [] _ _ _ (.nil s₁)
    exact ⟨[x], s₁, trace, hparts ▸ h, hvalue⟩

theorem arises_of_two {e a b : Expr L} (hparts : operands e = [a, b]) {s : State L}
    (ha : Begins c stem a s ((c.build a).run.run s)) (hb : ∀ s, Begins c stem b s ((c.build b).run.run s))
    {g : Term L → Term L → Term L} (hg : ∀ x y s₁, Assembles c stem s₁ e [x, y] (g x y) s₁) :
    Arises c stem e s ((do let x ← c.build a; let y ← c.build b; return g x y : Action L (Term L)).run.run s) := by
  rcases hrun : (c.build a).run.run s with ⟨u | x, s₁⟩
  · rw [hrun] at ha
    rw [run_bind_of_error hrun]
    obtain ⟨trace, h⟩ := ha [b]
    exact ⟨trace, hparts ▸ h⟩
  · rw [hrun] at ha
    rw [run_bind_of_ok hrun]
    have hb := hb s₁
    rcases hrun' : (c.build b).run.run s₁ with ⟨u | y, s₂⟩
    · rw [hrun'] at hb
      rw [run_bind_of_error hrun']
      obtain ⟨trace, h⟩ := hb []
      obtain ⟨trace', h'⟩ := ha _ _ _ _ h
      exact ⟨trace', hparts ▸ h'⟩
    · rw [hrun'] at hb
      rw [run_bind_of_ok hrun']
      obtain ⟨trace, h⟩ := hb [] _ _ _ (.nil s₂)
      obtain ⟨trace', h'⟩ := ha _ _ _ _ h
      exact ⟨[x, y], s₂, trace', hparts ▸ h', hg x y s₂⟩

theorem build_begins (hstem : c.hoist = some stem) (e : Expr L) (s : State L) :
    Begins c stem e s ((c.build e).run.run s) := by
  induction e generalizing s with
  | literal x => exact fun es r s'' trace hrest => ⟨trace, .leaf (.literal x) hrest⟩
  | constant k => exact fun es r s'' trace hrest => ⟨trace, .leaf (.constant k) hrest⟩
  | var v =>
      rw [build]
      cases h : c.bindings.get? v with
      | some t => exact fun es r s'' trace hrest => ⟨trace, .leaf (.var h) hrest⟩
      | none => exact fun es => ⟨[], .unbound es s h⟩
  | call f a ih =>
      exact share_begins hstem rfl (arises_of_one rfl (ih s) fun x s₁ => ⟨_, s₁, rfl, .call f a x⟩)
  | call₂ f a b iha ihb =>
      exact share_begins hstem rfl (arises_of_two rfl (iha s) ihb fun x y s₁ => .call₂ f a b x y)
  | op o a b iha ihb =>
      refine share_begins hstem rfl ?_
      cases hn : smallPower? o b with
      | some n => exact arises_of_one (by simp [operands, hn]) (iha s) fun x s₁ => power_assembles hstem hn x s₁
      | none => exact arises_of_two (by simp [operands, hn]) (iha s) ihb fun x y s₁ => .op x y hn

theorem buildAll_lowers (hstem : c.hoist = some stem) (es : List (Expr L)) (s : State L) :
    ∃ trace, Lowers c stem es s ((c.buildAll es).run.run s).1 ((c.buildAll es).run.run s).2 trace := by
  induction es generalizing s with
  | nil => exact ⟨[], .nil s⟩
  | cons e es ih =>
      have he := build_begins hstem e s
      rcases hrun : (c.build e).run.run s with ⟨u | t, s₁⟩
      · rw [hrun] at he
        rw [buildAll, run_bind_of_error hrun]
        exact he es
      · rw [hrun] at he
        obtain ⟨trace, hrest⟩ := ih s₁
        obtain ⟨trace', h⟩ := he es _ _ _ hrest
        rw [buildAll, run_bind_of_ok hrun]
        rcases hrun' : (c.buildAll es).run.run s₁ with ⟨u | ts, s₂⟩
        · rw [hrun'] at h
          rw [run_bind_of_error hrun']
          exact ⟨trace', h⟩
        · rw [hrun'] at h
          rw [run_bind_of_ok hrun']
          exact ⟨trace', h⟩

theorem build_lowers (hstem : c.hoist = some stem) (e : Expr L) (s : State L) :
    ∃ trace, Lowers c stem [e] s (((c.build e).run.run s).1.map ([·])) ((c.build e).run.run s).2 trace := by
  have he := build_begins hstem e s
  rcases hrun : (c.build e).run.run s with ⟨u | t, s₁⟩
  · rw [hrun] at he
    exact he []
  · rw [hrun] at he
    exact he [] _ _ _ (.nil s₁)

end Runs

section Parts

variable {a d e : Expr L}

theorem literal_of_smallPower? {o : Operator} {b : Expr L} (h : (smallPower? o b).isSome = true) :
    ∃ x, b = .literal x := by
  unfold smallPower? at h
  split at h
  · exact ⟨_, rfl⟩
  · cases h

theorem mem_subtrees_of_mem_operands (h : a ∈ operands e) : a ∈ e.subtrees := by
  have hself := a.mem_subtrees_self
  cases e with
  | literal | constant | var => cases h
  | call f b =>
      obtain rfl := List.mem_singleton.1 h
      exact List.mem_cons_of_mem _ hself
  | call₂ f b b' =>
      refine List.mem_cons_of_mem _ (List.mem_append.2 ?_)
      rcases List.mem_pair.1 h with rfl | rfl
      · exact .inl hself
      · exact .inr hself
  | op o b b' =>
      refine List.mem_cons_of_mem _ (List.mem_append.2 ?_)
      rw [operands] at h
      split at h
      · obtain rfl := List.mem_singleton.1 h
        exact .inl hself
      · rcases List.mem_pair.1 h with rfl | rfl
        · exact .inl hself
        · exact .inr hself

theorem mem_names_of_mem_operands (h : a ∈ operands e) {v : String} (hv : v ∈ a.names) : v ∈ e.names :=
  Expr.Over.of_mem_subtrees (fun _ h => h) a (mem_subtrees_of_mem_operands h) v hv

theorem length_text_lt_of_mem_operands (h : a ∈ operands e) : a.text.length < e.text.length := by
  cases e with
  | literal | constant | var => cases h
  | call f b =>
      obtain rfl := List.mem_singleton.1 h
      exact length_text_call f a
  | call₂ f b b' =>
      rcases List.mem_pair.1 h with rfl | rfl
      · exact (length_text_call₂ f a b').1
      · exact (length_text_call₂ f b a).2
  | op o b b' =>
      rw [operands] at h
      split at h
      · obtain rfl := List.mem_singleton.1 h
        exact (length_text_op o a b').1
      · rcases List.mem_pair.1 h with rfl | rfl
        · exact (length_text_op o a b').1
        · exact (length_text_op o b a).2

theorem length_text_le_of_mem_subtrees (h : d ∈ e.subtrees) : d.text.length ≤ e.text.length := by
  induction e with
  | literal | constant | var => rw [List.mem_singleton.1 h]
  | call f a ih =>
      rcases List.mem_cons.1 h with rfl | h
      · exact Nat.le_refl _
      · exact (ih h).trans (length_text_call f a).le
  | call₂ f a b iha ihb =>
      rcases List.mem_cons.1 h with rfl | h
      · exact Nat.le_refl _
      · rcases List.mem_append.1 h with h | h
        · exact (iha h).trans (length_text_call₂ f a b).1.le
        · exact (ihb h).trans (length_text_call₂ f a b).2.le
  | op o a b iha ihb =>
      rcases List.mem_cons.1 h with rfl | h
      · exact Nat.le_refl _
      · rcases List.mem_append.1 h with h | h
        · exact (iha h).trans (length_text_op o a b).1.le
        · exact (ihb h).trans (length_text_op o a b).2.le

end Parts

section Keys

variable {c : Lowering L} {stem key : String} {e base : Expr L} {es trace : List (Expr L)} {ts : List (Term L)}
  {value t : Term L} {n : Nat} {s s' s₁ s₂ : State L} {r : Except UnknownIdentifier (List (Term L))}

omit [Literal L] in
theorem mem_declared {key' : String} :
    key ∈ (s.declared stem key' value).temporaries ↔ key = key' ∨ key ∈ s.temporaries := by
  rw [State.declared, Std.HashMap.mem_insert, beq_iff_eq, eq_comm]

omit [Literal L] in
theorem not_mem_of_getElem? (h : s.temporaries[key]? = none) : key ∉ s.temporaries := by
  rw [Std.HashMap.mem_iff_isSome_getElem?, h]
  simp

theorem Factors.keys (h : Factors stem base n value s t s') (hkey : key ∈ s'.temporaries) :
    key ∈ s.temporaries ∨ key = base.text ++ "#base" := by
  cases h with
  | plain | known => exact .inl hkey
  | fresh => exact (mem_declared.1 hkey).symm

theorem Assembles.keys (h : Assembles c stem s e ts t s') (hkey : key ∈ s'.temporaries) :
    key ∈ s.temporaries ∨ ∃ a ∈ operands e, key = a.text ++ "#base" := by
  cases h with
  | call | call₂ | op => exact .inl hkey
  | @power o a b x factor n _ hn hfactor =>
      refine (hfactor.keys hkey).imp id fun h => ⟨a, ?_, h⟩
      simp [operands, hn]

theorem Stores.keys (h : Stores stem e value s t s') (hkey : key ∈ s'.temporaries) :
    key ∈ s.temporaries ∨ key = e.text := by
  cases h with
  | once => exact .inl hkey
  | shared => exact (mem_declared.1 hkey).symm

theorem Lowers.mem_subtrees (h : Lowers c stem es s r s' trace) :
    ∀ d ∈ trace, isLeaf d = false ∧ ∃ e ∈ es, d ∈ e.subtrees := by
  have hlater {e : Expr L} {es : List (Expr L)} {d : Expr L} (hd : isLeaf d = false ∧ ∃ f ∈ es, d ∈ f.subtrees) :
      isLeaf d = false ∧ ∃ f ∈ e :: es, d ∈ f.subtrees := by
    obtain ⟨hd, f, hf, hsub⟩ := hd
    exact ⟨hd, f, List.mem_cons_of_mem _ hf, hsub⟩
  have hpart {e : Expr L} {es : List (Expr L)} {d : Expr L}
      (hd : isLeaf d = false ∧ ∃ a ∈ operands e, d ∈ a.subtrees) :
      isLeaf d = false ∧ ∃ f ∈ e :: es, d ∈ f.subtrees := by
    obtain ⟨hd, a, ha, hsub⟩ := hd
    exact ⟨hd, e, List.mem_cons_self, Expr.mem_subtrees_trans (mem_subtrees_of_mem_operands ha) hsub⟩
  induction h with
  | nil | unbound => exact nofun
  | leaf _ _ ih | reused _ _ _ ih => exact fun d hd => hlater (ih d hd)
  | @failed e _ _ _ _ _ he _ _ ih =>
      intro d hd
      rcases List.mem_cons.1 hd with rfl | hd
      · exact ⟨he, d, List.mem_cons_self, d.mem_subtrees_self⟩
      · exact hpart (ih d hd)
  | @node e _ _ _ _ _ _ _ _ _ _ _ _ he _ _ _ _ _ ihparts ihrest =>
      intro d hd
      rcases List.mem_cons.1 hd with rfl | hd
      · exact ⟨he, d, List.mem_cons_self, d.mem_subtrees_self⟩
      · rcases List.mem_append.1 hd with hd | hd
        · exact hpart (ihparts d hd)
        · exact hlater (ihrest d hd)

/-- Temporaries are made for the formulas that are lowered, and for bases. -/
theorem Lowers.keys (h : Lowers c stem es s r s' trace) (hkey : key ∈ s'.temporaries) :
    key ∈ s.temporaries ∨ (∃ d ∈ trace, key = d.text) ∨ ∃ base, key = base ++ "#base" := by
  induction h with
  | nil | unbound => exact .inl hkey
  | leaf _ _ ih | reused _ _ _ ih => exact ih hkey
  | failed _ _ _ _ ih =>
      rcases ih hkey with h | ⟨d, hd, h⟩ | h
      · exact .inl h
      · exact .inr (.inl ⟨d, List.mem_cons_of_mem _ hd, h⟩)
      · exact .inr (.inr h)
  | @node e _ _ _ _ _ _ _ _ _ _ _ _ _ _ _ hvalue hstore _ ihparts ihrest =>
      rcases ihrest hkey with hkey | ⟨d, hd, h⟩ | h
      · rcases hstore.keys hkey with hkey | h
        · rcases hvalue.keys hkey with hkey | ⟨a, -, h⟩
          · rcases ihparts hkey with h | ⟨d, hd, h⟩ | h
            · exact .inl h
            · exact .inr (.inl ⟨d, List.mem_cons_of_mem _ (List.mem_append_left _ hd), h⟩)
            · exact .inr (.inr h)
          · exact .inr (.inr ⟨_, h⟩)
        · exact .inr (.inl ⟨e, List.mem_cons_self, h⟩)
      · exact .inr (.inl ⟨d, List.mem_cons_of_mem _ (List.mem_append_right _ hd), h⟩)
      · exact .inr (.inr h)

theorem text_not_mem (he : isLeaf e = false) (hname : s.temporaries[e.text]? = none)
    (hparts : Lowers c stem (operands e) s r s₁ trace) (hvalue : Assembles c stem s₁ e ts value s₂) :
    e.text ∉ s₂.temporaries := by
  intro hmem
  -- The parts bring in shorter texts, and keys of bases, which do not end with a parenthesis.
  rcases hvalue.keys hmem with hmem | ⟨a, -, hbase⟩
  · rcases hparts.keys hmem with hmem | ⟨d, hd, htext⟩ | hbase
    · exact not_mem_of_getElem? hname hmem
    · obtain ⟨-, a, ha, hsub⟩ := hparts.mem_subtrees d hd
      have hle := length_text_le_of_mem_subtrees hsub
      have hlt := length_text_lt_of_mem_operands ha
      rw [htext] at hlt
      exact Nat.lt_irrefl _ (Nat.lt_of_le_of_lt hle hlt)
    · exact not_minor_text he (.inr hbase)
  · exact not_minor_text he (.inr ⟨_, hbase⟩)

end Keys

end FlowShader.Lowering
