import FlowShader.Proofs.Lowering.Trace

namespace FlowShader.Lowering

open Shader (Term Stmt)

/-- What is asked of a lowering. -/
inductive Request (L : Type) where
  | prepare (es : List (Expr L))
  | build (e : Expr L)
  | take

/-- A lowering in use: its state, and the declarations that were taken from it. -/
structure Session (L : Type) where
  state : State L := {}
  taken : List (Stmt L) := []

variable {L : Type}

def Request.lowered : Request L → List (Expr L)
  | .build e => [e]
  | .prepare _ | .take => []

def Session.emitted (s : Session L) : List (Stmt L) := s.taken ++ s.state.statements.toList

def numberedDeclarations (stem : String) (values : List (Term L)) : List (Stmt L) :=
  values.mapIdx fun k t => .declare .float (stem ++ toString k) t

/-- The expression mentions the first `n` temporaries only, and what variables stand for. -/
def Within (c : Lowering L) (stem : String) (n : Nat) (t : Term L) : Prop :=
  ∀ name ∈ t.mentions, (∃ k < n, name = stem ++ toString k) ∨ ∃ v u, c.bindings.get? v = some u ∧ name ∈ u.mentions

def isUnbound (c : Lowering L) (v : String) : Bool := (c.bindings.get? v).isNone

variable [Literal L]

namespace Session

def reply (c : Lowering L) (s : Session L) (e : Expr L) : Except UnknownIdentifier (Term L) :=
  ((c.build e).run.run s.state).1

def serve (c : Lowering L) (s : Session L) : Request L → Session L
  | .prepare es => { s with state := ((c.prepare es).run.run s.state).2 }
  | .build e => { s with state := ((c.build e).run.run s.state).2 }
  | .take =>
    match takeStatements.run.run s.state with
    | (.ok statements, state) => ⟨state, s.taken ++ statements⟩
    | (.error _, state) => { s with state := state }

def after (c : Lowering L) (history : List (Request L)) : Session L := history.foldl (serve c) {}

end Session

variable {c : Lowering L} {stem key : String} {taken : List (Stmt L)} {s s' : State L} {t value : Term L}
  {e base : Expr L} {es trace : List (Expr L)} {ts : List (Term L)} {r : Except UnknownIdentifier (List (Term L))}

section Numbering

structure Consistent (c : Lowering L) (stem : String) (taken : List (Stmt L)) (s : State L) : Prop where
  emitted : ∃ values, taken ++ s.statements.toList = numberedDeclarations stem values ∧
    values.length = s.temporaries.size ∧ ∀ k t, values[k]? = some t → c.Within stem k t
  names (key name : String) : s.temporaries[key]? = some name → ∃ k < s.temporaries.size, name = stem ++ toString k

/-- A step from a consistent state to another one, with expressions over what is declared then. -/
structure Advances (c : Lowering L) (stem : String) (taken : List (Stmt L)) (s s' : State L) (ts : List (Term L)) :
    Prop where
  consistent : c.Consistent stem taken s'
  size : s.temporaries.size ≤ s'.temporaries.size
  within : ∀ t ∈ ts, c.Within stem s'.temporaries.size t

omit [Literal L] in
theorem Within.mono {m n : Nat} (h : m ≤ n) (ht : c.Within stem m t) : c.Within stem n t := by
  intro name hname
  refine (ht name hname).imp ?_ id
  rintro ⟨k, hk, hk'⟩
  exact ⟨k, Nat.lt_of_lt_of_le hk h, hk'⟩

omit [Literal L] in
theorem Within.of_mentions {u : Term L} {n : Nat} (h : ∀ name ∈ u.mentions, name ∈ t.mentions)
    (ht : c.Within stem n t) : c.Within stem n u :=
  fun name hname => ht name (h name hname)

omit [Literal L] in
theorem within_var {n k : Nat} (hk : k < n) : c.Within stem n (.var (stem ++ toString k)) := by
  intro name hname
  exact .inl ⟨k, hk, List.mem_singleton.1 hname⟩

theorem Stands.within (h : Stands c e t) (n : Nat) : c.Within stem n t := by
  cases h with
  | literal | constant => exact nofun
  | var h => exact fun name hname => .inr ⟨_, t, h, hname⟩

omit [Literal L] in
theorem size_declared (hkey : key ∉ s.temporaries) :
    (s.declared stem key value).temporaries.size = s.temporaries.size + 1 := by
  rw [State.declared, Std.HashMap.size_insert, if_neg hkey]

omit [Literal L] in
theorem Advances.refl (h : c.Consistent stem taken s) (hts : ∀ t ∈ ts, c.Within stem s.temporaries.size t) :
    c.Advances stem taken s s ts :=
  ⟨h, Nat.le_refl _, hts⟩

omit [Literal L] in
theorem Consistent.reuse (h : c.Consistent stem taken s) {name : String} (hname : s.temporaries[key]? = some name) :
    c.Within stem s.temporaries.size (.var name) := by
  obtain ⟨k, hk, rfl⟩ := h.names key name hname
  exact within_var hk

omit [Literal L] in
theorem Consistent.declared (h : c.Consistent stem taken s) (hkey : key ∉ s.temporaries)
    (ht : c.Within stem s.temporaries.size value) :
    c.Advances stem taken s (s.declared stem key value) [.var (s.next stem)] := by
  obtain ⟨values, hemitted, hlength, hwithin⟩ := h.emitted
  -- As the key is new, there are still as many temporaries as declarations.
  have hsize : (s.declared stem key value).temporaries.size = s.temporaries.size + 1 := size_declared hkey
  refine ⟨⟨⟨values ++ [value], ?_, ?_, ?_⟩, ?_⟩, ?_, ?_⟩
  · rw [State.declared, Array.toList_push, ← List.append_assoc, hemitted, numberedDeclarations, numberedDeclarations,
      List.mapIdx_append, List.mapIdx_singleton, Nat.zero_add, hlength]
    rfl
  · rw [List.length_append, hlength, hsize]
    rfl
  · intro k t hk
    rw [List.getElem?_append] at hk
    split at hk
    · exact hwithin k t hk
    · next hle =>
      obtain rfl : value = t := by
        rw [List.getElem?_singleton] at hk
        split at hk
        · exact Option.some.inj hk
        · cases hk
      exact ht.mono (by omega)
  · intro key' name hname
    rw [hsize]
    rw [State.declared, Std.HashMap.getElem?_insert] at hname
    split at hname
    · exact ⟨_, Nat.lt_succ_self _, (Option.some.inj hname).symm⟩
    · obtain ⟨k, hk, hk'⟩ := h.names key' name hname
      exact ⟨k, Nat.lt_succ_of_lt hk, hk'⟩
  · rw [hsize]
    exact Nat.le_succ _
  · intro t ht
    obtain rfl := List.mem_singleton.1 ht
    rw [hsize]
    exact within_var (Nat.lt_succ_self _)

theorem Factors.advances {n : Nat} (h : Factors stem base n value s t s') (hs : c.Consistent stem taken s)
    (hvalue : c.Within stem s.temporaries.size value) : c.Advances stem taken s s' [t] := by
  cases h with
  | plain => exact .refl hs (by simpa using hvalue)
  | known _ _ hname => exact .refl hs (by simpa using hs.reuse hname)
  | fresh _ _ hname => exact hs.declared (not_mem_of_getElem? hname) hvalue

theorem mem_mentions_raised {name : String} {n : Int} (h : name ∈ (raised t n).mentions) : name ∈ t.mentions := by
  unfold raised at h
  split at h
  · have h : name ∈ [] ++ (product t n.natAbs).mentions := h
    exact mem_mentions_product (by simpa using h)
  · exact mem_mentions_product h

theorem Assembles.advances (h : Assembles c stem s e ts t s') (hs : c.Consistent stem taken s)
    (hts : ∀ x ∈ ts, c.Within stem s.temporaries.size x) : c.Advances stem taken s s' [t] := by
  have hone {u : Term L} (hu : ∀ name ∈ u.mentions, ∃ x ∈ ts, name ∈ x.mentions) :
      ∀ t ∈ [u], c.Within stem s.temporaries.size t := by
    intro t ht name hname
    obtain rfl := List.mem_singleton.1 ht
    obtain ⟨x, hx, hname⟩ := hu name hname
    exact hts x hx name hname
  cases h with
  | call f a x =>
      refine .refl hs (hone fun name hname => ⟨x, by simp, ?_⟩)
      simpa [Term.mentions, Term.allMentions, mentions_guardArgument] using hname
  | call₂ f a b x y =>
      refine .refl hs (hone fun name hname => ?_)
      simpa [callBuiltin, Term.mentions, Term.allMentions] using hname
  | op x y =>
      refine .refl hs (hone fun name hname => ?_)
      rw [mentions_binary] at hname
      simpa using hname
  | @power o a b x factor n _ hn hfactor =>
      have hadv := hfactor.advances hs (hts x (by simp))
      refine ⟨hadv.consistent, hadv.size, fun u hu => ?_⟩
      obtain rfl := List.mem_singleton.1 hu
      exact (hadv.within factor (by simp)).of_mentions fun name => mem_mentions_raised

theorem Stores.advances (h : Stores stem e value s t s') (hs : c.Consistent stem taken s)
    (hkey : e.text ∉ s.temporaries) (hvalue : c.Within stem s.temporaries.size value) :
    c.Advances stem taken s s' [t] := by
  cases h with
  | once => exact .refl hs (by simpa using hvalue)
  | shared => exact hs.declared hkey hvalue

theorem Lowers.advances (h : Lowers c stem es s r s' trace) (hs : c.Consistent stem taken s) :
    c.Advances stem taken s s' (outcome r) := by
  have hcons {s s₁ s' : State L} {t : Term L} {r : Except UnknownIdentifier (List (Term L))}
      (ht : c.Advances stem taken s s₁ [t]) (hrest : c.Advances stem taken s₁ s' (outcome r)) :
      c.Advances stem taken s s' (outcome (r.map (t :: ·))) := by
    refine ⟨hrest.consistent, ht.size.trans hrest.size, fun u hu => ?_⟩
    rcases mem_outcome_map hu with rfl | hu
    · exact (ht.within u (by simp)).mono hrest.size
    · exact hrest.within u hu
  induction h with
  | nil | unbound => exact .refl hs nofun
  | leaf hleaf _ ih => exact hcons (.refl hs (by simpa using hleaf.within _)) (ih hs)
  | reused _ hname _ ih => exact hcons (.refl hs (by simpa using hs.reuse hname)) (ih hs)
  | failed _ _ _ _ ih => exact ih hs
  | node he hname hparts hvalue hstore _ ihparts ihrest =>
      have hadv := ihparts hs
      have hadv' := hvalue.advances hadv.consistent hadv.within
      have hadv'' := hstore.advances hadv'.consistent (text_not_mem he hname hparts hvalue) (hadv'.within _ (by simp))
      exact hcons ⟨hadv''.consistent, hadv.size.trans (hadv'.size.trans hadv''.size), hadv''.within⟩
        (ihrest hadv''.consistent)

theorem build_advances (hstem : c.hoist = some stem) (hs : c.Consistent stem taken s) (e : Expr L) :
    c.Advances stem taken s ((c.build e).run.run s).2 (outcome (((c.build e).run.run s).1.map ([·]))) := by
  obtain ⟨trace, h⟩ := build_lowers hstem e s
  exact h.advances hs

theorem Consistent.serve (hstem : c.hoist = some stem) {s : Session L} (hs : c.Consistent stem s.taken s.state)
    (q : Request L) : c.Consistent stem (s.serve c q).taken (s.serve c q).state := by
  cases q with
  | prepare es =>
      rw [Session.serve, prepare, hstem]
      exact ⟨hs.emitted, hs.names⟩
  | build e => exact (build_advances hstem hs e).consistent
  | take =>
      refine ⟨?_, hs.names⟩
      obtain ⟨values, hemitted, hlength, hwithin⟩ := hs.emitted
      refine ⟨values, ?_, hlength, hwithin⟩
      rw [← hemitted]
      exact List.append_nil _

theorem consistent_after (hstem : c.hoist = some stem) (history : List (Request L)) :
    c.Consistent stem (Session.after c history).taken (Session.after c history).state := by
  have hrun (s : Session L) (hs : c.Consistent stem s.taken s.state) :
      c.Consistent stem (history.foldl (Session.serve c) s).taken (history.foldl (Session.serve c) s).state := by
    induction history generalizing s with
    | nil => exact hs
    | cons q history ih => exact ih _ (hs.serve hstem q)
  exact hrun {} ⟨⟨[], rfl, rfl, nofun⟩, fun key name h => by simp at h⟩

end Numbering

section Failure

def failure? {α : Type} : Except UnknownIdentifier α → Option String
  | .ok _ => none
  | .error u => some u.name

theorem failure?_map {α β : Type} (f : α → β) (r : Except UnknownIdentifier α) : failure? (r.map f) = failure? r := by
  cases r <;> rfl

theorem failure?_eq_some {α : Type} {r : Except UnknownIdentifier α} {v : String} :
    failure? r = some v ↔ r = .error ⟨v⟩ := by
  cases r with
  | ok a => simp [failure?]
  | error u =>
      obtain ⟨w⟩ := u
      simp [failure?]

def Vouched (c : Lowering L) (s : State L) : Prop :=
  ∀ key ∈ s.temporaries, ∃ f : Expr L, f.Readable ∧ KeyOf key f ∧ c.Covers f

omit [Literal L] in
theorem covers_iff : c.Covers e ↔ e.names.find? c.isUnbound = none := by
  simp [Covers, isUnbound, List.find?_eq_none, Option.isSome_iff_ne_none]

theorem names_operands (he : isLeaf e = false) : (operands e).flatMap Expr.names = e.names := by
  cases e with
  | literal | constant | var => cases he
  | call f a => simp [operands, Expr.names]
  | call₂ f a b => simp [operands, Expr.names]
  | op o a b =>
      rw [operands]
      split
      · next h =>
        obtain ⟨x, rfl⟩ := literal_of_smallPower? h
        simp [Expr.names]
      · simp [Expr.names]

theorem readable_of_mem_operands (he : e.Readable) {a : Expr L} (ha : a ∈ operands e) : a.Readable :=
  he.subtree (mem_subtrees_of_mem_operands ha)

theorem Stands.covers (h : Stands c e t) : c.Covers e := by
  cases h with
  | literal | constant => exact nofun
  | var h =>
      intro w hw
      obtain rfl := List.mem_singleton.1 hw
      simp [h]

theorem Vouched.step (hs : Vouched c s) (hkeys : ∀ key ∈ s'.temporaries, key ∈ s.temporaries ∨ ∃ f : Expr L,
    f.Readable ∧ KeyOf key f ∧ c.Covers f) : Vouched c s' :=
  fun key hkey => (hkeys key hkey).elim (hs key) id

theorem Assembles.vouched (h : Assembles c stem s e ts t s') (hread : e.Readable) (hc : c.Covers e)
    (hs : Vouched c s) : Vouched c s' := by
  refine hs.step fun key hkey => (h.keys hkey).imp id ?_
  rintro ⟨a, ha, hbase⟩
  exact ⟨a, readable_of_mem_operands hread ha, .inr hbase, fun v hv => hc v (mem_names_of_mem_operands ha hv)⟩

theorem Stores.vouched (h : Stores stem e value s t s') (hread : e.Readable) (hc : c.Covers e)
    (hs : Vouched c s) : Vouched c s' :=
  hs.step fun _ hkey => (h.keys hkey).imp id fun htext => ⟨e, hread, .inl htext, hc⟩

variable [Literal.Legible L] [Literal.Zeros L]

theorem KeyOf.unsigned_eq {f : Expr L} (he : e.Readable) (hf : f.Readable) (h : KeyOf key e) (h' : KeyOf key f) :
    e.unsigned = f.unsigned := by
  have hkey (g : Expr L) (hg : g.Readable) (h : KeyOf key g) : KeyOf key g.unsigned := by
    rwa [KeyOf, Expr.text_unsigned hg]
  exact KeyOf.unique (Expr.legible_unsigned he) (Expr.legible_unsigned hf) (hkey e he h) (hkey f hf h')

theorem KeyOf.names_eq {f : Expr L} (he : e.Readable) (hf : f.Readable) (h : KeyOf key e) (h' : KeyOf key f) :
    e.names = f.names := by
  rw [← e.names_unsigned, ← f.names_unsigned, KeyOf.unsigned_eq he hf h h']

theorem Vouched.covers (hs : Vouched c s) (he : e.Readable) (hkey : e.text ∈ s.temporaries) : c.Covers e := by
  obtain ⟨f, hf, hk, hc⟩ := hs _ hkey
  rwa [Covers, KeyOf.names_eq he hf (.inl rfl) hk]

theorem Lowers.failure (h : Lowers c stem es s r s' trace) (hes : ∀ e ∈ es, e.Readable) (hs : Vouched c s) :
    Vouched c s' ∧ failure? r = (es.flatMap Expr.names).find? c.isUnbound := by
  have hcons {e : Expr L} {es : List (Expr L)} (hc : c.Covers e) :
      ((e :: es).flatMap Expr.names).find? c.isUnbound = (es.flatMap Expr.names).find? c.isUnbound := by
    rw [List.flatMap_cons, List.find?_append, covers_iff.1 hc, Option.none_or]
  induction h with
  | nil => exact ⟨hs, rfl⟩
  | leaf hleaf _ ih =>
      obtain ⟨hs', hfail⟩ := ih (fun f hf => hes f (by simp [hf])) hs
      exact ⟨hs', by rw [failure?_map, hcons hleaf.covers, hfail]⟩
  | unbound es s h => exact ⟨hs, by simp [failure?, Expr.names, isUnbound, h]⟩
  | @reused e _ _ _ _ _ _ _ hname _ ih =>
      -- The temporary was made for a formula with the same variables.
      have hc := hs.covers (hes e (by simp)) (Std.HashMap.mem_iff_isSome_getElem?.2 (by simp [hname]))
      obtain ⟨hs', hfail⟩ := ih (fun f hf => hes f (by simp [hf])) hs
      exact ⟨hs', by rw [failure?_map, hcons hc, hfail]⟩
  | @failed e es _ _ _ _ he _ _ ih =>
      obtain ⟨hs', hfail⟩ := ih (fun a ha => readable_of_mem_operands (hes e (by simp)) ha) hs
      rw [names_operands he] at hfail
      exact ⟨hs', by rw [List.flatMap_cons, List.find?_append, ← hfail]; rfl⟩
  | @node e _ _ _ _ _ _ _ _ _ _ _ _ he _ _ hvalue hstore _ ihparts ihrest =>
      have hread := hes e (by simp)
      obtain ⟨hs₁, hfail⟩ := ihparts (fun a ha => readable_of_mem_operands hread ha) hs
      have hc : c.Covers e := covers_iff.2 (by rw [← names_operands he, ← hfail]; rfl)
      have hs₃ := hstore.vouched hread hc (hvalue.vouched hread hc hs₁)
      obtain ⟨hs', hrest⟩ := ihrest (fun f hf => hes f (by simp [hf])) hs₃
      exact ⟨hs', by rw [failure?_map, hcons hc, hrest]⟩

theorem build_failure (hstem : c.hoist = some stem) (he : e.Readable) (hs : Vouched c s) :
    Vouched c ((c.build e).run.run s).2 ∧
      failure? ((c.build e).run.run s).1 = e.names.find? c.isUnbound := by
  obtain ⟨trace, h⟩ := build_lowers hstem e s
  obtain ⟨hs', hfail⟩ := h.failure (by simpa using he) hs
  rw [failure?_map] at hfail
  exact ⟨hs', by simpa using hfail⟩

theorem vouched_after (hstem : c.hoist = some stem) (history : List (Request L))
    (hread : ∀ e ∈ history.flatMap Request.lowered, e.Readable) : Vouched c (Session.after c history).state := by
  have hserve (s : Session L) (q : Request L) (hq : ∀ e ∈ q.lowered, e.Readable) (hs : Vouched c s.state) :
      Vouched c (s.serve c q).state := by
    cases q with
    | prepare es =>
        rw [Session.serve, prepare, hstem]
        exact hs
    | build e => exact (build_failure hstem (hq e (by simp [Request.lowered])) hs).1
    | take => exact hs
  have hrun (s : Session L) (hs : Vouched c s.state) : Vouched c (history.foldl (Session.serve c) s).state := by
    induction history generalizing s with
    | nil => exact hs
    | cons q history ih =>
        exact ih (fun e he => hread e (by simp_all)) _ (hserve s q (fun e he => hread e (by simp_all)) hs)
  exact hrun {} fun key hkey => by simp at hkey

end Failure

section Histories

variable [Literal.Legible L] [Literal.Zeros L]

/-- A lowering stays in order whatever was asked of it before. All declarations so far, taken or not, are
those of the temporaries in the order of their numbers, and each one mentions earlier temporaries only; an
expression that is given out mentions declared temporaries only; and, for variables that are
identifiers and finite literals, a formula fails exactly if a variable is not bound, at the first such
variable. -/
theorem session_in_order (c : Lowering L) (stem : String) (hstem : c.hoist = some stem) (history : List (Request L)) :
    let s := Session.after c history
    (∃ values, s.emitted = numberedDeclarations stem values ∧ ∀ k t, values[k]? = some t → c.Within stem k t) ∧
      ∀ e : Expr L,
        (∀ t, s.reply c e = .ok t → c.Within stem (s.serve c (.build e)).emitted.length t) ∧
        ((∀ d ∈ e :: history.flatMap Request.lowered, d.Readable) →
          ∀ v, s.reply c e = .error ⟨v⟩ ↔ e.names.find? c.isUnbound = some v) := by
  intro s
  have hs : c.Consistent stem s.taken s.state := consistent_after hstem history
  obtain ⟨values, hemitted, -, hwithin⟩ := hs.emitted
  refine ⟨⟨values, hemitted, hwithin⟩, fun e => ⟨fun t ht => ?_, fun hread v => ?_⟩⟩
  · have hadv := build_advances hstem hs e
    obtain ⟨values', hemitted', hlength', -⟩ := hadv.consistent.emitted
    have hcount : (s.serve c (.build e)).emitted.length = ((c.build e).run.run s.state).2.temporaries.size := by
      rw [← hlength']
      exact (congrArg List.length hemitted').trans List.length_mapIdx
    rw [hcount]
    refine hadv.within t ?_
    have ht : ((c.build e).run.run s.state).1 = .ok t := ht
    rw [ht]
    exact List.mem_singleton_self t
  · have hvouched := vouched_after hstem history fun d hd => hread d (List.mem_cons_of_mem _ hd)
    rw [← (build_failure hstem (hread e List.mem_cons_self) hvouched).2, failure?_eq_some]
    rfl

/-- The inverse cube of an angle in a product that fails, in doubles: what the product left behind is used
again, and it fails again. -/
theorem session_in_order_after_failure :
    let e : Expr Float := .op .pow (.call .asin (.op .add (.var "x") (.literal (-0.0)))) (.literal (-3.0))
    let bad : Expr Float := .op .mul e (.op .add (.var "y") (.var "z"))
    let c : Lowering Float := emitting (.identity ["x"])
    let s := Session.after c [.prepare [e, bad], .build bad, .take, .build e, .build bad]
    (∃ values, s.emitted = numberedDeclarations "t" values ∧ ∀ k t, values[k]? = some t → c.Within "t" k t) ∧
      s.reply c bad = .error ⟨"y"⟩ ∧
      ∃ t, s.reply c e = .ok t ∧ c.Within "t" (s.serve c (.build e)).emitted.length t := by
  intro e bad c s
  have hid (v : String) (h : Token.isIdentifier v = true) : (Expr.var v : Expr Float).Readable := h
  have he : e.Readable := ⟨⟨hid "x" (by decide), (by decide : Literal.isFinite (-0.0 : Float) = true)⟩,
    (by decide : Literal.isFinite (-3.0 : Float) = true)⟩
  have hbad : bad.Readable := ⟨he, hid "y" (by decide), hid "z" (by decide)⟩
  obtain ⟨hemitted, hreply⟩ := session_in_order c "t" rfl [.prepare [e, bad], .build bad, .take, .build e, .build bad]
  have hread (f : Expr Float) (hf : f.Readable) :
      ∀ d ∈ f :: [Request.prepare [e, bad], .build bad, .take, .build e, .build bad].flatMap Request.lowered,
        d.Readable := by
    simp [Request.lowered, hf, he, hbad]
  refine ⟨hemitted, ((hreply bad).2 (hread bad hbad) "y").2 (by decide), ?_⟩
  cases hr : s.reply c e with
  | error u =>
      have hnone : e.names.find? c.isUnbound = none := by decide
      have hsome := ((hreply e).2 (hread e he) u.name).1 hr
      rw [hnone] at hsome
      cases hsome
  | ok t => exact ⟨t, rfl, (hreply e).1 t hr⟩

/-- The text of an infinite literal is that of a variable: its temporary is handed out for a variable that
is not bound. -/
theorem infinity_hides_unbound :
    let known : Expr Float := .call .sin (.literal (1.0 / 0.0))
    let unknown : Expr Float := .call .sin (.var "inf")
    let c : Lowering Float := emitting {}
    unknown.names.find? c.isUnbound = some "inf" ∧
      Session.reply c {} unknown = .error ⟨"inf"⟩ ∧
      (Session.after c [.prepare [known, known], .build known]).reply c unknown = .ok (.var "t0") := by
  intro known unknown c
  let s : State Float := { counts := count (count {} known) known }
  have hstem : c.hoist = some "t" := rfl
  have htext : known.text = unknown.text := by decide
  have hcount : 1 < s.counts.getD known.text 0 := by simp [s, count, known]
  have hempty : s.temporaries[known.text]? = none := Std.HashMap.getElem?_empty
  have hknown : (c.build known).run.run s =
      (.ok (.var (s.next "t")), s.declared "t" known.text (.call "sin" [.float (1.0 / 0.0)])) := by
    have hlowered : (do return .call Func.sin.name [guardArgument c .sin (← build c (.literal (1.0 / 0.0)))] :
        Action Float (Term Float)).run.run s = (.ok (.call "sin" [.float (1.0 / 0.0)]), s) := rfl
    refine (share_of_unknown hstem hempty _).trans ?_
    rw [run_bind_of_ok hlowered, run_get_bind, if_pos hcount]
    rfl
  have hget : (s.declared "t" known.text (.call "sin" [.float (1.0 / 0.0)])).temporaries[unknown.text]? = some "t0" := by
    rw [htext, State.declared, Std.HashMap.getElem?_insert_self]
    exact congrArg some (by decide : "t" ++ toString 0 = "t0")
  refine ⟨by decide, ?_, ?_⟩
  · have hunknown : unknown.Readable := (by decide : Token.isIdentifier "inf" = true)
    have hfails := (build_failure (s := {}) hstem hunknown fun key hkey => by simp at hkey).2
    exact failure?_eq_some.1 (hfails.trans (by decide))
  · have hstate : (Session.after c [.prepare [known, known], .build known]).state =
        s.declared "t" known.text (.call "sin" [.float (1.0 / 0.0)]) := congrArg Prod.snd hknown
    rw [Session.reply, hstate]
    exact congrArg Prod.fst (share_of_known hstem hget _)

end Histories

end FlowShader.Lowering
