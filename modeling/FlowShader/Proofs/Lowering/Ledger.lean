import FlowShader.Proofs.Lowering.Session

namespace FlowShader.Lowering

open Shader (Term Stmt)

variable {L : Type} [Literal L]

def arrivals (key : String) (es : List (Expr L)) : Nat := es.countP fun e => !isLeaf e && e.text == key

/-- How often the formula with a text is in a list. -/
def entries (key : String) (es : List (Expr L)) : Nat := es.countP fun e => e.text == key

variable {key : String} {e : Expr L} {es es' : List (Expr L)}

section Arrivals

theorem arrivals_append : arrivals key (es ++ es') = arrivals key es + arrivals key es' := List.countP_append

theorem entries_append : entries key (es ++ es') = entries key es + entries key es' := List.countP_append

theorem entries_cons (key : String) (e : Expr L) (es : List (Expr L)) :
    entries key (e :: es) = entries key [e] + entries key es := by
  rw [← List.singleton_append, entries_append]

theorem arrivals_cons (key : String) (e : Expr L) (es : List (Expr L)) :
    arrivals key (e :: es) = arrivals key [e] + arrivals key es := by
  rw [← List.singleton_append, arrivals_append]

theorem arrivals_node (he : isLeaf e = false) : arrivals key [e] = entries key [e] := by simp [arrivals, entries, he]

theorem entries_singleton (key : String) (e : Expr L) : entries key [e] = if e.text = key then 1 else 0 := by
  simp [entries, List.countP_singleton]

theorem entries_pos : 0 < entries key es ↔ ∃ e ∈ es, e.text = key := by simp [entries, List.countP_pos_iff]

/-- The exponent of a product is a leaf, so that it does not matter whether it is an operand. -/
theorem arrivals_operands_op (o : Operator) (a b : Expr L) :
    arrivals key (operands (.op o a b)) = arrivals key [a, b] := by
  rw [operands]
  split
  · next h =>
    obtain ⟨x, rfl⟩ := literal_of_smallPower? h
    simp [arrivals, List.countP_cons, isLeaf]
  · rfl

end Arrivals

section Counting

variable {counts counts₁ counts₂ : Std.HashMap String Nat} {seen new new₁ new₂ parts : List (Expr L)}

def Marks (counts : Std.HashMap String Nat) (seen : List (Expr L)) : Prop :=
  ∀ key, entries key seen = min 1 (counts.getD key 0)

/-- From one count to a later one: what was added for each text are the ways to reach it, from the formulas
counted and from those that were new. -/
structure Counts (seen : List (Expr L)) (counts : Std.HashMap String Nat) (es new : List (Expr L))
    (counts' : Std.HashMap String Nat) : Prop where
  marks : Marks counts' (seen ++ new)
  added (key : String) : counts'.getD key 0 = counts.getD key 0 + arrivals key (es ++ new.flatMap operands)
  subtrees : ∀ d ∈ new, ∃ e ∈ es, d ∈ e.subtrees

theorem Counts.refl (h : Marks counts seen) (hes : ∀ key, arrivals key es = 0) : Counts seen counts es [] counts :=
  ⟨by simpa using h, fun key => by simp [hes], nofun⟩

theorem Counts.append (h : Counts seen counts es new₁ counts₁) (h' : Counts (seen ++ new₁) counts₁ es' new₂ counts₂) :
    Counts seen counts (es ++ es') (new₁ ++ new₂) counts₂ := by
  refine ⟨?_, fun key => ?_, fun d hd => ?_⟩
  · rw [← List.append_assoc]
    exact h'.marks
  · have hadded := h.added key
    have hadded' := h'.added key
    simp only [arrivals_append, List.flatMap_append] at hadded hadded' ⊢
    omega
  · rcases List.mem_append.1 hd with hd | hd
    · obtain ⟨e, he, hsub⟩ := h.subtrees d hd
      exact ⟨e, List.mem_append_left _ he, hsub⟩
    · obtain ⟨e, he, hsub⟩ := h'.subtrees d hd
      exact ⟨e, List.mem_append_right _ he, hsub⟩

theorem Counts.again (h : Marks counts seen) (he : isLeaf e = false) (hseen : counts.getD e.text 0 ≠ 0) :
    Counts seen counts [e] [] (counts.insert e.text (counts.getD e.text 0 + 1)) := by
  refine ⟨fun key => ?_, fun key => ?_, nofun⟩
  · rw [List.append_nil, h key, Std.HashMap.getD_insert]
    split
    · next heq =>
      obtain rfl : e.text = key := by simpa using heq
      omega
    · rfl
  · rw [List.flatMap_nil, List.append_nil, arrivals_node he, entries_singleton, Std.HashMap.getD_insert]
    by_cases hkey : e.text = key <;> simp [hkey]

theorem Marks.insert (h : Marks counts seen) (hnew : counts.getD e.text 0 = 0) :
    Marks (counts.insert e.text 1) (seen ++ [e]) := by
  intro key
  rw [entries_append, entries_singleton, h key, Std.HashMap.getD_insert]
  by_cases hkey : e.text = key
  · subst hkey
    simp [hnew]
  · simp [hkey]

theorem Counts.enter (he : isLeaf e = false) (hnew : counts.getD e.text 0 = 0)
    (hparts : ∀ key, arrivals key parts = arrivals key (operands e)) (hsub : ∀ a ∈ parts, a ∈ e.subtrees)
    (h : Counts (seen ++ [e]) (counts.insert e.text 1) parts new counts₁) :
    Counts seen counts [e] (e :: new) counts₁ := by
  refine ⟨by simpa using h.marks, fun key => ?_, fun d hd => ⟨e, List.mem_singleton_self e, ?_⟩⟩
  · rw [h.added key, Std.HashMap.getD_insert, List.flatMap_cons, arrivals_append, arrivals_append, arrivals_append,
      hparts, arrivals_node he, entries_singleton]
    by_cases hkey : e.text = key
    · subst hkey
      simp [hnew]
    · simp [hkey]
  · rcases List.mem_cons.1 hd with rfl | hd
    · exact d.mem_subtrees_self
    · obtain ⟨a, ha, hda⟩ := h.subtrees d hd
      exact Expr.mem_subtrees_trans (hsub a ha) hda

theorem count_counts (e : Expr L) (counts : Std.HashMap String Nat) (seen : List (Expr L)) (h : Marks counts seen) :
    ∃ new, Counts seen counts [e] new (count counts e) := by
  induction e generalizing counts seen with
  | literal | constant | var => exact ⟨[], .refl h fun key => rfl⟩
  | call f a ih =>
      rw [count]
      split
      · next hnew =>
        obtain ⟨new, ha⟩ := ih _ _ (h.insert hnew)
        rw [hnew]
        exact ⟨_, .enter rfl hnew (fun key => rfl) (fun _ => mem_subtrees_of_mem_operands) ha⟩
      · next hseen => exact ⟨[], .again h rfl hseen⟩
  | call₂ f a b iha ihb =>
      rw [count]
      split
      · next hnew =>
        obtain ⟨new₁, ha⟩ := iha _ _ (h.insert hnew)
        obtain ⟨new₂, hb⟩ := ihb _ _ ha.marks
        rw [hnew]
        exact ⟨_, .enter rfl hnew (fun key => rfl) (fun _ => mem_subtrees_of_mem_operands) (ha.append hb)⟩
      · next hseen => exact ⟨[], .again h rfl hseen⟩
  | op o a b iha ihb =>
      rw [count]
      split
      · next hnew =>
        obtain ⟨new₁, ha⟩ := iha _ _ (h.insert hnew)
        obtain ⟨new₂, hb⟩ := ihb _ _ ha.marks
        rw [hnew]
        have hsub : ∀ d ∈ [a] ++ [b], d ∈ (Expr.op o a b).subtrees := by
          simp [Expr.subtrees, Expr.mem_subtrees_self]
        exact ⟨_, .enter rfl hnew (fun key => (arrivals_operands_op o a b).symm) hsub (ha.append hb)⟩
      · next hseen => exact ⟨[], .again h rfl hseen⟩

theorem foldl_count_counts (es : List (Expr L)) (counts : Std.HashMap String Nat) (seen : List (Expr L))
    (h : Marks counts seen) : ∃ new, Counts seen counts es new (es.foldl count counts) := by
  induction es generalizing counts seen with
  | nil => exact ⟨[], .refl h fun key => rfl⟩
  | cons e es ih =>
      obtain ⟨new₁, he⟩ := count_counts e counts seen h
      obtain ⟨new₂, hes⟩ := ih _ _ he.marks
      exact ⟨_, he.append hes⟩

end Counting

section Enough

variable {done seen : List (Expr L)}

theorem isLeaf_unsigned (e : Expr L) : isLeaf e.unsigned = isLeaf e := by
  cases e with
  | literal x =>
      rw [Expr.unsigned]
      split <;> rfl
  | _ => rfl

variable [Literal.Zeros L]

theorem arrivals_unsigned (es : List (Expr L)) (hes : ∀ e ∈ es, e.Readable) :
    arrivals key (es.map Expr.unsigned) = arrivals key es := by
  rw [arrivals, List.countP_map]
  refine List.countP_congr fun e he => ?_
  simp [isLeaf_unsigned, Expr.text_unsigned (hes e he)]

theorem arrivals_operands_unsigned (he : e.Readable) :
    arrivals key (operands e.unsigned) = arrivals key (operands e) := by
  cases e with
  | literal x =>
      rw [Expr.unsigned]
      split <;> rfl
  | constant | var => rfl
  | call f a => exact arrivals_unsigned [a] (by simpa [Expr.Readable] using he)
  | call₂ f a b => exact arrivals_unsigned [a, b] (by simpa [Expr.Readable] using he)
  | op o a b =>
      rw [Expr.unsigned, arrivals_operands_op, arrivals_operands_op]
      exact arrivals_unsigned [a, b] (by simpa [Expr.Readable] using he)

variable [Literal.Legible L]

theorem arrivals_operands_congr {d : Expr L} (hd : d.Readable) (he : e.Readable) (h : d.text = e.text) :
    arrivals key (operands d) = arrivals key (operands e) := by
  rw [← arrivals_operands_unsigned hd, ← arrivals_operands_unsigned he, Expr.unsigned_eq_of_text hd he h]

theorem arrivals_flatMap_le (hdone : ∀ d ∈ done, d.Readable) (hseen : ∀ d ∈ seen, d.Readable)
    (h : ∀ key, entries key done ≤ entries key seen) :
    arrivals key (done.flatMap operands) ≤ arrivals key (seen.flatMap operands) := by
  induction done generalizing seen with
  | nil => exact Nat.zero_le _
  | cons d done ih =>
      -- The formula with the text of `d` is taken out of the other list.
      have hpos : 0 < entries d.text seen := by
        have hle := h d.text
        rw [entries_cons, entries_singleton, if_pos rfl] at hle
        omega
      obtain ⟨v, hv, htext⟩ := entries_pos.1 hpos
      obtain ⟨before, behind, rfl⟩ := List.append_of_mem hv
      have hrest (key : String) : entries key done ≤ entries key (before ++ behind) := by
        have hle := h key
        rw [entries_cons, entries_append, entries_cons key v, entries_singleton, entries_singleton, htext] at hle
        rw [entries_append]
        omega
      have hbefore (d : Expr L) (hd : d ∈ before ++ behind) : d ∈ before ++ v :: behind :=
        List.mem_append.2 ((List.mem_append.1 hd).imp id (List.mem_cons_of_mem v))
      have hle := ih (fun d hd => hdone d (List.mem_cons_of_mem _ hd)) (fun d hd => hseen d (hbefore d hd)) hrest
      have hsame : arrivals key (operands d) = arrivals key (operands v) :=
        arrivals_operands_congr (hdone d (by simp)) (hseen v hv) htext.symm
      simp only [List.flatMap_cons, List.flatMap_append, arrivals_append] at hle ⊢
      omega

theorem arrivals_le_count {counts : Std.HashMap String Nat} (h : Counts [] {} es seen counts)
    (hes : ∀ e ∈ es, e.Readable) (hdone : ∀ d ∈ done, d.Readable) (honce : ∀ key, entries key done ≤ 1)
    (hcounted : ∀ d ∈ done, 0 < counts.getD d.text 0) (key : String) :
    arrivals key (es ++ done.flatMap operands) ≤ counts.getD key 0 := by
  have hseen (d : Expr L) (hd : d ∈ seen) : d.Readable := by
    obtain ⟨e, he, hsub⟩ := h.subtrees d hd
    exact (hes e he).subtree hsub
  have hle (key : String) : entries key done ≤ entries key seen := by
    rcases Nat.eq_zero_or_pos (entries key done) with hzero | hpos
    · rw [hzero]
      exact Nat.zero_le _
    · obtain ⟨d, hd, rfl⟩ := entries_pos.1 hpos
      have hmarks := h.marks d.text
      have hcount := hcounted d hd
      have hone := honce d.text
      rw [List.nil_append] at hmarks
      omega
  have hmore : arrivals key (done.flatMap operands) ≤ arrivals key (seen.flatMap operands) :=
    arrivals_flatMap_le hdone hseen hle
  rw [h.added key, arrivals_append, arrivals_append]
  omega

end Enough

section Steps

variable {c : Lowering L} {stem : String} {base : Expr L} {trace : List (Expr L)} {ts : List (Term L)} {n : Nat}
  {value t : Term L} {s s' : State L} {r : Except UnknownIdentifier (List (Term L))}

/-- A later state: the counts are kept, and so are the temporaries. -/
structure Follows (s s' : State L) : Prop where
  counts : s'.counts = s.counts
  keys : ∀ key ∈ s.temporaries, key ∈ s'.temporaries

omit [Literal L] in
theorem Follows.refl (s : State L) : Follows s s := ⟨rfl, fun _ h => h⟩

omit [Literal L] in
theorem Follows.trans {s'' : State L} (h : Follows s s') (h' : Follows s' s'') : Follows s s'' :=
  ⟨h'.counts.trans h.counts, fun key hkey => h'.keys key (h.keys key hkey)⟩

omit [Literal L] in
theorem follows_declared (s : State L) (stem key : String) (value : Term L) : Follows s (s.declared stem key value) :=
  ⟨rfl, fun _ h => mem_declared.2 (.inr h)⟩

theorem Factors.follows (h : Factors stem base n value s t s') : Follows s s' := by
  cases h with
  | plain | known => exact .refl s
  | fresh => exact follows_declared _ _ _ _

theorem Assembles.follows (h : Assembles c stem s e ts t s') : Follows s s' := by
  cases h with
  | call | call₂ | op => exact .refl s
  | power _ hfactor => exact hfactor.follows

theorem Stores.follows (h : Stores stem e value s t s') : Follows s s' := by
  cases h with
  | once => exact .refl s
  | shared => exact follows_declared _ _ _ _

theorem Stores.kept (h : Stores stem e value s t s') (hcount : 1 < s.counts.getD e.text 0) : e.text ∈ s'.temporaries := by
  cases h with
  | once hle => exact absurd hcount (Nat.not_lt.2 hle)
  | shared => exact mem_declared.2 (.inl rfl)

theorem Lowers.follows (h : Lowers c stem es s r s' trace) : Follows s s' := by
  induction h with
  | nil | unbound => exact .refl _
  | leaf _ _ ih | reused _ _ _ ih => exact ih
  | failed _ _ _ _ ih => exact ih
  | node _ _ _ hvalue hstore _ ihparts ihrest => exact ihparts.trans (hvalue.follows.trans (hstore.follows.trans ihrest))

/-- In a run that does not fail, all formulas with a count above one have a temporary once they are lowered. -/
theorem Lowers.kept (h : Lowers c stem es s r s' trace) (hr : failure? r = none) :
    ∀ d ∈ trace, 1 < s.counts.getD d.text 0 → d.text ∈ s'.temporaries := by
  induction h with
  | nil | unbound => exact nofun
  | leaf _ _ ih | reused _ _ _ ih => exact ih (by rwa [failure?_map] at hr)
  | failed => cases hr
  | @node e _ _ _ _ _ _ _ _ _ _ _ _ _ _ hparts hvalue hstore hrest ihparts ihrest =>
      have hs₂ := hparts.follows.trans hvalue.follows
      have hs₃ := hs₂.trans hstore.follows
      intro d hd hcount
      rcases List.mem_cons.1 hd with rfl | hd
      · exact hrest.follows.keys _ (hstore.kept (by rwa [hs₂.counts]))
      · rcases List.mem_append.1 hd with hd | hd
        · exact (hvalue.follows.trans (hstore.follows.trans hrest.follows)).keys _ (ihparts rfl d hd hcount)
        · exact ihrest (by rwa [failure?_map] at hr) d hd (by rwa [hs₃.counts])

end Steps

section Ledger

variable {counts : Std.HashMap String Nat} {roots seen pending done : List (Expr L)}

/-- Where a run stands: what is still to be lowered and what has been entered. Every arrival is accounted for, as
one of the formulas or as an operand of what has been entered. -/
structure Ledger (counts : Std.HashMap String Nat) (roots pending done : List (Expr L)) : Prop where
  readable : ∀ d ∈ done, d.Readable
  once (key : String) : entries key done ≤ 1
  counted : ∀ d ∈ done, 0 < counts.getD d.text 0
  balance (key : String) : arrivals key pending + entries key done ≤ arrivals key (roots ++ done.flatMap operands)

theorem Ledger.mono {pending' : List (Expr L)} (h : Ledger counts roots pending done)
    (hle : ∀ key, arrivals key pending' ≤ arrivals key pending) : Ledger counts roots pending' done :=
  ⟨h.readable, h.once, h.counted, fun key => (Nat.add_le_add_right (hle key) _).trans (h.balance key)⟩

theorem Ledger.tail (h : Ledger counts roots (e :: pending) done) : Ledger counts roots pending done :=
  h.mono fun _ => (List.sublist_cons_self e pending).countP_le

theorem Ledger.drop (h : Ledger counts roots (es ++ pending) done) : Ledger counts roots pending done :=
  h.mono fun _ => (List.sublist_append_right es pending).countP_le

variable {c : Lowering L} {stem : String} {trace : List (Expr L)} {s s' : State L}
  {r : Except UnknownIdentifier (List (Term L))}

/-- What has been entered and may be reached again has a temporary, or its lowering goes on, and then it is larger
than the formulas that are lowered for it. -/
def Kept (s : State L) (es done : List (Expr L)) : Prop :=
  ∀ d ∈ done, 1 < s.counts.getD d.text 0 → d.text ∈ s.temporaries ∨ ∀ e ∈ es, e.text.length < d.text.length

theorem Kept.tail (h : Kept s (e :: es) done) : Kept s es done :=
  fun d hd hcount => (h d hd hcount).imp id fun hlt f hf => hlt f (List.mem_cons_of_mem _ hf)

theorem Kept.text_ne (h : Kept s (e :: es) done) (hname : s.temporaries[e.text]? = none) :
    ∀ d ∈ done, 1 < s.counts.getD d.text 0 → d.text ≠ e.text := by
  intro d hd hcount htext
  rcases h d hd hcount with hkey | hlt
  · exact not_mem_of_getElem? hname (htext ▸ hkey)
  · have hlt := hlt e List.mem_cons_self
    rw [htext] at hlt
    exact Nat.lt_irrefl _ hlt

theorem Kept.enter (h : Kept s (e :: es) done) : Kept s (operands e) (done ++ [e]) := by
  intro d hd hcount
  rcases List.mem_append.1 hd with hd | hd
  · refine (h d hd hcount).imp id fun hlt a ha => ?_
    exact (length_text_lt_of_mem_operands ha).trans (hlt e List.mem_cons_self)
  · obtain rfl := List.mem_singleton.1 hd
    exact .inr fun a ha => length_text_lt_of_mem_operands ha

theorem Kept.follows (h : Kept s es done) (hs : Follows s s') : Kept s' es done := by
  intro d hd hcount
  rw [hs.counts] at hcount
  exact (h d hd hcount).imp (hs.keys _) id

theorem Kept.append {done' : List (Expr L)} (h : Kept s es done)
    (h' : ∀ d ∈ done', 1 < s.counts.getD d.text 0 → d.text ∈ s.temporaries) : Kept s es (done ++ done') := by
  intro d hd hcount
  rcases List.mem_append.1 hd with hd | hd
  · exact h d hd hcount
  · exact .inl (h' d hd hcount)

variable [Literal.Zeros L] [Literal.Legible L]

theorem Ledger.enter (hcounts : Counts [] {} roots seen counts) (hroots : ∀ d ∈ roots, d.Readable)
    (h : Ledger counts roots (e :: pending) done) (he : isLeaf e = false) (hread : e.Readable)
    (hopen : ∀ d ∈ done, 1 < counts.getD d.text 0 → d.text ≠ e.text) :
    Ledger counts roots (operands e ++ pending) (done ++ [e]) := by
  have henough := arrivals_le_count hcounts hroots h.readable h.once h.counted e.text
  have harrived := h.balance e.text
  rw [arrivals_cons, arrivals_node he, entries_singleton, if_pos rfl] at harrived
  -- Entered before and reached again, the formula would have been counted twice.
  have hnew : entries e.text done = 0 := by
    by_contra hne
    obtain ⟨d, hd, htext⟩ := entries_pos.1 (Nat.pos_of_ne_zero hne)
    exact hopen d hd (by rw [htext]; omega) htext
  refine ⟨?_, fun key => ?_, ?_, fun key => ?_⟩
  · simpa [or_imp, forall_and] using ⟨h.readable, hread⟩
  · have hone := h.once key
    rw [entries_append, entries_singleton]
    split
    · next hkey =>
      subst hkey
      omega
    · omega
  · intro d hd
    rcases List.mem_append.1 hd with hd | hd
    · exact h.counted d hd
    · obtain rfl := List.mem_singleton.1 hd
      omega
  · have hbalance := h.balance key
    rw [arrivals_cons, arrivals_node he] at hbalance
    simp only [arrivals_append, entries_append, List.flatMap_append, List.flatMap_cons, List.flatMap_nil,
      List.append_nil] at hbalance ⊢
    omega

theorem Lowers.ledger (h : Lowers c stem es s r s' trace) (hcounts : Counts [] {} roots seen s.counts)
    (hroots : ∀ d ∈ roots, d.Readable) (hes : ∀ e ∈ es, e.Readable) {rest : List (Expr L)}
    (hledger : Ledger s.counts roots (es ++ rest) done) (hkept : Kept s es done) :
    Ledger s.counts roots rest (done ++ trace) := by
  induction h generalizing done rest with
  | nil => simpa using hledger
  | leaf _ _ ih | reused _ _ _ ih => exact ih hcounts (fun f hf => hes f (by simp [hf])) hledger.tail hkept.tail
  | unbound =>
      rw [List.append_nil]
      exact hledger.drop
  | @failed e _ _ _ _ _ he hname _ ih =>
      have hread := hes e (by simp)
      have henter := hledger.enter hcounts hroots he hread (hkept.text_ne hname)
      have hparts := ih hcounts (fun a ha => readable_of_mem_operands hread ha) henter hkept.enter
      rw [List.append_assoc] at hparts
      exact hparts.drop
  | @node e es parts trace _ _ _ s s₁ s₂ s₃ _ _ he hname hparts hvalue hstore _ ihparts ihrest =>
      have hread := hes e (by simp)
      have henter := hledger.enter hcounts hroots he hread (hkept.text_ne hname)
      have hentered := ihparts hcounts (fun a ha => readable_of_mem_operands hread ha) henter hkept.enter
      have hs₂ := hparts.follows.trans hvalue.follows
      have hs₃ := hs₂.trans hstore.follows
      -- The formula itself and its parts have their temporaries by now.
      have hdone : ∀ d ∈ e :: parts, 1 < s₃.counts.getD d.text 0 → d.text ∈ s₃.temporaries := by
        intro d hd hcount
        rw [hs₃.counts] at hcount
        rcases List.mem_cons.1 hd with rfl | hd
        · exact hstore.kept (by rwa [hs₂.counts])
        · exact (hvalue.follows.trans hstore.follows).keys _ (hparts.kept rfl d hd hcount)
      rw [← hs₃.counts] at hcounts hentered ⊢
      have hall := ihrest hcounts (fun f hf => hes f (by simp [hf])) (by simpa using hentered)
        (hkept.tail.follows hs₃ |>.append hdone)
      simpa using hall

theorem Lowers.nodup {built : List (Expr L)} (h : Lowers c stem built { counts := es.foldl count {} } r s' trace)
    (hperm : built.Perm es) (hes : ∀ e ∈ es, e.Readable) : (trace.map Expr.text).Nodup := by
  obtain ⟨seen, hcounts⟩ := foldl_count_counts es {} [] fun key => by simp [entries]
  have hstart : Ledger (es.foldl count {}) es (built ++ []) [] := by
    refine ⟨nofun, fun key => Nat.zero_le _, nofun, fun key => Nat.le_of_eq ?_⟩
    have heq : arrivals key built = arrivals key es := hperm.countP_eq _
    simpa [entries] using heq
  have hend := h.ledger hcounts hes (fun e he => hes e (hperm.mem_iff.1 he)) hstart nofun
  rw [List.nodup_iff_count_le_one]
  intro key
  rw [List.count_eq_countP, List.countP_map]
  exact hend.once key

end Ledger

end FlowShader.Lowering
