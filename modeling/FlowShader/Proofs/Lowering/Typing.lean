import FlowShader.Proofs.Lowering.Build
import FlowShader.Proofs.Shader.Checking

namespace FlowShader.Lowering

open Shader (Term Stmt Ty Scope Types Builtin)

variable {L : Type} [Literal L]

/-- The declarations of a state are in order, and the next temporary is new. -/
structure Declares (c : Lowering L) (S : Scope) (looping : Bool) (Γ : Types) (s : State L) (Γ' : Types) : Prop where
  check : Stmt.checkAll S looping Γ s.statements.toList = some Γ'
  shared (key name : String) : s.temporaries[key]? = some name → Γ'.lookup name = some .float
  fresh (v : String) : c.Later s.temporaries.size v → Γ'.lookup v = none
  agrees (v : String) : ¬ c.Later 0 v → Γ'.lookup v = Γ.lookup v

def Minor (n : Nat) (key : String) : Prop := key.length < n ∨ ∃ base, key = base ++ "#base"

/-- From one state to a later one types are kept, and the keys that are added are minor. -/
structure Widens (n : Nat) (s : State L) (Γ : Types) (s' : State L) (Γ' : Types) : Prop where
  types : Types.Extends Γ Γ'
  keys (key : String) : key ∈ s'.temporaries → key ∈ s.temporaries ∨ Minor n key

/-- From every state in order the action succeeds, and the state after it is in order as well. -/
def Gives {α : Type} (c : Lowering L) (S : Scope) (looping : Bool) (Γ : Types) (pre : Types → Prop)
    (action : Action L α) (n : Nat) (post : Types → α → Prop) : Prop :=
  ∀ s Γ₁, c.Declares S looping Γ s Γ₁ → pre Γ₁ →
    ∃ a s' Γ₂, Runs action s a s' ∧ c.Declares S looping Γ s' Γ₂ ∧ Widens n s Γ₁ s' Γ₂ ∧ post Γ₂ a

def IsFloat (S : Scope) (Γ : Types) (t : Term L) : Prop := t.ty? S.functions Γ = some .float

variable {c : Lowering L} {S : Scope} {looping : Bool} {Γ Γ₁ Γ₂ Γ₃ : Types} {s s' s'' : State L} {m n : Nat}

section Logic

variable {α β : Type} {pre : Types → Prop} {action : Action L α} {post : Types → α → Prop}

omit [Literal L] in
theorem Minor.mono {key : String} (h : m ≤ n) (hk : Minor m key) : Minor n key :=
  hk.imp (fun hlt => Nat.lt_of_lt_of_le hlt h) id

omit [Literal L] in
theorem Widens.refl (n : Nat) (s : State L) (Γ : Types) : Widens n s Γ s Γ := ⟨.refl Γ, fun _ h => .inl h⟩

omit [Literal L] in
theorem Widens.trans (h : Widens m s Γ₁ s' Γ₂) (h' : Widens n s' Γ₂ s'' Γ₃) : Widens (max m n) s Γ₁ s'' Γ₃ := by
  refine ⟨h.types.trans h'.types, fun key hkey => ?_⟩
  rcases h'.keys key hkey with hk | hk
  · exact (h.keys key hk).imp id (.mono (Nat.le_max_left m n))
  · exact .inr (hk.mono (Nat.le_max_right m n))

omit [Literal L] in
theorem Widens.mono (h : m ≤ n) (hw : Widens m s Γ₁ s' Γ₂) : Widens n s Γ₁ s' Γ₂ :=
  ⟨hw.types, fun key hkey => (hw.keys key hkey).imp id (.mono h)⟩

omit [Literal L] in
theorem Gives.pure {a : α} (h : ∀ Γ₁, Types.Extends Γ Γ₁ → pre Γ₁ → post Γ₁ a) :
    c.Gives S looping Γ pre (Pure.pure a) n post :=
  fun s Γ₁ hs hpre => ⟨a, s, Γ₁, .pure a s, hs, .refl n s Γ₁, h Γ₁ (Shader.Stmt.checkAll_extends hs.check) hpre⟩

omit [Literal L] in
theorem Gives.bind {next : α → Action L β} {post' : Types → β → Prop} (h : c.Gives S looping Γ pre action m post)
    (h' : ∀ a, c.Gives S looping Γ (post · a) (next a) n post') :
    c.Gives S looping Γ pre (action >>= next) (max m n) post' := by
  intro s Γ₁ hs hpre
  obtain ⟨a, s', Γ₂, hrun, hs', hw, hpost⟩ := h s Γ₁ hs hpre
  obtain ⟨b, s'', Γ₃, hrun', hs'', hw', hpost'⟩ := h' a s' Γ₂ hs' hpost
  exact ⟨b, s'', Γ₃, hrun.bind hrun', hs'', hw.trans hw', hpost'⟩

omit [Literal L] in
/-- What stays true while variables are added may be kept. -/
theorem Gives.frame {R : Types → Prop} (hR : ∀ Γ Γ', Types.Extends Γ Γ' → R Γ → R Γ')
    (h : c.Gives S looping Γ pre action n post) :
    c.Gives S looping Γ (fun Γ₁ => pre Γ₁ ∧ R Γ₁) action n fun Γ₂ a => post Γ₂ a ∧ R Γ₂ := by
  rintro s Γ₁ hs ⟨hpre, hkept⟩
  obtain ⟨a, s', Γ₂, hrun, hs', hw, hpost⟩ := h s Γ₁ hs hpre
  exact ⟨a, s', Γ₂, hrun, hs', hw, hpost, hR Γ₁ Γ₂ hw.types hkept⟩

omit [Literal L] in
theorem Gives.weaken {pre' : Types → Prop} {post' : Types → α → Prop} (hn : m ≤ n)
    (hpre : ∀ Γ, pre' Γ → pre Γ) (hpost : ∀ Γ a, post Γ a → post' Γ a) (h : c.Gives S looping Γ pre action m post) :
    c.Gives S looping Γ pre' action n post' := by
  intro s Γ₁ hs hpre'
  obtain ⟨a, s', Γ₂, hrun, hs', hw, hresult⟩ := h s Γ₁ hs (hpre Γ₁ hpre')
  exact ⟨a, s', Γ₂, hrun, hs', hw.mono hn, hpost Γ₂ a hresult⟩

omit [Literal L] in
theorem IsFloat.extends {t : Term L} (h : Types.Extends Γ Γ₁) (ht : IsFloat S Γ t) : IsFloat S Γ₁ t :=
  Shader.Term.ty?_extends h t .float ht

end Logic

section Terms

variable {t u : Term L}

omit [Literal L] in
theorem IsFloat.call (f : Func) (ht : IsFloat S Γ t) : IsFloat S Γ (.call f.name [t]) := by
  unfold IsFloat at ht ⊢
  simp only [Shader.Term.ty?, Shader.Term.tys?, ht, Option.bind_some, Option.map_some, Shader.Builtin.ofName?_func]
  cases f <;> rfl

theorem IsFloat.guardArgument (c : Lowering L) (f : Func) (ht : IsFloat S Γ t) :
    IsFloat S Γ (c.guardArgument f t) := by
  unfold Lowering.guardArgument
  split
  · unfold IsFloat at ht ⊢
    simp only [callBuiltin, Shader.Term.ty?, Shader.Term.tys?, ht, Option.bind_some, Option.map_some]
    rfl
  · exact ht

omit [Literal L] in
theorem IsFloat.call₂ (f : BiFunc) (ht : IsFloat S Γ t) (hu : IsFloat S Γ u) :
    IsFloat S Γ (callBuiltin (.ofBiFunc f) [t, u]) := by
  unfold IsFloat at ht hu ⊢
  simp only [callBuiltin, Shader.Term.ty?, Shader.Term.tys?, ht, hu, Option.bind_some, Option.map_some,
    Shader.Builtin.ofName?_biFunc]
  cases f <;> rfl

omit [Literal L] in
theorem IsFloat.combine {o : Shader.BinOp} (ho : o.ty? .float .float = some .float) (ht : IsFloat S Γ t)
    (hu : IsFloat S Γ u) : IsFloat S Γ (.binary o t u) := by
  unfold IsFloat at ht hu ⊢
  simp only [Shader.Term.ty?, ht, hu, Option.bind_some, ho]

omit [Literal L] in
theorem IsFloat.binary (o : Operator) (ht : IsFloat S Γ t) (hu : IsFloat S Γ u) :
    IsFloat S Γ (Lowering.binary o t u) := by
  cases o with
  | add | sub | mul | div => exact ht.combine rfl hu
  | pow | mod =>
      unfold IsFloat at ht hu ⊢
      simp only [Lowering.binary, callBuiltin, Shader.Term.ty?, Shader.Term.tys?, ht, hu, Option.bind_some,
        Option.map_some]
      rfl

omit [Literal L] in
theorem IsFloat.product (ht : IsFloat S Γ t) (n : Nat) : IsFloat S Γ (Lowering.product t n) := by
  have hfold (indices : List Nat) (u : Term L) (hu : IsFloat S Γ u) :
      IsFloat S Γ (indices.foldl (fun acc _ => acc * t) u) := by
    induction indices generalizing u with
    | nil => exact hu
    | cons _ indices ih => exact ih _ (hu.combine rfl ht)
  exact hfold _ t ht

end Terms

section Keys

/-- The text of a formula that is no leaf ends with a parenthesis, which no key of a base does. -/
theorem not_minor_text {e : Expr L} (he : isLeaf e = false) : ¬ Minor e.text.length e.text := by
  have hclose : ∃ body, e.text = body ++ ")" := by
    cases e with
    | literal | constant | var => cases he
    | call f a => exact ⟨_, Expr.text_call f a⟩
    | call₂ f a b => exact ⟨_, Expr.text_call₂ f a b⟩
    | op o a b => exact ⟨_, Expr.text_op o a b⟩
  obtain ⟨body, hbody⟩ := hclose
  rintro (hlt | ⟨base, hbase⟩)
  · exact Nat.lt_irrefl _ hlt
  · rw [hbody, ← String.toList_inj, String.toList_append, String.toList_append] at hbase
    have hlast := congrArg List.getLast? hbase
    simp at hlast

theorem length_text_call (f : Func) (a : Expr L) : a.text.length < (Expr.call f a).text.length := by
  rw [Expr.text_call, String.length_append, String.length_append]
  exact Nat.lt_of_le_of_lt (Nat.le_add_left _ _) (Nat.lt_add_of_pos_right Nat.one_pos)

theorem length_text_call₂ (f : BiFunc) (a b : Expr L) :
    a.text.length < (Expr.call₂ f a b).text.length ∧ b.text.length < (Expr.call₂ f a b).text.length := by
  have hclose : ")".length = 1 := rfl
  simp only [Expr.text_call₂, String.length_append]
  omega

theorem length_text_op (o : Operator) (a b : Expr L) :
    a.text.length < (Expr.op o a b).text.length ∧ b.text.length < (Expr.op o a b).text.length := by
  have hclose : ")".length = 1 := rfl
  simp only [Expr.text_op, String.length_append]
  omega

end Keys

section Declaring

variable {t : Term L} {stem key : String}

omit [Literal L] in
theorem declare_gives (hstem : c.hoist = some stem) (hs : c.Declares S looping Γ s Γ₁) (hkey : key ∉ s.temporaries)
    (hminor : Minor n key) (ht : IsFloat S Γ₁ t) :
    ∃ u s' Γ₂, Runs (declare stem key t) s u s' ∧ c.Declares S looping Γ s' Γ₂ ∧ Widens n s Γ₁ s' Γ₂ ∧ IsFloat S Γ₂ u := by
  let name := stem ++ toString s.temporaries.size
  have hlater : ∀ m ≤ s.temporaries.size, c.Later m name := fun m hm => ⟨stem, hstem, _, hm, rfl⟩
  have hnew : Γ₁.lookup name = none := hs.fresh name (hlater _ (Nat.le_refl _))
  have hext : Types.Extends Γ₁ ((name, .float) :: Γ₁) := Shader.Types.extends_cons hnew .float
  have hsize : (s.temporaries.insert key name).size = s.temporaries.size + 1 := by
    rw [Std.HashMap.size_insert, if_neg hkey]
  refine ⟨.var name, _, (name, .float) :: Γ₁, rfl, ⟨?_, ?_, ?_, ?_⟩, ⟨hext, ?_⟩, List.lookup_cons_self⟩
  · rw [Array.toList_push, Shader.Stmt.checkAll_append, hs.check]
    simp only [Option.bind_some, Shader.Stmt.checkAll, Shader.Stmt.check]
    rw [if_pos ⟨hnew, ht⟩]
    rfl
  · intro key' name' hname
    simp only [Std.HashMap.getElem?_insert] at hname
    split at hname
    · obtain rfl : name = name' := Option.some.inj hname
      exact List.lookup_cons_self
    · exact hext name' .float (hs.shared key' name' hname)
  · intro v hv
    rw [hsize] at hv
    have hne : v ≠ name := by
      rintro rfl
      obtain ⟨stem', hstem', k, hk, hname⟩ := hv
      rw [hstem, Option.some.injEq] at hstem'
      subst hstem'
      have := append_toString_inj hname
      omega
    rw [List.lookup_cons, beq_eq_false_iff_ne.2 hne]
    exact hs.fresh v (hv.mono (Nat.le_succ _))
  · intro v hv
    have hne : v ≠ name := fun hname => hv (hname ▸ hlater 0 (Nat.zero_le _))
    rw [List.lookup_cons, beq_eq_false_iff_ne.2 hne]
    exact hs.agrees v hv
  · intro key' hkey'
    rw [Std.HashMap.mem_insert] at hkey'
    rcases hkey' with heq | hmem
    · obtain rfl : key = key' := by simpa using heq
      exact .inr hminor
    · exact .inl hmem

theorem share_gives {pre : Types → Prop} {e : Expr L} {lowered : Action L (Term L)} (he : isLeaf e = false)
    (h : c.Gives S looping Γ pre lowered e.text.length (IsFloat S)) :
    c.Gives S looping Γ pre (c.share e lowered) (e.text.length + 1) (IsFloat S) := by
  intro s Γ₁ hs hpre
  obtain ⟨t, s', Γ₂, hrun, hs', hw, ht⟩ := h s Γ₁ hs hpre
  have hw' : Widens (e.text.length + 1) s Γ₁ s' Γ₂ := hw.mono (Nat.le_succ _)
  unfold share
  cases hstem : c.hoist with
  | none => exact ⟨t, s', Γ₂, hrun, hs', hw', ht⟩
  | some stem =>
      cases hname : s.temporaries[e.text]? with
      | some name =>
          refine ⟨.var name, s, Γ₁, .bind (.get s) ?_, hs, .refl _ s Γ₁, hs.shared e.text name hname⟩
          simp only [hname]
          exact .pure _ _
      | none =>
          have hkey : e.text ∉ s'.temporaries := by
            intro hmem
            rcases hw.keys _ hmem with hmem | hminor
            · rw [Std.HashMap.mem_iff_isSome_getElem?, hname] at hmem
              exact absurd hmem (by simp)
            · exact not_minor_text he hminor
          by_cases hcount : 1 < s'.counts.getD e.text 0
          · obtain ⟨u, s'', Γ₃, hrun', hs'', hw'', hu⟩ :=
              declare_gives hstem hs' hkey (.inl (Nat.lt_succ_self e.text.length)) ht
            refine ⟨u, s'', Γ₃, .bind (.get s) ?_, hs'', (hw'.trans hw'').mono (by omega), hu⟩
            simp only [hname]
            refine hrun.bind (.bind (.get s') ?_)
            rwa [if_pos hcount]
          · refine ⟨t, s', Γ₂, .bind (.get s) ?_, hs', hw', ht⟩
            simp only [hname]
            refine hrun.bind (.bind (.get s') ?_)
            rw [if_neg hcount]
            exact .pure _ _

theorem shareFactor_gives (e : Expr L) (k : Nat) (t : Term L) :
    c.Gives S looping Γ (IsFloat S · t) (c.shareFactor e k t) n (IsFloat S) := by
  intro s Γ₁ hs ht
  unfold shareFactor
  cases hstem : c.hoist with
  | none => exact ⟨t, s, Γ₁, .pure _ _, hs, .refl _ s Γ₁, ht⟩
  | some stem =>
      by_cases htrivial : (t.isTrivial || decide (k ≤ 1)) = true
      · simp only [htrivial, if_true]
        exact ⟨t, s, Γ₁, .pure _ _, hs, .refl _ s Γ₁, ht⟩
      · simp only [htrivial, Bool.false_eq_true, if_false]
        cases hname : s.temporaries[e.text ++ "#base"]? with
        | some name =>
            refine ⟨.var name, s, Γ₁, .bind (.get s) ?_, hs, .refl _ s Γ₁, hs.shared _ name hname⟩
            simp only [hname]
            exact .pure _ _
        | none =>
            have hkey : e.text ++ "#base" ∉ s.temporaries := by
              rw [Std.HashMap.mem_iff_isSome_getElem?, hname]
              simp
            obtain ⟨u, s', Γ₂, hrun, hs', hw, hu⟩ := declare_gives hstem hs hkey (.inr ⟨e.text, rfl⟩) ht
            refine ⟨u, s', Γ₂, .bind (.get s) ?_, hs', hw, hu⟩
            simp only [hname]
            exact hrun

end Declaring

section Build

def Reaches (c : Lowering L) (S : Scope) (Γ : Types) : Prop :=
  ∀ v t, c.bindings.get? v = some t → IsFloat S Γ t

def Covers (c : Lowering L) (e : Expr L) : Prop := ∀ v ∈ e.names, (c.bindings.get? v).isSome = true

theorem power_gives (e : Expr L) (k : Int) (t : Term L) :
    c.Gives S looping Γ (IsFloat S · t) (c.power e k t) n (IsFloat S) := by
  have hproduct (u : Term L) : c.Gives S looping Γ (IsFloat S · u)
      (pure (if k < 0 then .float 1 / product u k.natAbs else product u k.natAbs)) n (IsFloat S) := by
    refine .pure fun Γ₁ _ hu => ?_
    split
    · exact IsFloat.combine (t := .float 1) rfl rfl (hu.product _)
    · exact hu.product _
  exact ((shareFactor_gives (n := n) e k.natAbs t).bind hproduct).weaken (by omega) (fun _ h => h) fun _ _ h => h

omit [Literal L] in
theorem Gives.map {α β : Type} {action : Action L α} {g : α → β} {post : Types → α → Prop}
    {post' : Types → β → Prop} (h : c.Gives S looping Γ (fun _ => True) action m post)
    (hg : ∀ Γ₁ a, Types.Extends Γ Γ₁ → post Γ₁ a → post' Γ₁ (g a)) (hm : m ≤ n) :
    c.Gives S looping Γ (fun _ => True) (do return g (← action)) n post' := by
  have hpure (a : α) : c.Gives S looping Γ (post · a) (Pure.pure (g a)) n post' :=
    .pure fun Γ₁ hext ha => hg Γ₁ a hext ha
  exact (h.bind hpure).weaken (by omega) (fun _ h => h) fun _ _ h => h

omit [Literal L] in
theorem Gives.both {α β : Type} {first : Action L (Term L)} {second : Action L α} {g : Term L → α → β}
    {post : Types → α → Prop} {post' : Types → β → Prop} {k : Nat}
    (h : c.Gives S looping Γ (fun _ => True) first m (IsFloat S))
    (h' : c.Gives S looping Γ (fun _ => True) second n post)
    (hg : ∀ Γ₁ t a, Types.Extends Γ Γ₁ → IsFloat S Γ₁ t → post Γ₁ a → post' Γ₁ (g t a)) (hm : m ≤ k) (hn : n ≤ k) :
    c.Gives S looping Γ (fun _ => True) (do let t ← first; let a ← second; return g t a) k post' := by
  have hpure (t : Term L) (a : α) :
      c.Gives S looping Γ (fun Γ₁ => post Γ₁ a ∧ IsFloat S Γ₁ t) (Pure.pure (g t a)) n post' :=
    .pure fun Γ₁ hext h => hg Γ₁ t a hext h.2 h.1
  have hsecond (t : Term L) : c.Gives S looping Γ (IsFloat S · t) (do let a ← second; return g t a) n post' := by
    have hframe := h'.frame (R := (IsFloat S · t)) fun _ _ hext ht => ht.extends hext
    exact (hframe.bind (hpure t)).weaken (by omega) (fun _ ht => ⟨trivial, ht⟩) fun _ _ h => h
  exact (h.bind hsecond).weaken (by omega) (fun _ h => h) fun _ _ h => h

theorem build_gives (hreach : c.Reaches S Γ) {e : Expr L} (he : c.Covers e) :
    c.Gives S looping Γ (fun _ => True) (c.build e) (e.text.length + 1) (IsFloat S) := by
  induction e with
  | literal x => exact .pure fun _ _ _ => rfl
  | constant k => exact .pure fun _ _ _ => rfl
  | var v =>
      obtain ⟨t, ht⟩ := Option.isSome_iff_exists.1 (he v (by simp [Expr.names]))
      rw [build, ht]
      exact .pure fun Γ₁ hext _ => (hreach v t ht).extends hext
  | call f a ih =>
      exact share_gives rfl ((ih he).map (fun _ _ _ ht => (ht.guardArgument c f).call f) (length_text_call f a))
  | call₂ f a b iha ihb =>
      have ha := iha fun v hv => he v (by simp [Expr.names, hv])
      have hb := ihb fun v hv => he v (by simp [Expr.names, hv])
      obtain ⟨hla, hlb⟩ := length_text_call₂ f a b
      exact share_gives rfl (ha.both hb (fun _ _ _ _ ht hu => ht.call₂ f hu) hla hlb)
  | op o a b iha ihb =>
      have ha := iha fun v hv => he v (by simp [Expr.names, hv])
      have hb := ihb fun v hv => he v (by simp [Expr.names, hv])
      obtain ⟨hla, hlb⟩ := length_text_op o a b
      refine share_gives rfl ?_
      cases hpower : smallPower? o b with
      | some k => exact (ha.bind fun t => power_gives (n := 0) a k t).weaken (by omega) (fun _ h => h) fun _ _ h => h
      | none => exact ha.both hb (fun _ _ _ _ ht hu => ht.binary o hu) hla hlb

end Build

section Lists

def AreFloats (S : Scope) (n : Nat) (Γ : Types) (ts : List (Term L)) : Prop :=
  ts.length = n ∧ ∀ t ∈ ts, IsFloat S Γ t

omit [Literal L] in
theorem AreFloats.cons {t : Term L} {ts : List (Term L)} (ht : IsFloat S Γ t) (h : AreFloats S n Γ ts) :
    AreFloats S (n + 1) Γ (t :: ts) :=
  ⟨congrArg Nat.succ h.1, List.forall_mem_cons.2 ⟨ht, h.2⟩⟩

theorem buildAll_gives (hreach : c.Reaches S Γ) {es : List (Expr L)} (hes : ∀ e ∈ es, c.Covers e) :
    ∃ n, c.Gives S looping Γ (fun _ => True) (c.buildAll es) n (AreFloats S es.length) := by
  induction es with
  | nil => exact ⟨0, .pure fun _ _ _ => ⟨rfl, nofun⟩⟩
  | cons e es ih =>
      obtain ⟨he, hes⟩ := List.forall_mem_cons.1 hes
      obtain ⟨n, hrest⟩ := ih hes
      exact ⟨_, (build_gives hreach he).both hrest (fun _ _ _ _ => .cons) (Nat.le_max_left _ n) (Nat.le_max_right _ n)⟩

omit [Literal L] in
theorem Declares.start (c : Lowering L) (S : Scope) (looping : Bool) (hclear : ∀ v, c.Later 0 v → Γ.lookup v = none)
    (counts : Std.HashMap String Nat) : c.Declares S looping Γ { counts := counts } Γ := by
  refine ⟨rfl, fun key name hname => ?_, fun v hv => hclear v (hv.mono (Nat.zero_le _)), fun _ _ => rfl⟩
  simp at hname

/-- Declarations in order, and numbers that use them, for formulas over bound variables. -/
theorem lowerAll_gives (looping : Bool) (hreach : c.Reaches S Γ) (hclear : ∀ v, c.Later 0 v → Γ.lookup v = none)
    (shared : List (Expr L)) {es : List (Expr L)} (hes : ∀ e ∈ es, c.Covers e) :
    ∃ declarations ts Γ', c.lowerAll shared es = .ok (declarations, ts) ∧
      Stmt.checkAll S looping Γ declarations = some Γ' ∧ (∀ v, ¬ c.Later 0 v → Γ'.lookup v = Γ.lookup v) ∧
      AreFloats S es.length Γ' ts := by
  obtain ⟨counts, hprepare⟩ := prepare_runs c shared
  obtain ⟨n, hbuild⟩ := buildAll_gives hreach hes
  obtain ⟨ts, s, Γ', hrun, hs, -, hts⟩ := hbuild _ Γ (.start c S looping hclear counts) trivial
  refine ⟨s.statements.toList, ts, Γ', ?_, hs.check, hs.agrees, hts⟩
  have hall : Runs (do
      c.prepare shared
      let terms ← c.buildAll es
      let declarations ← takeStatements
      return (declarations, terms)) {} (s.statements.toList, ts) { s with statements := #[] } :=
    hprepare.bind (hrun.bind rfl)
  exact congrArg Prod.fst hall

end Lists

section Emitting

def Untouched (Γ : Types) : Prop :=
  ∀ v, Names.isNumbered Names.temporaryStem v = true → Γ.lookup v = none

def Numbers (S : Scope) (Γ : Types) (b : Bindings L) : Prop := ∀ v t, b.get? v = some t → IsFloat S Γ t

omit [Literal L] in
theorem numbers_empty (S : Scope) (Γ : Types) : Numbers (L := L) S Γ {} := nofun

variable {b : Bindings L}

omit [Literal L] in
theorem Untouched.cons {name : String} (h : Untouched Γ) (hname : Names.isNumbered Names.temporaryStem name = false)
    (τ : Ty) : Untouched ((name, τ) :: Γ) := by
  intro v hv
  have hne : v ≠ name := by
    rintro rfl
    exact absurd (hv.symm.trans hname) (by decide)
  rw [List.lookup_cons, beq_eq_false_iff_ne.2 hne]
  exact h v hv

omit [Literal L] in
theorem Untouched.later (h : Untouched Γ) (v : String) (hv : (emitting b).Later 0 v) : Γ.lookup v = none := by
  obtain ⟨stem, hstem, k, -, rfl⟩ := hv
  obtain rfl := Option.some.inj hstem
  exact h _ (isNumbered_append _ k)

omit [Literal L] in
theorem Numbers.bind {name : String} {t : Term L} (hb : Numbers S Γ b) (ht : IsFloat S Γ t) :
    Numbers S Γ (b.bind name t) := by
  intro v u hu
  rw [Bindings.get?_bind] at hu
  split at hu
  · obtain rfl := Option.some.inj hu
    exact ht
  · exact hb v u hu

omit [Literal L] in
theorem Numbers.bindVector {names : List String} {base : String} (hb : Numbers S Γ b)
    (hbase : Γ.lookup base = some (.vec n)) (hnames : names.length ≤ n) : Numbers S Γ (b.bindVector names base) := by
  intro v t ht
  rcases b.get?_bindVector names base v with ⟨-, hget⟩ | ⟨i, hi, hget⟩
  · exact hb v t (hget ▸ ht)
  · obtain rfl := Option.some.inj (ht.symm.trans hget)
    have hlt : i < names.length := (List.getElem?_eq_some_iff.1 hi).1
    exact Shader.Term.ty?_component hbase (Nat.lt_of_lt_of_le hlt hnames)

/-- The code of generated functions: all variables but temporaries are left as they are. -/
theorem emitting_gives (looping : Bool) (hb : Numbers S Γ b) (hclear : Untouched Γ) (shared : List (Expr L)) {es : List (Expr L)}
    (hes : ∀ e ∈ es, ∀ v ∈ e.names, (b.get? v).isSome = true) :
    ∃ declarations ts Γ', (emitting b).lowerAll shared es = .ok (declarations, ts) ∧
      Stmt.checkAll S looping Γ declarations = some Γ' ∧
      (∀ v, Names.isNumbered Names.temporaryStem v = false → Γ'.lookup v = Γ.lookup v) ∧
      AreFloats S es.length Γ' ts := by
  obtain ⟨declarations, ts, Γ', hlower, hcheck, hagrees, hts⟩ :=
    lowerAll_gives (c := emitting b) looping hb hclear.later shared hes
  refine ⟨declarations, ts, Γ', hlower, hcheck, fun v hv => hagrees v ?_, hts⟩
  rintro ⟨stem, hstem, k, -, rfl⟩
  obtain rfl := Option.some.inj hstem
  exact absurd ((isNumbered_append _ k).symm.trans hv) (by decide)

omit [Literal L] in
theorem AreFloats.construct {ts : List (Term L)} {ty : Ty} (h : AreFloats S m Γ ts)
    (hty : ty.construct? (List.replicate m .float) = some ty) :
    (Term.construct ty ts).ty? S.functions Γ = some ty := by
  obtain ⟨rfl, h⟩ := h
  refine Shader.Term.ty?_construct ?_ hty
  clear hty
  induction ts with
  | nil => exact .nil
  | cons t ts ih =>
      obtain ⟨ht, hts⟩ := List.forall_mem_cons.1 h
      exact .cons ht (ih hts)

omit [Literal L] in
theorem AreFloats.vec {ts : List (Term L)} (h : AreFloats S n Γ ts) :
    (Term.construct (.vec n) ts).ty? S.functions Γ = some (.vec n) :=
  h.construct (by simp [Ty.construct?])

omit [Literal L] in
theorem AreFloats.mat {ts : List (Term L)} (h : AreFloats S (n * n) Γ ts) :
    (Term.construct (.mat n) ts).ty? S.functions Γ = some (.mat n) :=
  h.construct (by simp [Ty.construct?])

end Emitting

end FlowShader.Lowering
