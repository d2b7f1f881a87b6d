import FlowShader.Proofs.Shader.Checking

namespace FlowShader.Shader

variable {L : Type}

mutual

/-- The functions that an expression calls, with argument counts. -/
def Term.calls : Term L → List (String × Nat)
  | .float _ | .bool _ | .var _ => []
  | .component base _ | .element base _ _ => base.calls
  | .neg a | .not a => a.calls
  | .binary _ a b => a.calls ++ b.calls
  | .call name args => (name, args.length) :: Term.allCalls args
  | .construct _ args => Term.allCalls args

def Term.allCalls : List (Term L) → List (String × Nat)
  | [] => []
  | t :: ts => t.calls ++ Term.allCalls ts

end

def Stmt.terms : Stmt L → List (Term L)
  | .declare _ _ value | .assign _ value | .result value => [value]
  | .branch cond _ _ => [cond]
  | .loop _ _ | .leave | .comment _ => []

def Stmt.declared? : Stmt L → Option String
  | .declare _ name _ => some name
  | _ => none

mutual

def Stmt.blocks : Stmt L → List (List (Stmt L))
  | .branch _ yes no => (yes :: Stmt.innerBlocks yes) ++ (no :: Stmt.innerBlocks no)
  | .loop _ body => body :: Stmt.innerBlocks body
  | _ => []

def Stmt.innerBlocks : List (Stmt L) → List (List (Stmt L))
  | [] => []
  | s :: ss => s.blocks ++ Stmt.innerBlocks ss

end

namespace Function

def blocks (f : Function L) : List (List (Stmt L)) := f.body :: Stmt.innerBlocks f.body

def declarations (block : List (Stmt L)) : List String := block.filterMap Stmt.declared?

/-- Parameters and variables. -/
def locals (f : Function L) : List String := f.params.map (·.2) ++ f.blocks.flatMap declarations

def calls (f : Function L) : List (String × Nat) :=
  f.blocks.flatMap fun block => block.flatMap fun s => s.terms.flatMap Term.calls

end Function

structure Module.Closed (m : Module L) : Prop where
  nodup : m.functionNames.Nodup
  calls (before : List (Function L)) (f : Function L) (after : List (Function L)) :
    m.functions = before ++ f :: after → ∀ c ∈ f.calls,
      (∃ b, Builtin.ofName? c.1 = some b ∧ b.accepts c.2 = true) ∨ ∃ g ∈ before, g.name = c.1 ∧ g.params.length = c.2
  blocks : ∀ f ∈ m.functions, ∀ block ∈ f.blocks, (Function.declarations block).Nodup
  locals : ∀ f ∈ m.functions, ∀ v ∈ f.locals, (∀ u ∈ m.uniforms, u.name ≠ v) ∧ ∀ c ∈ m.constants, c.name ≠ v

section Terms

variable {fs : Signatures} {Γ : Types}

theorem Builtin.accepts_of_ty? {b : Builtin} {types : List Ty} {τ : Ty} (h : b.ty? types = some τ) :
    b.accepts types.length = true := by
  match types with
  | [] | _ :: _ :: _ :: _ :: _ => cases h
  | [_] | [_, _] | [_, _, _] =>
      cases b with
      | func | atan | min | max | dot | pow | mod | clamp => first | rfl | cases h

def Callee (fs : Signatures) (c : String × Nat) : Prop :=
  (∃ b, Builtin.ofName? c.1 = some b ∧ b.accepts c.2 = true) ∨
    ∃ sig, fs.lookup c.1 = some sig ∧ sig.params.length = c.2

theorem Term.length_of_tys? {ts : List (Term L)} {types : List Ty} (h : Term.tys? fs Γ ts = some types) :
    types.length = ts.length := by
  induction ts generalizing types with
  | nil =>
      obtain rfl := Option.some.inj h
      rfl
  | cons t ts ih =>
      obtain ⟨τ, -, h⟩ := Option.bind_eq_some_iff.1 h
      obtain ⟨rest, hrest, rfl⟩ := Option.map_eq_some_iff.1 h
      rw [List.length_cons, List.length_cons, ih hrest]

mutual

theorem Term.callee_of_ty? : ∀ (t : Term L) (τ : Ty), t.ty? fs Γ = some τ → ∀ c ∈ t.calls, Callee fs c
  | .float _, _, _ | .bool _, _, _ | .var _, _, _ => nofun
  | .component base i, τ, h => by
      obtain ⟨σ, hσ, -⟩ := Option.bind_eq_some_iff.1 h
      exact Term.callee_of_ty? base σ hσ
  | .element base col row, τ, h => by
      obtain ⟨σ, hσ, -⟩ := Option.bind_eq_some_iff.1 h
      exact Term.callee_of_ty? base σ hσ
  | .neg a, τ, h => by
      obtain ⟨σ, hσ, -⟩ := Option.bind_eq_some_iff.1 h
      exact Term.callee_of_ty? a σ hσ
  | .not a, τ, h => by
      obtain ⟨σ, hσ, -⟩ := Option.bind_eq_some_iff.1 h
      exact Term.callee_of_ty? a σ hσ
  | .binary o a b, τ, h => by
      obtain ⟨σ, hσ, h⟩ := Option.bind_eq_some_iff.1 h
      obtain ⟨υ, hυ, -⟩ := Option.bind_eq_some_iff.1 h
      intro c hc
      rcases List.mem_append.1 hc with hc | hc
      · exact Term.callee_of_ty? a σ hσ c hc
      · exact Term.callee_of_ty? b υ hυ c hc
  | .call name args, τ, h => by
      obtain ⟨types, htypes, h⟩ := Option.bind_eq_some_iff.1 h
      intro c hc
      rcases List.mem_cons.1 hc with rfl | hc
      · cases hb : Builtin.ofName? name with
        | some b =>
            rw [hb] at h
            exact .inl ⟨b, hb, by rw [← Term.length_of_tys? htypes]; exact Builtin.accepts_of_ty? h⟩
        | none =>
            rw [hb] at h
            obtain ⟨sig, hsig, h⟩ := Option.bind_eq_some_iff.1 h
            split at h
            · next heq => exact .inr ⟨sig, hsig, by rw [← heq, Term.length_of_tys? htypes]⟩
            · cases h
      · exact Term.callee_of_tys? args types htypes c hc
  | .construct ty args, τ, h => by
      obtain ⟨types, htypes, -⟩ := Option.bind_eq_some_iff.1 h
      exact Term.callee_of_tys? args types htypes

theorem Term.callee_of_tys? : ∀ (ts : List (Term L)) (types : List Ty), Term.tys? fs Γ ts = some types →
    ∀ c ∈ Term.allCalls ts, Callee fs c
  | [], _, _ => nofun
  | t :: ts, types, h => by
      obtain ⟨τ, hτ, h⟩ := Option.bind_eq_some_iff.1 h
      obtain ⟨rest, hrest, -⟩ := Option.map_eq_some_iff.1 h
      intro c hc
      rcases List.mem_append.1 hc with hc | hc
      · exact Term.callee_of_ty? t τ hτ c hc
      · exact Term.callee_of_tys? ts rest hrest c hc

end

end Terms

section Blocks

variable {S : Scope} {looping : Bool} {Γ Γ' : Types}

/-- The block is in order where at least the given variables are declared. -/
def InOrder (S : Scope) (Γ : Types) (block : List (Stmt L)) : Prop :=
  ∃ looping Γ₁ Γ₂, Types.Extends Γ Γ₁ ∧ Stmt.checkAll S looping Γ₁ block = some Γ₂

theorem InOrder.of_isSome {block : List (Stmt L)} (h : (Stmt.checkAll S looping Γ block).isSome = true) :
    InOrder S Γ block := by
  obtain ⟨Γ', h⟩ := Option.isSome_iff_exists.1 h
  exact ⟨looping, Γ, Γ', .refl Γ, h⟩

mutual

theorem Stmt.blocks_inOrder : ∀ (s : Stmt L) (looping : Bool) (Γ Γ' : Types), s.check S looping Γ = some Γ' →
    ∀ block ∈ s.blocks, InOrder S Γ block
  | .declare .., _, _, _, _ | .assign .., _, _, _, _ | .leave, _, _, _, _ | .result _, _, _, _, _
  | .comment _, _, _, _, _ => nofun
  | .branch cond yes no, looping, Γ, Γ', h => by
      rw [Stmt.check] at h
      split at h
      · next hchecked =>
          obtain ⟨-, hyes, hno⟩ := hchecked
          intro block hblock
          rcases List.mem_append.1 hblock with hblock | hblock
          · rcases List.mem_cons.1 hblock with rfl | hblock
            · exact .of_isSome hyes
            · obtain ⟨Γ₁, hyes⟩ := Option.isSome_iff_exists.1 hyes
              exact Stmt.innerBlocks_inOrder yes looping Γ Γ₁ hyes block hblock
          · rcases List.mem_cons.1 hblock with rfl | hblock
            · exact .of_isSome hno
            · obtain ⟨Γ₁, hno⟩ := Option.isSome_iff_exists.1 hno
              exact Stmt.innerBlocks_inOrder no looping Γ Γ₁ hno block hblock
      · cases h
  | .loop count body, looping, Γ, Γ', h => by
      rw [Stmt.check] at h
      split at h
      · next hbody =>
          intro block hblock
          rcases List.mem_cons.1 hblock with rfl | hblock
          · exact .of_isSome hbody
          · obtain ⟨Γ₁, hbody⟩ := Option.isSome_iff_exists.1 hbody
            exact Stmt.innerBlocks_inOrder body true Γ Γ₁ hbody block hblock
      · cases h

theorem Stmt.innerBlocks_inOrder : ∀ (ss : List (Stmt L)) (looping : Bool) (Γ Γ' : Types),
    Stmt.checkAll S looping Γ ss = some Γ' → ∀ block ∈ Stmt.innerBlocks ss, InOrder S Γ block
  | [], _, _, _, _ => nofun
  | s :: ss, looping, Γ, Γ', h => by
      obtain ⟨Γ₁, hs, hss⟩ := Option.bind_eq_some_iff.1 h
      intro block hblock
      rcases List.mem_append.1 hblock with hblock | hblock
      · exact Stmt.blocks_inOrder s looping Γ Γ₁ hs block hblock
      · obtain ⟨looping', Γ₂, Γ₃, hext, hblock⟩ := Stmt.innerBlocks_inOrder ss looping Γ₁ Γ' hss block hblock
        exact ⟨looping', Γ₂, Γ₃, (Stmt.check_extends hs).trans hext, hblock⟩

end

theorem Stmt.declarations_new {block : List (Stmt L)} (h : Stmt.checkAll S looping Γ block = some Γ') :
    (Function.declarations block).Nodup ∧ ∀ v ∈ Function.declarations block, Γ.lookup v = none := by
  induction block generalizing Γ with
  | nil => exact ⟨List.nodup_nil, nofun⟩
  | cons s ss ih =>
      obtain ⟨Γ₁, hs, hss⟩ := Option.bind_eq_some_iff.1 h
      obtain ⟨hnodup, hnew⟩ := ih hss
      have hkeep : ∀ v ∈ Function.declarations ss, Γ.lookup v = none := by
        intro v hv
        cases hlookup : Γ.lookup v with
        | none => rfl
        | some τ =>
            have hnone := hnew v hv
            rw [Stmt.check_extends hs v τ hlookup] at hnone
            cases hnone
      cases s with
      | declare ty name value =>
          rw [Stmt.check] at hs
          split at hs
          · next hname =>
              obtain rfl := Option.some.inj hs
              refine ⟨List.nodup_cons.2 ⟨fun hmem => ?_, hnodup⟩, List.forall_mem_cons.2 ⟨hname.1, hkeep⟩⟩
              have hnone := hnew name hmem
              rw [List.lookup_cons_self] at hnone
              cases hnone
          · cases hs
      | assign | branch | loop | leave | result | comment => exact ⟨hnodup, hkeep⟩

theorem Stmt.exists_ty?_of_mem_terms {block : List (Stmt L)} (h : Stmt.checkAll S looping Γ block = some Γ') :
    ∀ s ∈ block, ∀ t ∈ s.terms, ∃ Γ₁ τ, t.ty? S.functions Γ₁ = some τ := by
  induction block generalizing Γ with
  | nil => nofun
  | cons s ss ih =>
      obtain ⟨Γ₁, hs, hss⟩ := Option.bind_eq_some_iff.1 h
      refine List.forall_mem_cons.2 ⟨fun t ht => ?_, ih hss⟩
      rw [Stmt.check.eq_def] at hs
      cases s with
      | loop | leave | comment => cases ht
      | declare ty name value =>
          obtain rfl := List.mem_singleton.1 ht
          dsimp only at hs
          split at hs
          · next hnew => exact ⟨Γ, ty, hnew.2⟩
          · cases hs
      | assign place value =>
          obtain rfl := List.mem_singleton.1 ht
          dsimp only at hs
          split at hs
          · next hplace =>
              obtain ⟨τ, hτ⟩ := Option.isSome_iff_exists.1 hplace.2.1
              exact ⟨Γ, τ, hplace.2.2.trans hτ⟩
          · cases hs
      | branch cond yes no =>
          obtain rfl := List.mem_singleton.1 ht
          dsimp only at hs
          split at hs
          · next hcond => exact ⟨Γ, .bool, hcond.1⟩
          · cases hs
      | result value =>
          obtain rfl := List.mem_singleton.1 ht
          dsimp only at hs
          split at hs
          · next hvalue => exact ⟨Γ, S.ret, hvalue⟩
          · cases hs

end Blocks

section Functions

variable {types : Types} {fs : Signatures} {f : Function L}

theorem Function.Checked.blocks_inOrder (h : f.Checked types fs) :
    ∀ block ∈ f.blocks, InOrder ⟨fs, types, f.ret⟩ (f.paramTypes ++ types) block := by
  intro block hblock
  rcases List.mem_cons.1 hblock with rfl | hblock
  · exact .of_isSome h.body
  · obtain ⟨Γ, hbody⟩ := Option.isSome_iff_exists.1 h.body
    exact Stmt.innerBlocks_inOrder f.body false _ Γ hbody block hblock

theorem Function.Checked.callees (h : f.Checked types fs) : ∀ c ∈ f.calls, Callee fs c := by
  intro c hc
  obtain ⟨block, hblock, hc⟩ := List.mem_flatMap.1 hc
  obtain ⟨s, hs, hc⟩ := List.mem_flatMap.1 hc
  obtain ⟨t, ht, hc⟩ := List.mem_flatMap.1 hc
  obtain ⟨looping, Γ, Γ', -, hblock⟩ := h.blocks_inOrder block hblock
  obtain ⟨Γ₁, τ, hτ⟩ := Stmt.exists_ty?_of_mem_terms hblock s hs t ht
  exact Term.callee_of_ty? t τ hτ c hc

/-- Local variables hide no global ones: those that the function declares are new to its block. -/
theorem Function.Checked.lookup_local (h : f.Checked types fs) : ∀ v ∈ f.locals, types.lookup v = none := by
  intro v hv
  rcases List.mem_append.1 hv with hv | hv
  · obtain ⟨p, hp, rfl⟩ := List.mem_map.1 hv
    exact h.apart p hp
  · obtain ⟨block, hblock, hv⟩ := List.mem_flatMap.1 hv
    obtain ⟨looping, Γ, Γ', hext, hblock⟩ := h.blocks_inOrder block hblock
    cases hlookup : types.lookup v with
    | none => rfl
    | some τ =>
        have hnone := (Stmt.declarations_new hblock).2 v hv
        cases hparam : f.paramTypes.lookup v with
        | none =>
            rw [hext v τ (by rw [List.lookup_append, hparam, hlookup]; rfl)] at hnone
            cases hnone
        | some σ =>
            rw [hext v σ (by rw [List.lookup_append, hparam]; rfl)] at hnone
            cases hnone

end Functions

section Modules

variable {types : Types} {fs : List (Function L)} {m : Module L}

theorem AllChecked.split (h : AllChecked types fs) {before after : List (Function L)} {f : Function L}
    (hsplit : fs = before ++ f :: after) : f.Checked types (signatures before) := by
  induction h generalizing after with
  | nil => simp at hsplit
  | @snoc fs g _ hg _ ih =>
      rcases List.eq_nil_or_concat after with rfl | ⟨rest, last, rfl⟩
      · obtain ⟨rfl, hlast⟩ := List.append_inj' hsplit rfl
        obtain rfl := (List.cons.inj hlast).1
        exact hg
      · rw [List.concat_eq_append, ← List.cons_append, ← List.append_assoc] at hsplit
        exact ih (List.append_inj' hsplit rfl).1

theorem Module.Checked.closed (h : m.Checked) : m.Closed := by
  have hchecked : ∀ f ∈ m.functions, ∃ fs, f.Checked m.types fs := by
    intro f hf
    obtain ⟨before, after, hsplit⟩ := List.append_of_mem hf
    exact ⟨_, h.functions.split hsplit⟩
  refine ⟨h.functions.nodup, fun before f after hsplit c hc => ?_, fun f hf block hblock => ?_, fun f hf v hv => ?_⟩
  · refine ((h.functions.split hsplit).callees c hc).imp id ?_
    rintro ⟨sig, hsig, hlength⟩
    obtain ⟨g, hg, hname, rfl⟩ := exists_of_lookup_signatures hsig
    exact ⟨g, hg, hname, by simpa [Function.signature] using hlength⟩
  · obtain ⟨fs, hf⟩ := hchecked f hf
    obtain ⟨looping, Γ, Γ', -, hblock⟩ := hf.blocks_inOrder block hblock
    exact (Stmt.declarations_new hblock).1
  · obtain ⟨fs, hf⟩ := hchecked f hf
    have hnone := List.lookup_eq_none_iff.1 (hf.lookup_local v hv)
    refine ⟨fun u hu => ?_, fun c hc => ?_⟩
    · have hne := hnone u.entry (List.mem_append_left _ (List.mem_map_of_mem hu))
      exact (bne_iff_ne.1 hne).symm
    · have hne := hnone c.entry (List.mem_append_right _ (List.mem_map_of_mem hc))
      exact (bne_iff_ne.1 hne).symm

end Modules

end FlowShader.Shader
