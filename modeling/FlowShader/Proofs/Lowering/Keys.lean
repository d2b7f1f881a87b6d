import FlowShader.Proofs.Coordinates.Frame
import FlowShader.Proofs.Expr.Occurrence
import FlowShader.Proofs.Lowering.Session

namespace FlowShader

open Coordinates (Chart Frame)

theorem Token.isIdentifier_iff_ofString (v : String) :
    isIdentifier v = true ↔ Scan.ofString v = ⟨[⟨.ident v, 0⟩, ⟨.eof, v.length⟩], none⟩ := by
  refine ⟨fun h => ?_, fun h => ?_⟩
  · let l : Lexeme := ⟨⟨.ident v, 0⟩, v.toList⟩
    have hlength : l.stop = v.toList.length := Nat.zero_add _
    have hmunched : l.Munched v.toList none :=
      ⟨List.prefix_refl _, spelled_of_isIdentifier h, fun chars hchars _ _ _ => hchars.length_le⟩
    have hrest : Cuts v.toList (some (.ident v)) l.stop v.toList.length [] :=
      Cuts.nil_iff.2 ⟨Nat.le_of_eq hlength, Nat.le_refl _, by omega⟩
    have hcuts : Cuts v.toList none 0 v.toList.length [l] :=
      Cuts.cons_iff.2 ⟨Cuts.nil_iff.2 ⟨Nat.le_refl _, Nat.zero_le _, nofun⟩, hmunched, hrest⟩
    rw [Scan.ofString_of_cuts hcuts (.eof rfl), ← String.length_toList]
    rfl
  · have hmem : ⟨.ident v, 0⟩ ∈ (Scan.ofString v).tokens := by
      rw [h]
      exact List.mem_cons_self
    exact Scan.isIdentifier_of_mem hmem rfl

namespace Expr

section Characters

def isTextChar (c : Char) : Bool := isWordChar c || "(), +-*/%^".toList.contains c

theorem isTextChar_of_isWordChar {c : Char} (h : isWordChar c = true) : isTextChar c = true := by
  rw [isTextChar, h, Bool.true_or]

variable {L : Type} [Literal L] [Literal.Legible L]

theorem text_chars {e : Expr L} (he : e.Legible) : ∀ c ∈ e.text.toList, isTextChar c = true := by
  have hlead {e : Expr L} (he : e.Legible) (htrail : ∀ c ∈ e.trail, isTextChar c = true) :
      ∀ c ∈ e.text.toList, isTextChar c = true := by
    rw [text_toList]
    exact List.forall_mem_append.2 ⟨fun c hc => isTextChar_of_isWordChar (lead_chars he c hc), htrail⟩
  have hclose : ∀ c ∈ [')'], isTextChar c = true := List.forall_mem_singleton.2 (by decide)
  induction e with
  | literal x =>
      refine hlead he ?_
      rw [trail]
      split
      · have hdigits : ∀ c ∈ (Literal.magnitudeText x).toList, isTextChar c = true :=
          fun c hc => isTextChar_of_isWordChar (magnitude_wordChars he c hc)
        simp only [List.forall_mem_cons, List.forall_mem_append]
        exact ⟨by decide, by decide, hdigits, List.forall_mem_cons.1 hclose⟩
      · exact List.forall_mem_nil _
  | constant | var => exact hlead he (List.forall_mem_nil _)
  | call f a ih =>
      exact hlead he (List.forall_mem_cons.2 ⟨by decide, List.forall_mem_append.2 ⟨ih he, hclose⟩⟩)
  | call₂ f a b iha ihb =>
      refine hlead he (List.forall_mem_cons.2 ⟨by decide, List.forall_mem_append.2 ⟨iha he.1, ?_⟩⟩)
      refine List.forall_mem_cons.2 ⟨by decide, List.forall_mem_cons.2 ⟨by decide, ?_⟩⟩
      exact List.forall_mem_append.2 ⟨ihb he.2, hclose⟩
  | op o a b iha ihb =>
      have ho : isTextChar o.symbol = true := by cases o <;> decide
      refine hlead he (List.forall_mem_cons.2 ⟨by decide, List.forall_mem_append.2 ⟨iha he.1, ?_⟩⟩)
      refine List.forall_mem_cons.2 ⟨by decide, List.forall_mem_cons.2 ⟨ho, List.forall_mem_cons.2 ⟨by decide, ?_⟩⟩⟩
      exact List.forall_mem_append.2 ⟨ihb he.2, hclose⟩

theorem separators_not_mem_text [Literal.Zeros L] {e : Expr L} (he : e.Readable) :
    '#' ∉ e.text.toList ∧ ';' ∉ e.text.toList := by
  have hchars := text_chars (legible_unsigned he)
  rw [text_unsigned he] at hchars
  exact ⟨fun h => absurd (hchars _ h) (by decide), fun h => absurd (hchars _ h) (by decide)⟩

end Characters

end Expr

section Doubles

open Double

namespace Expr

theorem unsigned_literal (x : Float) : (literal x).unsigned = literal (Literal.plain x) := by
  rw [unsigned, Literal.plain]
  split <;> rfl

theorem beq_of_plain_eq {x y : Float} (hx : x.isFinite = true) (hy : y.isFinite = true)
    (h : Literal.plain x = Literal.plain y) : (x == y) = true := by
  have hzero : ((0 : Float) == 0) = true := Literal.Zeros.zero_beq
  unfold Literal.plain at h
  split at h
  · next hx' =>
    split at h
    · next hy' => exact beq_of_zeros hx' hy'
    · next hy' => exact absurd (h ▸ hzero) hy'
  · next hx' =>
    split at h
    · next hy' => exact absurd (h ▸ hzero) hx'
    · next hy' =>
      subst h
      exact Double.beq_self (exponentBits_ne_of_isFinite hx)

theorem unsigned_ne_literal {e : Expr Float} (he : ∀ x, e ≠ literal x) (y : Float) :
    e.unsigned ≠ (literal y).unsigned := by
  rw [unsigned_literal]
  cases e with
  | literal x => exact absurd rfl (he x)
  | _ => simp [unsigned]

theorem beq_of_unsigned_eq {e f : Expr Float} (he : e.Readable) (hf : f.Readable) (h : e.unsigned = f.unsigned) :
    (e == f) = true := by
  change beq e f = true
  induction e generalizing f with
  | literal x =>
      rw [unsigned_literal] at h
      cases f with
      | literal y =>
          rw [unsigned_literal] at h
          exact beq_of_plain_eq he hf (Expr.literal.inj h)
      | _ => cases h
  | constant c =>
      cases f with
      | constant d =>
          cases h
          exact beq_self_eq_true c
      | literal y => exact absurd h (unsigned_ne_literal (by simp) y)
      | _ => cases h
  | var v =>
      cases f with
      | var w =>
          cases h
          exact beq_self_eq_true v
      | literal y => exact absurd h (unsigned_ne_literal (by simp) y)
      | _ => cases h
  | call g a ih =>
      cases f with
      | call k b =>
          obtain ⟨rfl, hab⟩ := Expr.call.inj h
          simp only [beq, beq_self_eq_true, Bool.true_and]
          exact ih he hf hab
      | literal y => exact absurd h (unsigned_ne_literal (by simp) y)
      | _ => cases h
  | call₂ g a b iha ihb =>
      cases f with
      | call₂ k a' b' =>
          obtain ⟨rfl, ha, hb⟩ := Expr.call₂.inj h
          simp only [beq, beq_self_eq_true, Bool.true_and, Bool.and_eq_true]
          exact ⟨iha he.1 hf.1 ha, ihb he.2 hf.2 hb⟩
      | literal y => exact absurd h (unsigned_ne_literal (by simp) y)
      | _ => cases h
  | op o a b iha ihb =>
      cases f with
      | op o' a' b' =>
          obtain ⟨rfl, ha, hb⟩ := Expr.op.inj h
          simp only [beq, beq_self_eq_true, Bool.true_and, Bool.and_eq_true]
          exact ⟨iha he.1 hf.1 ha, ihb he.2 hf.2 hb⟩
      | literal y => exact absurd h (unsigned_ne_literal (by simp) y)
      | _ => cases h

theorem text_eq_iff_beq {e f : Expr Float} (he : e.Readable) (hf : f.Readable) :
    e.text = f.text ↔ (e == f) = true :=
  ⟨fun h => beq_of_unsigned_eq he hf (unsigned_eq_of_text he hf h), text_eq_of_beq he hf⟩

end Expr

end Doubles

namespace Lowering

open Shader (Term)

section Labels

variable {L : Type} [Literal L] {c : Lowering L} {stem key : String} {sources : Expr L → Prop} {s s' : State L}
  {d e base : Expr L} {es trace : List (Expr L)} {ts : List (Term L)} {t value : Term L}
  {r : Except UnknownIdentifier (List (Term L))}

/-- Every temporary is that of one key, which is the key of a source. -/
structure Labelled (stem : String) (sources : Expr L → Prop) (s : State L) : Prop where
  names (key name : String) : s.temporaries[key]? = some name → ∃ k < s.temporaries.size, name = stem ++ toString k
  distinct (key key' name : String) : s.temporaries[key]? = some name → s.temporaries[key']? = some name → key = key'
  keys : ∀ key ∈ s.temporaries, ∃ d, sources d ∧ KeyOf key d

theorem Labelled.declared (h : Labelled stem sources s) (hkey : key ∉ s.temporaries) (hd : sources d)
    (hkd : KeyOf key d) (value : Term L) : Labelled stem sources (s.declared stem key value) := by
  have hsize : (s.declared stem key value).temporaries.size = s.temporaries.size + 1 := size_declared hkey
  have hget (key' name : String) (h' : (s.declared stem key value).temporaries[key']? = some name) :
      (key = key' ∧ name = stem ++ toString s.temporaries.size) ∨ s.temporaries[key']? = some name := by
    rw [State.declared, Std.HashMap.getElem?_insert] at h'
    split at h'
    · next heq => exact .inl ⟨eq_of_beq heq, (Option.some.inj h').symm⟩
    · exact .inr h'
  -- The new temporary has a number that no earlier one has.
  have hnew (key' : String) : s.temporaries[key']? ≠ some (stem ++ toString s.temporaries.size) := by
    intro h'
    obtain ⟨k, hk, heq⟩ := h.names _ _ h'
    exact absurd (append_toString_inj heq) (by omega)
  refine ⟨fun key' name h' => ?_, fun key₁ key₂ name h₁ h₂ => ?_, fun key' hkey' => ?_⟩
  · rw [hsize]
    obtain ⟨-, rfl⟩ | h' := hget key' name h'
    · exact ⟨_, Nat.lt_succ_self _, rfl⟩
    · obtain ⟨k, hk, hk'⟩ := h.names key' name h'
      exact ⟨k, Nat.lt_succ_of_lt hk, hk'⟩
  · obtain ⟨rfl, rfl⟩ | h₁ := hget key₁ name h₁ <;> obtain ⟨rfl, hname⟩ | h₂ := hget key₂ _ h₂
    · rfl
    · exact absurd h₂ (hnew _)
    · exact absurd (hname ▸ h₁) (hnew _)
    · exact h.distinct _ _ _ h₁ h₂
  · obtain rfl | hkey' := mem_declared.1 hkey'
    · exact ⟨d, hd, hkd⟩
    · exact h.keys key' hkey'

theorem Factors.labelled {n : Nat} (h : Factors stem base n value s t s') (hs : Labelled stem sources s)
    (hbase : sources base) : Labelled stem sources s' := by
  cases h with
  | plain | known => exact hs
  | fresh _ _ hkey => exact hs.declared (not_mem_of_getElem? hkey) hbase (.inr rfl) _

theorem Assembles.labelled (h : Assembles c stem s e ts t s') (hs : Labelled stem sources s)
    (he : ∀ a ∈ operands e, sources a) : Labelled stem sources s' := by
  cases h with
  | call | call₂ | op => exact hs
  | @power o a b x factor n _ hn hfactor => exact hfactor.labelled hs (he a (by simp [operands, hn]))

theorem Stores.labelled (h : Stores stem e value s t s') (hs : Labelled stem sources s) (hkey : e.text ∉ s.temporaries)
    (he : sources e) : Labelled stem sources s' := by
  cases h with
  | once => exact hs
  | shared => exact hs.declared hkey he (.inl rfl) _

theorem Lowers.labelled (h : Lowers c stem es s r s' trace) (hs : Labelled stem sources s)
    (hes : ∀ e ∈ es, ∀ d ∈ e.subtrees, sources d) : Labelled stem sources s' := by
  have hparts {e : Expr L} (he : ∀ d ∈ e.subtrees, sources d) : ∀ a ∈ operands e, ∀ d ∈ a.subtrees, sources d :=
    fun a ha d hd => he d (Expr.mem_subtrees_trans (mem_subtrees_of_mem_operands ha) hd)
  induction h with
  | nil | unbound => exact hs
  | leaf _ _ ih | reused _ _ _ ih => exact ih hs (List.forall_mem_cons.1 hes).2
  | failed _ _ _ _ ih => exact ih hs (hparts (List.forall_mem_cons.1 hes).1)
  | @node e _ _ _ _ _ _ _ _ _ _ _ _ he hname hlowers hvalue hstore _ ihparts ihrest =>
      obtain ⟨he', hes⟩ := List.forall_mem_cons.1 hes
      have hs₂ := hvalue.labelled (ihparts hs (hparts he')) fun a ha => hparts he' a ha a a.mem_subtrees_self
      have hs₃ := hstore.labelled hs₂ (text_not_mem he hname hlowers hvalue) (he' e e.mem_subtrees_self)
      exact ihrest hs₃ hes

theorem labelled_after (hstem : c.hoist = some stem) (history : List (Request L)) :
    Labelled stem (fun d => ∃ e ∈ history.flatMap Request.lowered, d ∈ e.subtrees)
      (Session.after c history).state := by
  have hserve {sources : Expr L → Prop} (s : Session L) (q : Request L) (hq : ∀ e ∈ q.lowered, ∀ d ∈ e.subtrees, sources d)
      (hs : Labelled stem sources s.state) : Labelled stem sources (s.serve c q).state := by
    cases q with
    | prepare es =>
        rw [Session.serve, prepare, hstem]
        exact ⟨hs.names, hs.distinct, hs.keys⟩
    | build e =>
        obtain ⟨trace, h⟩ := build_lowers hstem e s.state
        exact h.labelled hs hq
    | take => exact ⟨hs.names, hs.distinct, hs.keys⟩
  have hrun {sources : Expr L → Prop} (history : List (Request L))
      (hsources : ∀ q ∈ history, ∀ e ∈ q.lowered, ∀ d ∈ e.subtrees, sources d) (s : Session L)
      (hs : Labelled stem sources s.state) : Labelled stem sources (history.foldl (Session.serve c) s).state := by
    induction history generalizing s with
    | nil => exact hs
    | cons q history ih =>
        obtain ⟨hq, hrest⟩ := List.forall_mem_cons.1 hsources
        exact ih hrest _ (hserve s q hq hs)
  refine hrun history (fun q hq e he d hd => ⟨e, List.mem_flatMap.2 ⟨q, hq, he⟩, hd⟩) {} ⟨?_, ?_, ?_⟩
  · intro key name h
    simp at h
  · intro key key' name h
    simp at h
  · intro key h
    simp at h

end Labels

section Faithful

variable {key key' stem : String} {e f : Expr Float}

theorem KeyOf.beq (he : e.Readable) (hf : f.Readable) (h : KeyOf key e) (h' : KeyOf key f) : (e == f) = true :=
  Expr.beq_of_unsigned_eq he hf (KeyOf.unsigned_eq he hf h h')

theorem base_key_iff (he : e.Readable) (hf : f.Readable) :
    e.text ++ "#base" = f.text ++ "#base" ↔ (e == f) = true := by
  refine ⟨fun h => KeyOf.beq he hf (.inr rfl) (.inr h), fun h => ?_⟩
  rw [Expr.text_eq_of_beq he hf h]

theorem text_ne_base_key (he : e.Readable) : e.text ≠ f.text ++ "#base" := by
  intro h
  have hmem : '#' ∈ (f.text ++ "#base").toList := by
    rw [String.toList_append]
    exact List.mem_append_right _ (by decide)
  exact (Expr.separators_not_mem_text he).1 (h ▸ hmem)

/-- In every session a temporary for a formula was made for an equal one, and no other formula has it. -/
theorem session_keys {c : Lowering Float} (hstem : c.hoist = some stem) (history : List (Request Float))
    (hread : ∀ e ∈ history.flatMap Request.lowered, e.Readable) (he : e.Readable) (hkey : KeyOf key e) {name : String}
    (hname : (Session.after c history).state.temporaries[key]? = some name) :
    (∃ d ∈ (history.flatMap Request.lowered).flatMap Expr.subtrees, KeyOf key d ∧ (d == e) = true) ∧
      ∀ (f : Expr Float) (key' : String), f.Readable → KeyOf key' f →
        (Session.after c history).state.temporaries[key']? = some name → key = key' ∧ (e == f) = true := by
  have hlabelled := labelled_after hstem history
  refine ⟨?_, fun f key' hf hkey' hname' => ?_⟩
  · obtain ⟨d, ⟨g, hg, hd⟩, hkd⟩ := hlabelled.keys key (Std.HashMap.mem_iff_isSome_getElem?.2 (by simp [hname]))
    exact ⟨d, List.mem_flatMap.2 ⟨g, hg, hd⟩, hkd, KeyOf.beq ((hread g hg).subtree hd) he hkd hkey⟩
  · obtain rfl := hlabelled.distinct key key' name hname hname'
    exact ⟨rfl, KeyOf.beq he hf hkey hkey'⟩

end Faithful

section Charts

variable {fs gs : List (Expr Float)}

theorem map_text_eq_iff (hfs : ∀ f ∈ fs, f.Readable) (hgs : ∀ g ∈ gs, g.Readable) :
    fs.map Expr.text = gs.map Expr.text ↔ List.Forall₂ (fun f g => (f == g) = true) fs gs := by
  induction fs generalizing gs with
  | nil => cases gs <;> simp
  | cons f fs ih =>
      cases gs with
      | nil => simp
      | cons g gs =>
          obtain ⟨hf, hfs⟩ := List.forall_mem_cons.1 hfs
          obtain ⟨hg, hgs⟩ := List.forall_mem_cons.1 hgs
          rw [List.map_cons, List.map_cons, List.cons.injEq, List.forall₂_cons, Expr.text_eq_iff_beq hf hg, ih hfs hgs]

theorem chart_key_eq_iff {c d : Chart Float} (hc : ∀ f ∈ c.forward, f.Readable) (hd : ∀ f ∈ d.forward, f.Readable) :
    c.key = d.key ↔ List.Forall₂ (fun f g => (f == g) = true) c.forward d.forward := by
  have hunsigned {fs : List (Expr Float)} (hfs : ∀ f ∈ fs, f.Readable) :
      fs.map Expr.text = (fs.map Expr.unsigned).map Expr.text := by
    rw [List.map_map]
    exact List.map_congr_left fun f hf => (Expr.text_unsigned (hfs f hf)).symm
  have hlegible {fs : List (Expr Float)} (hfs : ∀ f ∈ fs, f.Readable) : ∀ g ∈ fs.map Expr.unsigned, g.Legible :=
    List.forall_mem_map.2 fun f hf => Expr.legible_unsigned (hfs f hf)
  rw [← map_text_eq_iff hc hd]
  refine ⟨fun h => ?_, fun h => by rw [Chart.key, h, Chart.key]⟩
  rw [Chart.key, Chart.key, hunsigned hc, hunsigned hd] at h
  rw [hunsigned hc, hunsigned hd, Expr.intercalate_text_inj (hlegible hc) (hlegible hd) h]

theorem inverse_of_mem_invertedCharts {s : Frame Float} (hs : ∀ c ∈ s.atlas.charts, ∀ f ∈ c.forward, f.Readable)
    {p : (Chart Float × Except InversionError (Matrix.Inverse Float)) × Nat} (h : p ∈ s.invertedCharts) :
    ∃ d ∈ s.atlas.charts, List.Forall₂ (fun f g => (f == g) = true) d.forward p.1.1.forward ∧
      p.1.2 = (Matrix.jacobian d.forward s.axes).inverse := by
  have hmem := List.mem_of_getElem? (List.mem_zipIdx_iff_getElem?.1 h)
  obtain ⟨c, hc, hp⟩ := List.mem_map.1 hmem
  obtain ⟨d, hd, hkey, hfind⟩ :=
    exists_find?_tabulate Chart.key (fun c => (Matrix.jacobian c.forward s.axes).inverse) hc
  rw [← hp]
  exact ⟨d, hd, (chart_key_eq_iff (hs d hd) (hs c hc)).1 hkey, congrArg (·.getD (.error .singular)) hfind⟩

end Charts

/-- Texts are faithful keys, for variables that the scanner reads as identifiers and finite literals. They
tell formulas apart, up to the signs of zeros, also with `#base` behind them, and the two kinds of keys are never
mixed up, as neither `#` nor `;` is in a text. In every session, a temporary was made for an equal formula and belongs
to this formula only. Charts have one key exactly if they have equal formulas, and each chart is given the inverse
Jacobian of a chart with equal formulas. -/
theorem text_keys_faithful :
    (∀ v, Token.isIdentifier v = true ↔ Scan.ofString v = ⟨[⟨.ident v, 0⟩, ⟨.eof, v.length⟩], none⟩) ∧
    (∀ e f : Expr Float, e.Readable → f.Readable →
      (e.text = f.text ↔ (e == f) = true) ∧ (e.text ++ "#base" = f.text ++ "#base" ↔ (e == f) = true) ∧
        e.text ≠ f.text ++ "#base" ∧ '#' ∉ e.text.toList ∧ ';' ∉ e.text.toList) ∧
    (∀ (c : Lowering Float) (stem : String) (history : List (Request Float)), c.hoist = some stem →
      (∀ e ∈ history.flatMap Request.lowered, e.Readable) →
      ∀ (e : Expr Float) (key name : String), e.Readable → KeyOf key e →
        (Session.after c history).state.temporaries[key]? = some name →
        (∃ d ∈ (history.flatMap Request.lowered).flatMap Expr.subtrees, KeyOf key d ∧ (d == e) = true) ∧
        ∀ (f : Expr Float) (key' : String), f.Readable → KeyOf key' f →
          (Session.after c history).state.temporaries[key']? = some name → key = key' ∧ (e == f) = true) ∧
    (∀ c d : Chart Float, (∀ f ∈ c.forward, f.Readable) → (∀ f ∈ d.forward, f.Readable) →
      (c.key = d.key ↔ List.Forall₂ (fun f g => (f == g) = true) c.forward d.forward)) ∧
    ∀ s : Frame Float, (∀ c ∈ s.atlas.charts, ∀ f ∈ c.forward, f.Readable) → ∀ p ∈ s.invertedCharts,
      ∃ d ∈ s.atlas.charts, List.Forall₂ (fun f g => (f == g) = true) d.forward p.1.1.forward ∧
        p.1.2 = (Matrix.jacobian d.forward s.axes).inverse := by
  refine ⟨Token.isIdentifier_iff_ofString, fun e f he hf => ?_, ?_, ?_, ?_⟩
  · exact ⟨Expr.text_eq_iff_beq he hf, base_key_iff he hf, text_ne_base_key he, Expr.separators_not_mem_text he⟩
  · intro c stem history hstem hread e key name he hkey hname
    exact session_keys hstem history hread he hkey hname
  · exact fun c d hc hd => chart_key_eq_iff hc hd
  · exact fun s hs p hp => inverse_of_mem_invertedCharts hs hp

theorem temporary_of_sine :
    (Session.after (emitting (.identity ["x"]) : Lowering Float) [.prepare [.call .sin (.var "x"), .call .sin (.var "x")],
      .build (.call .sin (.var "x"))]).state.temporaries["sin(x)"]? = some "t0" := by cbv

/-- A negative number and a difference have different texts, zeros of both signs have one, also in charts, and a
sine that was asked for twice has a temporary of its own. -/
theorem text_keys_faithful_signs :
    let turn (zero : Float) : Expr Float := .call₂ .atan2 (.var "y") (.op .add (.var "x") (.literal zero))
    let sine : Expr Float := .call .sin (.var "x")
    let history : List (Request Float) := [.prepare [sine, sine], .build sine]
    (Expr.literal (-1.0)).text ≠ (Expr.op .sub (.literal 0.0) (.literal 1.0) : Expr Float).text ∧
      Chart.key ⟨.everywhere, [turn 0.0, sine], .primary⟩ = Chart.key ⟨.everywhere, [turn (-0.0), sine], .primary⟩ ∧
      ∀ f : Expr Float, f.Readable →
        (Session.after (emitting (.identity ["x"])) history).state.temporaries[f.text]? = some "t0" →
        (sine == f) = true := by
  intro turn sine history
  have hliteral (x : Float) (hx : x.isFinite = true) : (Expr.literal x).Readable := hx
  have hvar (v : String) (h : Token.isIdentifier v = true) : (Expr.var v : Expr Float).Readable := h
  have hsine : sine.Readable := hvar "x" (by decide)
  have hturn (zero : Float) (hzero : zero.isFinite = true) : ∀ f ∈ [turn zero, sine], f.Readable := by
    refine List.forall_mem_cons.2 ⟨?_, List.forall_mem_singleton.2 hsine⟩
    exact ⟨hvar "y" (by decide), hvar "x" (by decide), hliteral zero hzero⟩
  have hread : ∀ e ∈ history.flatMap Request.lowered, e.Readable := List.forall_mem_singleton.2 hsine
  obtain ⟨-, htexts, hsession, hcharts, -⟩ := text_keys_faithful
  refine ⟨fun h => ?_, (hcharts _ _ (hturn 0.0 (by decide)) (hturn (-0.0) (by decide))).2 ?_, fun f hf hname => ?_⟩
  · have hdifference : (Expr.op .sub (.literal 0.0) (.literal 1.0) : Expr Float).Readable :=
      ⟨hliteral _ (by decide), hliteral _ (by decide)⟩
    cases (htexts _ _ (hliteral _ (by decide)) hdifference).1.1 h
  · exact .cons (by decide) (.cons (by decide) .nil)
  · have hsine' := hsession _ "t" history rfl hread sine sine.text "t0" hsine (.inl rfl) temporary_of_sine
    exact (hsine'.2 f f.text hf (.inl rfl) hname).2

end Lowering

end FlowShader
