import FlowShader.Problem
import FlowShader.Proofs.Expr.ErrorPosition
import FlowShader.Proofs.Expr.Names
import FlowShader.Proofs.Expr.RoundTrip

namespace FlowShader

namespace Token

variable {previous : Option Token} {chars : List Char} {t : Token} {v : String}

def name? : Token → Option String
  | ident v => some v
  | _ => none

def isWord : Token → Bool
  | number _ | ident _ | constant _ | function _ _ => true
  | _ => false

theorem name?_of_sign? {o : Operator} (h : t.sign? = some o) : t.name? = none := by
  cases t <;> first | rfl | exact absurd h nofun

theorem isWord_of_sign? {o : Operator} (h : t.sign? = some o) : t.isWord = false := by
  cases t <;> first | rfl | exact absurd h nofun

theorem isWordChar_of_isDigit {c : Char} (h : c.isDigit = true) : Expr.isWordChar c = true := by
  simp [Expr.isWordChar, isNameChar, Char.isAlphanum, h]

theorem IsName.wordChars (h : IsName chars) : ∀ c ∈ chars, Expr.isWordChar c = true := by
  cases chars with
  | nil => exact absurd h id
  | cons c chars =>
      refine List.forall_mem_cons.2 ⟨?_, fun d hd => ?_⟩
      · exact Expr.isWordChar_of_isNameChar (isNameChar_of_isNameStart h.1)
      · exact Expr.isWordChar_of_isNameChar (h.2 d hd)

theorem Spelled.isWord_cases (h : Spelled previous chars t) :
    (t.isWord = true ∧ ∀ c ∈ chars, Expr.isWordChar c = true) ∨
      (t.isWord = false ∧ ∃ c, chars = [c] ∧ Expr.isWordChar c = false) := by
  cases h with
  | lparen | rparen | comma | negation | subtraction => exact .inr ⟨rfl, _, rfl, by decide⟩
  | @operator o h => exact .inr ⟨rfl, _, rfl, by cases o <;> decide⟩
  | whole hne h => exact .inl ⟨rfl, fun c hc => isWordChar_of_isDigit (h c hc)⟩
  | point hne hwhole hfraction =>
      refine .inl ⟨rfl, List.forall_mem_append.2 ⟨fun c hc => isWordChar_of_isDigit (hwhole c hc), ?_⟩⟩
      exact List.forall_mem_cons.2 ⟨by decide, fun c hc => isWordChar_of_isDigit (hfraction c hc)⟩
  | constant hname | function hname | ident hname => exact .inl ⟨rfl, hname.wordChars⟩

theorem Spelled.chars_of_ident (h : Spelled previous chars (.ident v)) : chars = v.toList := by
  cases h with
  | ident => exact String.toList_ofList.symm

theorem spelled_of_isIdentifier (h : isIdentifier v = true) : Spelled previous v.toList (.ident v) := by
  obtain ⟨c, rest, hv, hc, hrest⟩ := chars_of_isIdentifier h
  have hname : IsName v.toList := by
    rw [hv]
    exact ⟨hc, hrest⟩
  have hspelled : Spelled previous v.toList _ := spelled_name hname
  rwa [String.ofList_toList, ofWord_of_isIdentifier h] at hspelled

end Token

theorem Expr.isBlank_of_isWordChar {c : Char} (h : isWordChar c = true) : Text.isBlank c = false := by
  have hcases : c.isDigit = true ∨ Token.isNameStart c = true ∨ c = '.' := by
    simp only [isWordChar, Token.isNameChar, Token.isNameStart, Char.isAlphanum, Bool.or_eq_true, beq_iff_eq] at h ⊢
    tauto
  rcases hcases with h | h | rfl
  · have hbounds := Token.toNat_of_isDigit h
    exact Text.isBlank_eq_false (by omega) (by omega)
  · have hbounds := Token.toNat_of_isNameStart h
    exact Text.isBlank_eq_false (by omega) (by omega)
  · decide

def WordsApart (t u : Located) : Prop := t.token.isWord = true → u.token.isWord = false

theorem wordsApart_join {ts us : List Located} {t : Located} (hts : ts.IsChain WordsApart)
    (ht : t.token.isWord = false) (hus : us.IsChain WordsApart) : (ts ++ t :: us).IsChain WordsApart := by
  refine hts.append (List.isChain_cons.2 ⟨fun u _ hword => ?_, hus⟩) fun s _ u hu _ => ?_
  · exact absurd (ht.symm.trans hword) Bool.false_ne_true
  · obtain rfl := Option.some.inj hu
    exact ht

theorem wordsApart_group {ts : List Located} {p q : Located} (hp : p.token.isWord = false)
    (hts : ts.IsChain WordsApart) (hq : q.token.isWord = false) : (p :: ts ++ [q]).IsChain WordsApart := by
  have hclosed : (ts ++ [q]).IsChain WordsApart := wordsApart_join hts hq .nil
  have hopened : ([] ++ p :: (ts ++ [q])).IsChain WordsApart := wordsApart_join .nil hp hclosed
  exact hopened

namespace Grammar

section Names

variable {L : Type} {callable : Callable} {args : List (Expr L)} {e : Expr L}

theorem Builds.names (h : Builds callable args e) : e.names = args.flatMap Expr.names := by
  cases h <;> simp [Expr.names]

variable [Literal L]

mutual

/-- The variables of a formula are its identifiers, in the same order and as often. -/
theorem Derives.names_eq {c : Category} {ts : List Located} {e : Expr L} :
    Derives c ts e → e.names = ts.filterMap (·.token.name?)
  | .term h | .neg h | .power h | .primary h => h.names_eq
  | .binary hlhs ht hrhs => by
      simp [Expr.names, hlhs.names_eq, hrhs.names_eq, Token.name?_of_sign? ht]
  | .negation ht h => by simp [Expr.names, h.names_eq, Token.name?_of_sign? ht]
  | .number ht | .constant ht | .ident ht => by simp [Expr.names, ht, Token.name?]
  | .call ht _ hp hargs hq hbuilds => by
      rw [hbuilds.names, hargs.names_eq]
      simp [ht, hp, hq, Token.name?]
  | .group hp h hq => by
      rw [h.names_eq]
      simp [hp, hq, Token.name?]

theorem Arguments.names_eq {ts : List Located} {args : List (Expr L)} :
    Arguments ts args → args.flatMap Expr.names = ts.filterMap (·.token.name?)
  | .one h => by simp [h.names_eq]
  | .more hargs ht h => by
      rw [List.flatMap_append, hargs.names_eq, List.filterMap_append]
      simp [h.names_eq, ht, Token.name?]

end

mutual

theorem Derives.wordsApart {c : Category} {ts : List Located} {e : Expr L} :
    Derives c ts e → ts.IsChain WordsApart
  | .term h | .neg h | .power h | .primary h => h.wordsApart
  | .binary hlhs ht hrhs => wordsApart_join hlhs.wordsApart (Token.isWord_of_sign? ht) hrhs.wordsApart
  | .negation ht h => wordsApart_join .nil (Token.isWord_of_sign? ht) h.wordsApart
  | .number _ | .constant _ | .ident _ => .singleton _
  | .call _ _ hp hargs hq _ => by
      have hp : _ = false := congrArg Token.isWord hp
      exact .cons_cons (fun _ => hp) (wordsApart_group hp hargs.wordsApart (congrArg Token.isWord hq))
  | .group hp h hq =>
      wordsApart_group (congrArg Token.isWord hp) h.wordsApart (congrArg Token.isWord hq)

theorem Arguments.wordsApart {ts : List Located} {args : List (Expr L)} :
    Arguments ts args → ts.IsChain WordsApart
  | .one h => h.wordsApart
  | .more hargs ht h => wordsApart_join hargs.wordsApart (by rw [ht]; rfl) h.wordsApart

end

end Names

end Grammar

/-- The name stands in the text as a word of its own, not inside a longer name or next to a number. -/
structure OccursAt (source : List Char) (name : String) (position : Nat) : Prop where
  stands : name.toList <+: source.drop position
  before (i : Nat) : i + 1 = position → ∀ c ∈ source[i]?, Expr.isWordChar c = false
  behind : ∀ c ∈ source[position + name.length]?, Expr.isWordChar c = false

section Occurrences

variable {source : List Char} {previous : Option Token} {start stop i position : Nat} {c : Char} {l m : Lexeme}
  {ls : List Lexeme} {v : String}

theorem Munched.exists_of_mem (h : Munched source previous ls) (hl : l ∈ ls) :
    ∃ previous, l.Munched source previous := by
  induction ls generalizing previous with
  | nil => exact absurd hl List.not_mem_nil
  | cons k ls ih =>
      rcases List.mem_cons.1 hl with rfl | hl
      · exact ⟨previous, h.1⟩
      · exact ih h.2 hl

theorem mem_chars_of_stands {chars : List Char} (hchars : chars <+: source.drop position) (hle : position ≤ i)
    (hlt : i < position + chars.length) (hc : source[i]? = some c) : c ∈ chars := by
  have hi : chars[i - position]? = some c := by
    obtain ⟨more, hmore⟩ := hchars
    rw [← List.getElem?_append_left (by omega), hmore, List.getElem?_drop, Nat.add_sub_cancel' hle, hc]
  exact List.mem_of_getElem? hi

namespace Cuts

theorem exists_word (h : Cuts source previous start stop ls) (hle : start ≤ i) (hlt : i < stop)
    (hc : source[i]? = some c) (hword : Expr.isWordChar c = true) :
    ∃ l ∈ ls, l.position ≤ i ∧ i < l.stop ∧ l.token.isWord = true ∧ ∀ d ∈ l.chars, Expr.isWordChar d = true := by
  by_contra hnone
  have hblank := h.blank i hle hlt (fun l hl hi => ?_) c hc
  · exact Bool.false_ne_true ((Expr.isBlank_of_isWordChar hword).symm.trans hblank)
  · obtain ⟨previous', hmunched⟩ := h.munched.exists_of_mem hl
    have hmem : c ∈ l.chars := mem_chars_of_stands hmunched.stands hi.1 hi.2 hc
    obtain ⟨hl', hchars⟩ | ⟨-, d, hd, hnot⟩ := hmunched.spelled.isWord_cases
    · exact hnone ⟨l, hl, hi.1, hi.2, hl', hchars⟩
    · rw [hd, List.mem_singleton] at hmem
      subst hmem
      exact Bool.false_ne_true (hnot.symm.trans hword)

/-- If words are never neighbours, a lexeme that touches a later one is not a word together with it. -/
theorem pairwise_wordsApart (h : Cuts source previous start stop ls)
    (hwords : (ls.map Lexeme.toLocated).IsChain WordsApart) :
    ls.Pairwise fun l m => l.stop ≤ m.position ∧ (l.stop = m.position → WordsApart l.toLocated m.toLocated) := by
  induction ls generalizing previous start with
  | nil => exact .nil
  | cons l ls ih =>
      obtain ⟨hnext, hwords⟩ := List.isChain_cons.1 hwords
      obtain ⟨-, hl, hrest⟩ := cons_iff.1 h
      refine List.pairwise_cons.2 ⟨fun m hm => ⟨(hrest.within m hm).1, fun htouch => ?_⟩, ih hrest hwords⟩
      cases ls with
      | nil => exact absurd hm List.not_mem_nil
      | cons n ls =>
          rcases List.mem_cons.1 hm with rfl | hm
          · exact hnext _ rfl
          · -- The next lexeme would have to fit between two that touch.
            obtain ⟨hgap, hn, hlater⟩ := cons_iff.1 hrest
            have hle := hgap.start_le
            have hlt := hn.start_lt
            have hge := (hlater.within m hm).1
            omega

theorem cases_of_mem (h : Cuts source previous start stop ls) (hwords : (ls.map Lexeme.toLocated).IsChain WordsApart)
    (hl : l ∈ ls) (hm : m ∈ ls) : l = m ∨
      (l.stop ≤ m.position ∧ (l.stop = m.position → WordsApart l.toLocated m.toLocated)) ∨
      (m.stop ≤ l.position ∧ (m.stop = l.position → WordsApart m.toLocated l.toLocated)) := by
  have hpairs := h.pairwise_wordsApart hwords
  obtain ⟨i, hi, rfl⟩ := List.getElem_of_mem hl
  obtain ⟨j, hj, rfl⟩ := List.getElem_of_mem hm
  rcases Nat.lt_trichotomy i j with hij | rfl | hij
  · exact .inr (.inl (List.pairwise_iff_getElem.1 hpairs i j hi hj hij))
  · exact .inl rfl
  · exact .inr (.inr (List.pairwise_iff_getElem.1 hpairs j i hj hi hij))

theorem occursAt (h : Cuts source none 0 source.length ls) (hwords : (ls.map Lexeme.toLocated).IsChain WordsApart)
    (hl : l ∈ ls) (hident : l.token = .ident v) : OccursAt source v l.position := by
  obtain ⟨previous, hmunched⟩ := h.munched.exists_of_mem hl
  have hword : l.token.isWord = true := by rw [hident]; rfl
  have hchars : l.chars = v.toList := Token.Spelled.chars_of_ident (hident ▸ hmunched.spelled)
  have hstop : l.position + v.length = l.stop := by rw [Lexeme.stop, hchars, String.length_toList]
  have hlt := hmunched.start_lt
  -- The lexeme of a neighbouring character would be a word that touches this one.
  refine ⟨hchars ▸ hmunched.stands, fun i hi c hc => ?_, fun c hc => ?_⟩
  · refine Bool.eq_false_iff.2 fun hc' => ?_
    have hlength := (List.getElem?_eq_some_iff.1 hc).1
    obtain ⟨m, hm, hle, hlt', hmword, -⟩ := h.exists_word (Nat.zero_le i) hlength hc hc'
    obtain rfl | ⟨hbehind, -⟩ | ⟨hbefore, hapart⟩ := h.cases_of_mem hwords hl hm
    · omega
    · omega
    · exact Bool.false_ne_true ((hapart (by omega) hmword).symm.trans hword)
  · refine Bool.eq_false_iff.2 fun hc' => ?_
    rw [hstop] at hc
    have hlength := (List.getElem?_eq_some_iff.1 hc).1
    obtain ⟨m, hm, hle, hlt', hmword, -⟩ := h.exists_word (Nat.zero_le _) hlength hc hc'
    obtain rfl | ⟨hbehind, hapart⟩ | ⟨hbefore, -⟩ := h.cases_of_mem hwords hl hm
    · omega
    · exact Bool.false_ne_true ((hapart (by omega) hword).symm.trans hmword)
    · omega

theorem exists_of_occursAt (h : Cuts source none 0 source.length ls) (hv : Token.isIdentifier v = true)
    (hoccurs : OccursAt source v position) : ∃ l ∈ ls, l.toLocated = ⟨.ident v, position⟩ := by
  obtain ⟨c, rest, hchars, hstart, -⟩ := Token.chars_of_isIdentifier hv
  have hc : source[position]? = some c := by
    obtain ⟨more, hmore⟩ := hoccurs.stands
    rw [← List.head?_drop, ← hmore, hchars]
    rfl
  have hword : Expr.isWordChar c = true := Expr.isWordChar_of_isNameChar (Token.isNameChar_of_isNameStart hstart)
  have hlength := (List.getElem?_eq_some_iff.1 hc).1
  obtain ⟨l, hl, hle, hlt, -, hwords⟩ := h.exists_word (Nat.zero_le _) hlength hc hword
  obtain ⟨previous, hmunched⟩ := h.munched.exists_of_mem hl
  have hstop_le := hmunched.stop_le
  have hwords (j : Nat) (hj : l.position ≤ j) (hj' : j < l.stop) :
      ∃ d, source[j]? = some d ∧ Expr.isWordChar d = true := by
    have hd := List.getElem?_eq_getElem (l := source) (i := j) (by omega)
    exact ⟨_, hd, hwords _ (mem_chars_of_stands hmunched.stands hj hj' hd)⟩
  -- The lexeme neither starts earlier nor ends later, since its characters all belong to one word.
  obtain rfl : l.position = position := by
    by_contra hne
    obtain ⟨d, hd, hdword⟩ := hwords (position - 1) (by omega) (by omega)
    exact Bool.false_ne_true ((hoccurs.before _ (by omega) d hd).symm.trans hdword)
  have hspelled : Token.Spelled previous v.toList (.ident v) := Token.spelled_of_isIdentifier hv
  have hle' := hmunched.longest v.toList hoccurs.stands previous _ hspelled
  have hge : l.chars.length ≤ v.toList.length := by
    by_contra hlonger
    obtain ⟨d, hd, hdword⟩ := hwords (l.position + v.length) (by omega) (by
      rw [Lexeme.stop, ← String.length_toList]
      omega)
    exact Bool.false_ne_true ((hoccurs.behind d hd).symm.trans hdword)
  have heq : v.toList = l.chars :=
    (List.prefix_of_prefix_length_le hoccurs.stands hmunched.stands hle').eq_of_length (by omega)
  have htoken : l.token = .ident v := hmunched.spelled.unique (heq ▸ hspelled)
  exact ⟨l, hl, by rw [← htoken]⟩

end Cuts

end Occurrences

namespace Expr

theorem nodup_eraseDups : (names : List String) → names.eraseDups.Nodup
  | [] => .nil
  | v :: names => by
      rw [List.eraseDups_cons, List.nodup_cons]
      refine ⟨?_, nodup_eraseDups _⟩
      simp
termination_by names => names.length
decreasing_by exact Nat.lt_succ_of_le (List.length_filter_le _ _)

theorem nodup_sortNames (names : List String) : (sortNames names).Nodup :=
  (List.mergeSort_perm _ _).nodup_iff.2 (nodup_eraseDups names)

variable {L : Type} [Literal L] {source v : String} {e : Expr L} {p : Nat}

theorem fault_of_parse (h : parse source = .ok e) : (Scan.ofString source).fault = none := by
  rw [parse, Scan.toExcept] at h
  cases hfault : (Scan.ofString source).fault with
  | some fault =>
      rw [hfault] at h
      cases h
  | none => rfl

theorem exists_cuts_of_parse (h : parse source = .ok e) :
    ∃ ls, Cuts source.toList none 0 source.toList.length ls ∧
      (Scan.ofString source).tokens = ls.map Lexeme.toLocated ++ [⟨.eof, source.length⟩] ∧
      Grammar.Derives .expr (ls.map Lexeme.toLocated) e := by
  obtain ⟨ls, hcuts, htokens⟩ := Scan.exists_cuts_of_fault_eq_none (fault_of_parse h)
  refine ⟨ls, String.length_toList.symm ▸ hcuts, htokens, ?_⟩
  have hend : beforeEnd (Scan.ofString source).tokens = ls.map Lexeme.toLocated := by
    rw [htokens, beforeEnd, List.takeWhile_append_of_pos, List.takeWhile_cons_of_neg, List.append_nil]
    · simp
    · intro t ht
      obtain ⟨l, hl, rfl⟩ := List.mem_map.1 ht
      obtain ⟨previous, hmunched⟩ := hcuts.munched.exists_of_mem hl
      exact bne_iff_ne.2 hmunched.spelled.ne_eof
  exact hend ▸ derives_of_parse h

/-- The identifiers of a text that was read are its words that can be identifiers. -/
theorem ident_mem_tokens_iff (h : parse source = .ok e) :
    ⟨.ident v, p⟩ ∈ (Scan.ofString source).tokens ↔
      Token.isIdentifier v = true ∧ OccursAt source.toList v p := by
  obtain ⟨ls, hcuts, htokens, hderives⟩ := exists_cuts_of_parse h
  refine ⟨fun hmem => ⟨Scan.isIdentifier_of_mem hmem rfl, ?_⟩, fun ⟨hv, hoccurs⟩ => ?_⟩
  · rw [htokens] at hmem
    rcases List.mem_append.1 hmem with hmem | hmem
    · obtain ⟨l, hl, heq⟩ := List.mem_map.1 hmem
      have hoccurs : OccursAt source.toList v l.position :=
        hcuts.occursAt hderives.wordsApart hl (congrArg Located.token heq)
      rwa [heq] at hoccurs
    · cases List.mem_singleton.1 hmem
  · obtain ⟨l, hl, heq⟩ := hcuts.exists_of_occursAt hv hoccurs
    rw [htokens, ← heq]
    exact List.mem_append_left _ (List.mem_map_of_mem hl)

theorem mem_vars_iff_mem_tokens (h : parse source = .ok e) :
    v ∈ e.vars ↔ ∃ p, ⟨.ident v, p⟩ ∈ (Scan.ofString source).tokens := by
  obtain ⟨ls, hcuts, htokens, hderives⟩ := exists_cuts_of_parse h
  rw [vars, mem_sortNames, hderives.names_eq, htokens, List.mem_filterMap]
  constructor
  · rintro ⟨t, ht, hname⟩
    have htoken : t.token = .ident v := by
      cases htoken : t.token <;> rw [htoken] at hname <;> cases hname
      rfl
    exact ⟨t.position, List.mem_append_left _ (htoken ▸ ht)⟩
  · rintro ⟨p, hmem⟩
    rcases List.mem_append.1 hmem with hmem | hmem
    · exact ⟨_, hmem, rfl⟩
    · cases List.mem_singleton.1 hmem

theorem tokens_pairwise_of_parse (h : parse source = .ok e) :
    (Scan.ofString source).tokens.Pairwise fun t u => t.position ≤ u.position := by
  obtain ⟨ls, hcuts, htokens, -⟩ := exists_cuts_of_parse h
  have hstart (l : Lexeme) : l.position ≤ l.stop := Nat.le_add_right _ _
  rw [htokens, List.pairwise_append, List.pairwise_map]
  refine ⟨hcuts.apart.imp fun hapart => (hstart _).trans hapart, List.pairwise_singleton _ _, fun t ht u hu => ?_⟩
  obtain ⟨l, hl, rfl⟩ := List.mem_map.1 ht
  rw [List.mem_singleton.1 hu]
  exact (hstart l).trans ((hcuts.within l hl).2.trans_eq String.length_toList)

/-- The search for a variable finds the first place where it is a word of its own. -/
theorem findIdentifier_isLeast (h : parse source = .ok e) (hv : v ∈ e.vars) :
    ∃ p, findIdentifier source v = some p ∧ IsLeast {q | OccursAt source.toList v q} p := by
  obtain ⟨p, hp⟩ := (mem_vars_iff_mem_tokens h).1 hv
  obtain ⟨hident, -⟩ := (ident_mem_tokens_iff h).1 hp
  cases hfind : (Scan.ofString source).tokens.find? (·.token == .ident v) with
  | none => exact absurd (List.find?_eq_none.1 hfind _ hp) (by simp)
  | some t =>
      obtain ⟨htoken, earlier, later, htokens, hearlier⟩ := List.find?_eq_some_iff_append.1 hfind
      have ht : t = ⟨.ident v, t.position⟩ := by rw [← beq_iff_eq.1 htoken]
      have hsorted := tokens_pairwise_of_parse h
      refine ⟨t.position, by rw [findIdentifier, hfind]; rfl, ?_, fun q hq => ?_⟩
      · exact ((ident_mem_tokens_iff h).1 (ht ▸ htokens ▸ List.mem_append_right _ List.mem_cons_self)).2
      · have hmem := (ident_mem_tokens_iff h).2 ⟨hident, hq⟩
        rw [htokens] at hmem hsorted
        rcases List.mem_append.1 hmem with hmem | hmem
        · exact absurd (hearlier _ hmem) (by simp)
        · rcases List.mem_cons.1 hmem with heq | hmem
          · exact (congrArg Located.position heq).ge
          · exact (List.pairwise_cons.1 (List.pairwise_append.1 hsorted).2.1).1 _ hmem

end Expr

namespace Config

variable {L : Type} [Literal L] {role : Role} {allowed : List String} {source : String}

theorem errors_readFormula {e : Expr L} (h : Expr.parse source = .ok e) :
    (readFormula role allowed source : Checked (Expr L)).errors =
      (e.vars.filter (!allowed.contains ·)).map fun v => .unknownIdentifier role v (findIdentifier source v) := by
  rw [readFormula, h]
  dsimp only
  split
  · next hempty =>
    rw [List.isEmpty_iff.1 hempty]
    rfl
  · rfl

theorem ident_mem_tokens_of_unknownFunction {name : String} {p : Nat}
    (h : Expr.parse (L := L) source = .error (.unknownFunction name p)) :
    ⟨.ident name, p⟩ ∈ (Scan.ofString source).tokens := by
  cases hfault : (Scan.ofString source).fault with
  | some fault =>
      rw [Expr.parse, Scan.toExcept, hfault] at h
      obtain rfl := Except.error.inj h
      obtain ⟨position, hfaults, -⟩ := Scan.exists_faults hfault
      cases hfaults
  | none =>
      obtain hblames | ⟨hempty, -⟩ := Expr.blames_of_parse_eq_error hfault h
      · exact hblames
      · cases hempty

/-- Unknown names are located. The variables of a formula that was read are the identifiers of its text, and
each is found where it first is a word of its own. The errors of such a formula are one for every variable that is
not allowed, at that place. Whether a formula was read or not, an error about an unknown name is at an identifier
of this name. -/
theorem readFormula_unknown_located (role : Role) (allowed : List String) (source : String) :
    (∀ e : Expr L, Expr.parse source = .ok e →
      (∀ v, v ∈ e.vars ↔ ∃ p, ⟨.ident v, p⟩ ∈ (Scan.ofString source).tokens) ∧
      (∀ v p, ⟨.ident v, p⟩ ∈ (Scan.ofString source).tokens ↔
        Token.isIdentifier v = true ∧ OccursAt source.toList v p) ∧
      (∀ v ∈ e.vars, ∃ p, findIdentifier source v = some p ∧ IsLeast {q | OccursAt source.toList v q} p) ∧
      ∃ names : List String, names.Nodup ∧ (∀ v, v ∈ names ↔ v ∈ e.vars ∧ v ∉ allowed) ∧
        (readFormula role allowed source : Checked (Expr L)).errors =
          names.map fun v => .unknownIdentifier role v (findIdentifier source v)) ∧
    ∀ error ∈ (readFormula role allowed source : Checked (Expr L)).errors, error.kind = .unknownIdentifier →
      ∃ name p, ⟨.ident name, p⟩ ∈ (Scan.ofString source).tokens ∧
        (error = .unknownIdentifier role name (some p) ∨ error = .malformedFormula role (.unknownFunction name p)) := by
  refine ⟨fun e h => ⟨fun v => Expr.mem_vars_iff_mem_tokens h, fun v p => Expr.ident_mem_tokens_iff h,
    fun v hv => Expr.findIdentifier_isLeast h hv, _, ?_, ?_, errors_readFormula h⟩, fun error herror hkind => ?_⟩
  · exact (Expr.nodup_sortNames _).filter _
  · intro v
    simp [List.mem_filter]
  · cases h : (Expr.parse source : Except SyntaxError (Expr L)) with
    | ok e =>
        rw [errors_readFormula h] at herror
        obtain ⟨v, hv, rfl⟩ := List.mem_map.1 herror
        obtain ⟨p, hp, hleast⟩ := Expr.findIdentifier_isLeast h (List.mem_filter.1 hv).1
        obtain ⟨q, hq⟩ := (Expr.mem_vars_iff_mem_tokens h).1 (List.mem_filter.1 hv).1
        obtain ⟨hident, -⟩ := (Expr.ident_mem_tokens_iff h).1 hq
        exact ⟨v, p, (Expr.ident_mem_tokens_iff h).2 ⟨hident, hleast.1⟩, .inl (by rw [hp])⟩
    | error cause =>
        rw [readFormula, h] at herror
        obtain rfl := List.mem_singleton.1 herror
        cases cause with
        | unknownFunction name p => exact ⟨name, p, ident_mem_tokens_of_unknownFunction h, .inr rfl⟩
        | _ => cases hkind

theorem parse_wide_blank : Expr.parse "\u3000ab + a * (b - a)" =
    .ok (.op .add (.var "ab") (.op .mul (.var "a") (.op .sub (.var "b") (.var "a"))) : Expr L) := by cbv

theorem findIdentifier_wide_blank : findIdentifier "\u3000ab + a * (b - a)" "a" = some 6 := by cbv

theorem readFormula_unknown_located_wide_blank :
    Expr.parse "\u3000ab + a * (b - a)" =
      .ok (.op .add (.var "ab") (.op .mul (.var "a") (.op .sub (.var "b") (.var "a"))) : Expr Float) ∧
    IsLeast {q | OccursAt "\u3000ab + a * (b - a)".toList "a" q} 6 := by
  obtain ⟨-, -, hleast, -⟩ :=
    (readFormula_unknown_located .color ["b"] "\u3000ab + a * (b - a)").1 _ (parse_wide_blank (L := Float))
  have hmem : "a" ∈ Expr.vars (.op .add (.var "ab") (.op .mul (.var "a") (.op .sub (.var "b") (.var "a"))) : Expr Float) :=
    Expr.mem_sortNames.2 (by decide)
  obtain ⟨p, hp, hp'⟩ := hleast "a" hmem
  obtain rfl := Option.some.inj (findIdentifier_wide_blank.symm.trans hp)
  exact ⟨parse_wide_blank, hp'⟩

end Config

end FlowShader
