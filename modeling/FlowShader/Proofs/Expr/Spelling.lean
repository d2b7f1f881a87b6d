import FlowShader.Proofs.Expr.Parser
import FlowShader.Proofs.Expr.Text

namespace FlowShader

section Characters

variable {c : Char}

theorem Text.isBlank_eq_false (h : 33 ≤ c.toNat) (h' : c.toNat ≤ 126) : Text.isBlank c = false := by
  simp only [Text.isBlank, Text.blankRanges, List.any_cons, List.any_nil, Bool.or_false, Bool.or_eq_false_iff,
    Bool.and_eq_false_iff, decide_eq_false_iff_not]
  omega

theorem Token.toNat_of_isDigit (h : c.isDigit = true) : 48 ≤ c.toNat ∧ c.toNat ≤ 57 := by
  simpa [Char.isDigit, UInt32.le_iff_toNat_le] using h

theorem Token.toNat_of_isNameStart (h : isNameStart c = true) : 65 ≤ c.toNat ∧ c.toNat ≤ 122 := by
  simp only [isNameStart, Char.isAlpha, Char.isUpper, Char.isLower, Bool.or_eq_true, Bool.and_eq_true,
    decide_eq_true_eq, ge_iff_le, UInt32.le_iff_toNat_le, beq_iff_eq] at h
  change ((65 ≤ c.toNat ∧ c.toNat ≤ 90) ∨ (97 ≤ c.toNat ∧ c.toNat ≤ 122)) ∨ c = '_' at h
  rcases h with (h | h) | rfl
  · omega
  · omega
  · decide

theorem Token.isDigit_eq_false_of_isNameStart (h : isNameStart c = true) : c.isDigit = false := by
  by_contra hdigit
  rw [Expr.not_isNameStart_of_digit (.inl (by simpa using hdigit))] at h
  exact Bool.false_ne_true h

end Characters

namespace Token

variable {previous : Option Token} {position : Nat} {c : Char} {rest : List Char}

theorem takeWhile_eq_nil {p : Char → Bool} (h : ∀ d ∈ rest.head?, p d = false) : rest.takeWhile p = [] := by
  cases rest with
  | nil => rfl
  | cons d rest => exact List.takeWhile_cons_of_neg (by simp [h d rfl])

theorem beq_eq_false_of {p : Char → Bool} (hc : p c = true) {d : Char} (hd : p d = false) : (c == d) = false := by
  rw [beq_eq_false_iff_ne]
  rintro rfl
  exact Bool.false_ne_true (hd.symm.trans hc)

/-- A word ends where no character of a name follows. -/
theorem read_word (hc : isNameStart c = true) {more : List Char} (hmore : ∀ d ∈ more, isNameChar d = true)
    (hrest : ∀ d ∈ rest.head?, isNameChar d = false) :
    read previous position c (more ++ rest) = .ok (ofWord (String.ofList (c :: more)), more.length) := by
  have hne {d : Char} (hd : isNameStart d = false) : (c == d) = false := beq_eq_false_of hc hd
  have hdigit := isDigit_eq_false_of_isNameStart hc
  have htake : (more ++ rest).takeWhile isNameChar = more := by
    rw [List.takeWhile_append_of_pos hmore, takeWhile_eq_nil hrest, List.append_nil]
  simp only [read, hne (d := '(') (by decide), hne (d := ')') (by decide), hne (d := ',') (by decide),
    hne (d := '-') (by decide), hne (d := '.') (by decide), hdigit, hc, htake, Bool.or_self, Bool.false_eq_true,
    if_false, if_true]

section Number

variable (hc : c.isDigit = true)
include hc

theorem read_digit {d : Decimal} {width : Nat} (h : readNumber c rest = some (d, width)) :
    read previous position c rest = .ok (number d, width) := by
  have hne {d : Char} (hd : d.isDigit = false) : (c == d) = false := beq_eq_false_of hc hd
  simp only [read, hne (d := '(') (by decide), hne (d := ')') (by decide), hne (d := ',') (by decide),
    hne (d := '-') (by decide), hne (d := '.') (by decide), hc, h, Bool.or_true, Bool.false_eq_true, if_false, if_true]

variable {whole : List Char} (hwhole : ∀ d ∈ whole, d.isDigit = true)
include hwhole

theorem readNumber_whole (hrest : ∀ d ∈ rest.head?, d.isDigit = false ∧ d ≠ '.') :
    readNumber c (whole ++ rest) = some (.ofPoint (c :: whole) [], whole.length) := by
  have hstop : rest.takeWhile Char.isDigit = [] := takeWhile_eq_nil fun d hd => (hrest d hd).1
  rw [readNumber, beq_eq_false_of hc (by decide), if_neg Bool.false_ne_true,
    List.takeWhile_append_of_pos hwhole, List.dropWhile_append_of_pos hwhole, hstop, List.append_nil]
  have hdrop : rest.dropWhile Char.isDigit = rest := by
    have h := List.takeWhile_append_dropWhile (p := Char.isDigit) (l := rest)
    rwa [hstop, List.nil_append] at h
  rw [hdrop]
  split
  · exact absurd rfl (hrest '.' rfl).2
  · rfl

theorem readNumber_point {fraction : List Char} (hfraction : ∀ d ∈ fraction, d.isDigit = true)
    (hrest : ∀ d ∈ rest.head?, d.isDigit = false) :
    readNumber c (whole ++ '.' :: (fraction ++ rest)) =
      some (.ofPoint (c :: whole) fraction, whole.length + 1 + fraction.length) := by
  rw [readNumber, beq_eq_false_of hc (by decide), if_neg Bool.false_ne_true,
    List.takeWhile_append_of_pos hwhole, List.dropWhile_append_of_pos hwhole,
    List.takeWhile_cons_of_neg (by decide), List.dropWhile_cons_of_neg (by decide), List.append_nil]
  have htake : (fraction ++ rest).takeWhile Char.isDigit = fraction := by
    rw [List.takeWhile_append_of_pos hfraction, takeWhile_eq_nil hrest, List.append_nil]
  change some (Decimal.ofPoint (c :: whole) ((fraction ++ rest).takeWhile Char.isDigit), _) = _
  rw [htake]

end Number

end Token

namespace Scan

variable {previous : Option Token} {position : Nat} {rest : List Char}

/-- A scan with tokens put in front of it. -/
def after (ts : List Located) (s : Scan) : Scan := ⟨ts ++ s.tokens, s.fault⟩

theorem after_after (ts us : List Located) (s : Scan) : (s.after us).after ts = s.after (ts ++ us) := by
  simp only [after, List.append_assoc]

theorem ofChars_token {c : Char} {t : Token} {width : Nat} (hblank : Text.isBlank c = false)
    (hread : Token.read previous position c rest = .ok (t, width)) :
    ofChars previous position (c :: rest) =
      (ofChars (some t) (position + 1 + width) (rest.drop width)).after [⟨t, position⟩] := by
  rw [ofChars, hblank, if_neg Bool.false_ne_true, hread]
  rfl

theorem ofChars_space : ofChars previous position (' ' :: rest) = ofChars previous (position + 1) rest := by
  rw [ofChars, if_pos (by decide)]

theorem ofChars_lparen : ofChars previous position ('(' :: rest) =
    (ofChars (some .lparen) (position + 1) rest).after [⟨.lparen, position⟩] :=
  ofChars_token (c := '(') (by decide) rfl

theorem ofChars_rparen : ofChars previous position (')' :: rest) =
    (ofChars (some .rparen) (position + 1) rest).after [⟨.rparen, position⟩] :=
  ofChars_token (c := ')') (by decide) rfl

theorem ofChars_comma : ofChars previous position (',' :: rest) =
    (ofChars (some .comma) (position + 1) rest).after [⟨.comma, position⟩] :=
  ofChars_token (c := ',') (by decide) rfl

theorem exists_ofChars_symbol (previous : Option Token) (position : Nat) (rest : List Char) (o : Operator) :
    ∃ t : Token, t.sign? = some o ∧ ofChars previous position (o.symbol :: rest) =
      (ofChars (some t) (position + 1) rest).after [⟨t, position⟩] := by
  have hblank : Text.isBlank o.symbol = false := by cases o <;> decide
  cases o with
  | sub =>
      refine ⟨Token.minus previous, ?_, ofChars_token hblank rfl⟩
      rw [Token.minus]
      split <;> rfl
  | add => exact ⟨.operator .add, rfl, ofChars_token hblank rfl⟩
  | mul => exact ⟨.operator .mul, rfl, ofChars_token hblank rfl⟩
  | div => exact ⟨.operator .div, rfl, ofChars_token hblank rfl⟩
  | pow => exact ⟨.operator .pow, rfl, ofChars_token hblank rfl⟩
  | mod => exact ⟨.operator .mod, rfl, ofChars_token hblank rfl⟩

theorem ofChars_word {w : String} {c : Char} {more : List Char} (hw : w.toList = c :: more)
    (hc : Token.isNameStart c = true) (hmore : ∀ d ∈ more, Token.isNameChar d = true)
    (hrest : ∀ d ∈ rest.head?, Token.isNameChar d = false) :
    ofChars previous position (w.toList ++ rest) =
      (ofChars (some (Token.ofWord w)) (position + 1 + more.length) rest).after [⟨Token.ofWord w, position⟩] := by
  have hbounds := Token.toNat_of_isNameStart hc
  have hread : Token.read previous position c (more ++ rest) = _ := Token.read_word hc hmore hrest
  rw [← hw, String.ofList_toList] at hread
  rw [hw, List.cons_append, ofChars_token (Text.isBlank_eq_false (by omega) (by omega)) hread, List.drop_left]

theorem ofChars_number {c : Char} {more : List Char} {d : Decimal} (hc : c.isDigit = true)
    (hread : Token.readNumber c (more ++ rest) = some (d, more.length)) :
    ofChars previous position (c :: (more ++ rest)) =
      (ofChars (some (.number d)) (position + 1 + more.length) rest).after [⟨.number d, position⟩] := by
  have hbounds := Token.toNat_of_isDigit hc
  rw [ofChars_token (Text.isBlank_eq_false (by omega) (by omega)) (Token.read_digit hc hread), List.drop_left]

end Scan

namespace Grammar

variable {L : Type} [Literal L]

mutual

theorem Derives.ne_eof {c : Category} {ts : List Located} {e : Expr L} :
    Derives c ts e → ∀ t ∈ ts, t.token ≠ .eof
  | .term h | .neg h | .power h | .primary h => h.ne_eof
  | .binary hlhs ht hrhs => fun u hu => by
      rcases List.mem_append.1 hu with hu | hu
      · exact hlhs.ne_eof u hu
      · rcases List.mem_cons.1 hu with rfl | hu
        · rintro heof
          simp [heof, Token.sign?] at ht
        · exact hrhs.ne_eof u hu
  | .negation ht h => fun u hu => by
      rcases List.mem_cons.1 hu with rfl | hu
      · rintro heof
        simp [heof, Token.sign?] at ht
      · exact h.ne_eof u hu
  | .number ht | .constant ht | .ident ht => by simp [ht]
  | .call ht _ hp hargs hq _ => by
      have hargs := hargs.ne_eof
      simp only [List.cons_append, List.mem_cons, List.mem_append, List.not_mem_nil, or_false]
      rintro u (rfl | rfl | hu | rfl)
      · simp [ht]
      · simp [hp]
      · exact hargs u hu
      · simp [hq]
  | .group hp h hq => by
      have h := h.ne_eof
      simp only [List.cons_append, List.mem_cons, List.mem_append, List.not_mem_nil, or_false]
      rintro u (rfl | hu | rfl)
      · simp [hp]
      · exact h u hu
      · simp [hq]

theorem Arguments.ne_eof {ts : List Located} {args : List (Expr L)} :
    Arguments ts args → ∀ t ∈ ts, t.token ≠ .eof
  | .one h => h.ne_eof
  | .more hargs ht h => fun u hu => by
      rcases List.mem_append.1 hu with hu | hu
      · exact hargs.ne_eof u hu
      · rcases List.mem_cons.1 hu with rfl | hu
        · simp [ht]
        · exact h.ne_eof u hu

end

end Grammar

namespace Expr

variable {L : Type} [Literal L] {cs ds : List Char} {a b e : Expr L}

open Grammar

/-- The characters are cut into tokens from which the formula is derived, wherever they stand, unless
what follows extends the last token. -/
def Spells (cs : List Char) (e : Expr L) : Prop :=
  ∀ previous position rest, Ends rest → ∃ ts previous' position', Derives .primary ts e ∧
    Scan.ofChars previous position (cs ++ rest) = (Scan.ofChars previous' position' rest).after ts

/-- A text that spells a formula is read as this formula. -/
theorem Spells.parse {s : String} (h : Spells s.toList e) : Expr.parse s = .ok e := by
  obtain ⟨ts, previous, position, hderives, hscan⟩ := h none 0 [] Ends.nil
  rw [List.append_nil, Scan.ofChars] at hscan
  have htokens : beforeEnd (Scan.ofString s).tokens = ts := by
    rw [Scan.ofString, hscan]
    exact (List.takeWhile_append_of_pos fun t ht => bne_iff_ne.2 (hderives.ne_eof t ht)).trans (List.append_nil ts)
  have hfault : (Scan.ofString s).fault = none := by
    rw [Scan.ofString, hscan]
    rfl
  have hrun := Parser.run_of_derives (Parser.ahead_ofString hfault) (htokens ▸ hderives.toExpr)
  rw [Expr.parse, Scan.toExcept, hfault]
  simp only [hrun]
  rfl

theorem Ends.not_isNameChar {rest : List Char} (h : Ends rest) : ∀ d ∈ rest.head?, Token.isNameChar d = false :=
  fun d hd => (Bool.or_eq_false_iff.1 (h d hd).1).1

theorem Ends.not_isDigit {rest : List Char} (h : Ends rest) : ∀ d ∈ rest.head?, d.isDigit = false ∧ d ≠ '.' := by
  intro d hd
  obtain ⟨hname, hpoint⟩ := Bool.or_eq_false_iff.1 (h d hd).1
  refine ⟨?_, by simpa using hpoint⟩
  simp only [Token.isNameChar, Char.isAlphanum, Bool.or_eq_false_iff] at hname
  exact hname.1.2

theorem spells_whole (whole : List Char) (hne : whole ≠ []) (hwhole : ∀ d ∈ whole, d.isDigit = true) :
    Spells whole (literal (Literal.ofDecimal (.ofPoint whole [])) : Expr L) := by
  obtain ⟨c, whole, rfl⟩ := List.exists_cons_of_ne_nil hne
  obtain ⟨hc, hwhole⟩ := List.forall_mem_cons.1 hwhole
  intro previous position rest hrest
  exact ⟨_, _, _, .number rfl, Scan.ofChars_number hc (Token.readNumber_whole hc hwhole hrest.not_isDigit)⟩

theorem spells_point (whole fraction : List Char) (hne : whole ≠ []) (hwhole : ∀ d ∈ whole, d.isDigit = true)
    (hfraction : ∀ d ∈ fraction, d.isDigit = true) :
    Spells (whole ++ '.' :: fraction) (literal (Literal.ofDecimal (.ofPoint whole fraction)) : Expr L) := by
  obtain ⟨c, whole, rfl⟩ := List.exists_cons_of_ne_nil hne
  obtain ⟨hc, hwhole⟩ := List.forall_mem_cons.1 hwhole
  intro previous position rest hrest
  have hread := Token.readNumber_point hc hwhole hfraction fun d hd => (hrest.not_isDigit d hd).1
  have hmore : whole ++ '.' :: (fraction ++ rest) = whole ++ '.' :: fraction ++ rest := by simp
  have hlength : whole.length + 1 + fraction.length = (whole ++ '.' :: fraction).length := by simp; omega
  rw [hmore, hlength] at hread
  exact ⟨_, _, _, .number rfl, Scan.ofChars_number hc hread⟩

theorem spells_word {w : String} {c : Char} {more : List Char} (hw : w.toList = c :: more)
    (hc : Token.isNameStart c = true) (hmore : ∀ d ∈ more, Token.isNameChar d = true)
    (h : ∀ position, Derives .primary [⟨Token.ofWord w, position⟩] e) : Spells w.toList e :=
  fun _ position _ hrest =>
    ⟨_, _, _, h position, Scan.ofChars_word hw hc hmore hrest.not_isNameChar⟩

theorem spells_constant (c : Constant) : Spells c.name.toList (constant c : Expr L) := by
  obtain ⟨d, more, hname, hd⟩ := c.name_head
  have hchars := c.name_chars
  rw [hname] at hchars
  refine spells_word hname hd (List.forall_mem_cons.1 hchars).2 fun _ => ?_
  rw [Token.ofWord_constant]
  exact .constant rfl

theorem spells_var {v : String} (hv : Token.isIdentifier v = true) : Spells v.toList (var v : Expr L) := by
  obtain ⟨c, more, hname, hc, hmore⟩ := Token.chars_of_isIdentifier hv
  refine spells_word hname hc hmore fun _ => ?_
  rw [Token.ofWord_of_isIdentifier hv]
  exact .ident rfl

/-- Operands and their operator in parentheses. -/
theorem Spells.op (ha : Spells cs a) (o : Operator) (hb : Spells ds b) :
    Spells ('(' :: (cs ++ ' ' :: o.symbol :: ' ' :: (ds ++ [')']))) (.op o a b) := by
  intro previous position rest hrest
  obtain ⟨ts, p, n, hts, hlhs⟩ := ha (some .lparen) (position + 1) (' ' :: o.symbol :: ' ' :: (ds ++ ')' :: rest))
    (ends_space _)
  obtain ⟨t, hsign, hsymbol⟩ := Scan.exists_ofChars_symbol p (n + 1) (' ' :: (ds ++ ')' :: rest)) o
  obtain ⟨us, q, k, hus, hrhs⟩ := hb (some t) (n + 1 + 1 + 1) (')' :: rest) (ends_close _)
  have hbinary := Derives.binary (o := o) (t := ⟨t, n + 1⟩) (hts.toLhs (by cases o <;> decide)) hsign
    (hus.toRhs (by cases o <;> decide))
  refine ⟨_, some .rparen, k + 1, .group (p := ⟨.lparen, position⟩) (q := ⟨.rparen, k⟩) rfl hbinary.toExpr rfl, ?_⟩
  have hchars : '(' :: (cs ++ ' ' :: o.symbol :: ' ' :: (ds ++ [')'])) ++ rest =
      '(' :: (cs ++ (' ' :: o.symbol :: ' ' :: (ds ++ ')' :: rest))) := by simp
  rw [hchars, Scan.ofChars_lparen, hlhs, Scan.ofChars_space, hsymbol, Scan.ofChars_space, hrhs, Scan.ofChars_rparen]
  simp only [Scan.after_after, List.cons_append, List.nil_append, List.append_assoc]

/-- The word calls a function. -/
structure Calls (name : String) (callable : Callable) : Prop where
  word : ∃ c more, name.toList = c :: more ∧ Token.isNameStart c = true ∧ ∀ d ∈ more, Token.isNameChar d = true
  token : Token.ofWord name = .function name callable

theorem Calls.ofChars {name : String} {callable : Callable} (h : Calls name callable) (previous : Option Token)
    (position : Nat) (rest : List Char) :
    ∃ n, Scan.ofChars previous position (name.toList ++ '(' :: rest) =
      (Scan.ofChars (some .lparen) (n + 1) rest).after [⟨.function name callable, position⟩, ⟨.lparen, n⟩] := by
  obtain ⟨c, more, hname, hc, hmore⟩ := h.word
  have hstop : ∀ d ∈ ('(' :: rest).head?, Token.isNameChar d = false := by
    rintro d ⟨⟩
    decide
  refine ⟨position + 1 + more.length, ?_⟩
  rw [Scan.ofChars_word hname hc hmore hstop, h.token, Scan.ofChars_lparen, Scan.after_after]
  rfl

theorem Calls.ofName? {name : String} {callable : Callable} (h : Calls name callable) :
    Callable.ofName? name = some callable :=
  (Token.fits_ofWord name : (Token.ofWord name).Fits none).called name callable h.token

theorem Spells.call {name : String} {callable : Callable} (ha : Spells cs a) (h : Calls name callable)
    (hbuilds : Builds callable [a] e) : Spells (name.toList ++ '(' :: (cs ++ [')'])) e := by
  intro previous position rest hrest
  obtain ⟨n, hname⟩ := h.ofChars previous position (cs ++ ')' :: rest)
  obtain ⟨ts, p, k, hts, harg⟩ := ha (some .lparen) (n + 1) (')' :: rest) (ends_close _)
  refine ⟨_, some .rparen, k + 1, .call (t := ⟨.function name callable, position⟩) (p := ⟨.lparen, n⟩)
    (q := ⟨.rparen, k⟩) rfl h.ofName? rfl (.one hts.toExpr) rfl hbuilds, ?_⟩
  have hchars : name.toList ++ '(' :: (cs ++ [')']) ++ rest = name.toList ++ '(' :: (cs ++ ')' :: rest) := by simp
  rw [hchars, hname, harg, Scan.ofChars_rparen]
  simp only [Scan.after_after, List.cons_append, List.nil_append]

theorem Spells.call₂ {name : String} {callable : Callable} (ha : Spells cs a) (h : Calls name callable)
    (hb : Spells ds b) (hbuilds : Builds callable [a, b] e) :
    Spells (name.toList ++ '(' :: (cs ++ ',' :: ' ' :: (ds ++ [')']))) e := by
  intro previous position rest hrest
  obtain ⟨n, hname⟩ := h.ofChars previous position (cs ++ ',' :: ' ' :: (ds ++ ')' :: rest))
  obtain ⟨ts, p, k, hts, harg⟩ := ha (some .lparen) (n + 1) (',' :: ' ' :: (ds ++ ')' :: rest)) (ends_comma _)
  obtain ⟨us, q, l, hus, harg₂⟩ := hb (some .comma) (k + 1 + 1) (')' :: rest) (ends_close _)
  refine ⟨_, some .rparen, l + 1, .call (t := ⟨.function name callable, position⟩) (p := ⟨.lparen, n⟩)
    (q := ⟨.rparen, l⟩) rfl h.ofName? rfl (.more (t := ⟨.comma, k⟩) (.one hts.toExpr) rfl hus.toExpr) rfl hbuilds, ?_⟩
  have hchars : name.toList ++ '(' :: (cs ++ ',' :: ' ' :: (ds ++ [')'])) ++ rest =
      name.toList ++ '(' :: (cs ++ ',' :: ' ' :: (ds ++ ')' :: rest)) := by simp
  rw [hchars, hname, harg, Scan.ofChars_comma, Scan.ofChars_space, harg₂, Scan.ofChars_rparen]
  simp only [Scan.after_after, List.cons_append, List.nil_append, List.append_assoc]

end Expr

end FlowShader
