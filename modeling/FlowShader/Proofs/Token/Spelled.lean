import FlowShader.Proofs.Expr.Spelling

namespace FlowShader

namespace Token

variable {previous previous' : Option Token} {t : Token} {position width : Nat} {c : Char}
  {chars more rest digits : List Char}

def OperandDue (previous : Option Token) : Prop :=
  ∀ t ∈ previous, (∃ o, t = operator o) ∨ t = negation ∨ t = lparen ∨ t = comma

def IsName : List Char → Prop
  | [] => False
  | c :: more => isNameStart c = true ∧ ∀ d ∈ more, isNameChar d = true

/-- The characters spell the token. A minus sign is told by the token in front of it, and a name is a constant
if it can be, else a function, else an identifier. -/
inductive Spelled (previous : Option Token) : List Char → Token → Prop
  | lparen : Spelled previous ['('] lparen
  | rparen : Spelled previous [')'] rparen
  | comma : Spelled previous [','] comma
  | negation (h : OperandDue previous) : Spelled previous ['-'] negation
  | subtraction (h : ¬ OperandDue previous) : Spelled previous ['-'] (operator .sub)
  | operator {o : Operator} (h : o ≠ .sub) : Spelled previous [o.symbol] (operator o)
  | whole {digits : List Char} (hne : digits ≠ []) (h : ∀ d ∈ digits, d.isDigit = true) :
      Spelled previous digits (number (.ofPoint digits []))
  | point {whole fraction : List Char} (hne : whole ≠ [] ∨ fraction ≠ [])
      (hwhole : ∀ d ∈ whole, d.isDigit = true) (hfraction : ∀ d ∈ fraction, d.isDigit = true) :
      Spelled previous (whole ++ '.' :: fraction) (number (.ofPoint whole fraction))
  | constant {chars : List Char} {k : Constant} (hname : IsName chars)
      (h : Constant.ofName? (String.ofList chars) = some k) : Spelled previous chars (constant k)
  | function {chars : List Char} {f : Callable} (hname : IsName chars)
      (hconstant : Constant.ofName? (String.ofList chars) = none)
      (h : Callable.ofName? (String.ofList chars) = some f) :
      Spelled previous chars (function (String.ofList chars) f)
  | ident {chars : List Char} (hname : IsName chars) (hconstant : Constant.ofName? (String.ofList chars) = none)
      (hfunction : Callable.ofName? (String.ofList chars) = none) :
      Spelled previous chars (ident (String.ofList chars))

section Reading

theorem all_precedesOperand_iff : previous.all precedesOperand = true ↔ OperandDue previous := by
  cases previous with
  | none => simp [OperandDue]
  | some t => cases t <;> simp [OperandDue, precedesOperand]

theorem spelled_minus (previous : Option Token) : Spelled previous ['-'] (minus previous) := by
  rw [minus]
  split
  · next h => exact .negation (all_precedesOperand_iff.1 h)
  · next h => exact .subtraction (mt all_precedesOperand_iff.2 h)

theorem spelled_name (hname : IsName chars) : Spelled previous chars (ofWord (String.ofList chars)) := by
  rw [ofWord]
  cases hconstant : Constant.ofName? (String.ofList chars) with
  | some k => exact .constant hname hconstant
  | none =>
      cases hfunction : Callable.ofName? (String.ofList chars) with
      | some f => exact .function hname hconstant hfunction
      | none => exact .ident hname hconstant hfunction

/-- What starts with `chars` is read as a token that is no shorter, and as the same token if it is no longer. -/
def ReadsAtLeast (previous' : Option Token) (chars : List Char) (t : Token) : Prop :=
  ∀ previous position more, ∃ c rest t' width, chars ++ more = c :: rest ∧ Text.isBlank c = false ∧
    read previous position c rest = .ok (t', width) ∧ chars.length ≤ width + 1 ∧
    (previous = previous' → chars.length = width + 1 → t' = t)

theorem ReadsAtLeast.single (hblank : Text.isBlank c = false)
    (hread : ∀ previous position rest, ∃ t', read previous position c rest = .ok (t', 0) ∧
      (previous = previous' → t' = t)) : ReadsAtLeast previous' [c] t := by
  intro previous position more
  obtain ⟨t', hread, ht⟩ := hread previous position more
  exact ⟨c, more, t', 0, rfl, hblank, hread, Nat.le_refl _, fun hprevious _ => ht hprevious⟩

theorem readsAtLeast_minus : ReadsAtLeast previous' ['-'] (minus previous') :=
  .single (by decide) fun previous _ _ => ⟨minus previous, rfl, fun h => by rw [h]⟩

theorem readsAtLeast_operator {o : Operator} (h : o ≠ .sub) : ReadsAtLeast previous' [o.symbol] (operator o) := by
  cases o with
  | sub => exact absurd rfl h
  | add | mul | div | pow | mod => exact .single (by decide) fun _ _ _ => ⟨_, rfl, fun _ => rfl⟩

theorem readsAtLeast_name (hname : IsName chars) :
    ReadsAtLeast previous' chars (ofWord (String.ofList chars)) := by
  intro previous position more
  cases chars with
  | nil => exact absurd hname id
  | cons c chars =>
      obtain ⟨hc, hchars⟩ := hname
      have hbounds := toNat_of_isNameStart hc
      have hlong : ∀ d ∈ chars ++ more.takeWhile isNameChar, isNameChar d = true :=
        List.forall_mem_append.2 ⟨hchars, fun d hd => List.mem_takeWhile_imp hd⟩
      have hstop : ∀ d ∈ (more.dropWhile isNameChar).head?, isNameChar d = false := by
        intro d hd
        have hhead := List.head?_dropWhile_not isNameChar more
        rw [hd] at hhead
        simpa using hhead
      have hread : read previous position c (chars ++ more.takeWhile isNameChar ++ more.dropWhile isNameChar) =
          .ok (ofWord (String.ofList (c :: (chars ++ more.takeWhile isNameChar))), _) := read_word hc hlong hstop
      rw [List.append_assoc, List.takeWhile_append_dropWhile] at hread
      refine ⟨c, _, _, _, rfl, Text.isBlank_eq_false (by omega) (by omega), hread, by simp, fun _ hlength => ?_⟩
      have hnil : more.takeWhile isNameChar = [] := by simpa using hlength
      rw [hnil, List.append_nil]

theorem readNumber_whole_append (digits more : List Char) (hc : c.isDigit = true)
    (hdigits : ∀ d ∈ digits, d.isDigit = true) :
    ∃ d width, readNumber c (digits ++ more) = some (d, width) ∧ digits.length ≤ width ∧
      (digits.length = width → d = .ofPoint (c :: digits) []) := by
  rw [readNumber, beq_eq_false_of hc (by decide), if_neg Bool.false_ne_true,
    List.takeWhile_append_of_pos hdigits, List.dropWhile_append_of_pos hdigits]
  split
  · refine ⟨_, _, rfl, ?_, fun hlength => ?_⟩
    · simp only [List.length_append]
      omega
    · simp only [List.length_append] at hlength
      omega
  · refine ⟨_, _, rfl, by simp, fun hlength => ?_⟩
    have hnil : more.takeWhile Char.isDigit = [] := by simpa using hlength
    rw [hnil, List.append_nil]

theorem readNumber_point_append {fraction : List Char} (hc : c.isDigit = true)
    (hdigits : ∀ d ∈ digits, d.isDigit = true) (hfraction : ∀ d ∈ fraction, d.isDigit = true) (more : List Char) :
    readNumber c (digits ++ '.' :: (fraction ++ more)) =
      some (.ofPoint (c :: digits) (fraction ++ more.takeWhile Char.isDigit),
        digits.length + 1 + (fraction ++ more.takeWhile Char.isDigit).length) := by
  rw [readNumber, beq_eq_false_of hc (by decide), if_neg Bool.false_ne_true,
    List.takeWhile_append_of_pos hdigits, List.dropWhile_append_of_pos hdigits,
    List.takeWhile_cons_of_neg (by decide), List.dropWhile_cons_of_neg (by decide), List.append_nil]
  simp only [List.takeWhile_append_of_pos hfraction]

theorem readNumber_fraction_append {fraction : List Char} (hne : fraction ≠ [])
    (hfraction : ∀ d ∈ fraction, d.isDigit = true) (more : List Char) :
    readNumber '.' (fraction ++ more) =
      some (.ofPoint [] (fraction ++ more.takeWhile Char.isDigit),
        (fraction ++ more.takeWhile Char.isDigit).length) := by
  have hempty : (fraction ++ more.takeWhile Char.isDigit).isEmpty = false := by simp [hne]
  simp only [readNumber, List.takeWhile_append_of_pos hfraction, hempty, beq_self_eq_true, if_true,
    Bool.false_eq_true, if_false]

theorem read_point {d : Decimal} (h : readNumber '.' rest = some (d, width)) :
    read previous position '.' rest = .ok (number d, width) := by
  simp [read, h]

theorem readsAtLeast_whole (hne : digits ≠ []) (h : ∀ d ∈ digits, d.isDigit = true) :
    ReadsAtLeast previous' digits (number (.ofPoint digits [])) := by
  intro previous position more
  obtain ⟨c, digits, rfl⟩ := List.exists_cons_of_ne_nil hne
  obtain ⟨hc, hdigits⟩ := List.forall_mem_cons.1 h
  have hbounds := toNat_of_isDigit hc
  obtain ⟨d, width, hread, hle, heq⟩ := readNumber_whole_append digits more hc hdigits
  refine ⟨c, _, _, width, rfl, Text.isBlank_eq_false (by omega) (by omega), read_digit hc hread, ?_, fun _ hlength => ?_⟩
  · exact Nat.succ_le_succ hle
  · rw [heq (Nat.succ.inj hlength)]

theorem readsAtLeast_point {whole fraction : List Char} (hne : whole ≠ [] ∨ fraction ≠ [])
    (hwhole : ∀ d ∈ whole, d.isDigit = true) (hfraction : ∀ d ∈ fraction, d.isDigit = true) :
    ReadsAtLeast previous' (whole ++ '.' :: fraction) (number (.ofPoint whole fraction)) := by
  intro previous position more
  cases whole with
  | nil =>
      have hread := readNumber_fraction_append (hne.resolve_left (· rfl)) hfraction more
      refine ⟨'.', _, _, _, rfl, by decide, read_point hread, by simp, fun _ hlength => ?_⟩
      have hnil : more.takeWhile Char.isDigit = [] := by simpa using hlength
      rw [hnil, List.append_nil]
  | cons c whole =>
      obtain ⟨hc, hwhole⟩ := List.forall_mem_cons.1 hwhole
      have hbounds := toNat_of_isDigit hc
      have hread := readNumber_point_append hc hwhole hfraction more
      refine ⟨c, whole ++ '.' :: (fraction ++ more), _, _, by simp, Text.isBlank_eq_false (by omega) (by omega),
        read_digit hc hread, ?_, fun _ hlength => ?_⟩
      · simp only [List.length_append, List.length_cons]
        omega
      · have hnil : more.takeWhile Char.isDigit = [] := by
          simp only [List.length_append, List.length_cons] at hlength
          exact List.eq_nil_of_length_eq_zero (by omega)
        rw [hnil, List.append_nil]

theorem Spelled.readsAtLeast (h : Spelled previous' chars t) : ReadsAtLeast previous' chars t := by
  cases h with
  | lparen => exact .single (by decide) fun _ _ _ => ⟨_, rfl, fun _ => rfl⟩
  | rparen => exact .single (by decide) fun _ _ _ => ⟨_, rfl, fun _ => rfl⟩
  | comma => exact .single (by decide) fun _ _ _ => ⟨_, rfl, fun _ => rfl⟩
  | negation h =>
      have hminus : minus previous' = .negation := if_pos (all_precedesOperand_iff.2 h)
      exact hminus ▸ readsAtLeast_minus
  | subtraction h =>
      have hminus : minus previous' = .operator .sub := if_neg (mt all_precedesOperand_iff.1 h)
      exact hminus ▸ readsAtLeast_minus
  | operator h => exact readsAtLeast_operator h
  | whole hne h => exact readsAtLeast_whole hne h
  | point hne hwhole hfraction => exact readsAtLeast_point hne hwhole hfraction
  | @constant _ k hname h =>
      have hword : ofWord (String.ofList chars) = .constant k := by rw [ofWord, h]
      exact hword ▸ readsAtLeast_name hname
  | @function _ f hname hconstant h =>
      have hword : ofWord (String.ofList chars) = .function (String.ofList chars) f := by
        rw [ofWord, hconstant, h]
      exact hword ▸ readsAtLeast_name hname
  | ident hname hconstant hfunction =>
      have hword : ofWord (String.ofList chars) = .ident (String.ofList chars) := by
        rw [ofWord, hconstant, hfunction]
      exact hword ▸ readsAtLeast_name hname

theorem spelled_of_readNumber {d : Decimal} (hc : c = '.' ∨ c.isDigit = true)
    (h : readNumber c rest = some (d, width)) :
    ∃ chars more, rest = chars ++ more ∧ width = chars.length ∧ Spelled previous (c :: chars) (number d) := by
  have hdigits (cs : List Char) : ∀ d ∈ cs.takeWhile Char.isDigit, d.isDigit = true :=
    fun d hd => List.mem_takeWhile_imp hd
  have hsplit (cs : List Char) := (List.takeWhile_append_dropWhile (p := Char.isDigit) (l := cs)).symm
  rw [readNumber] at h
  split at h
  · next hpoint =>
    obtain rfl : c = '.' := by simpa using hpoint
    dsimp only at h
    split at h
    · cases h
    · next hne =>
      cases h
      have hspelled : Spelled previous ([] ++ '.' :: rest.takeWhile Char.isDigit) _ :=
        .point (.inr (by simpa using hne)) (List.forall_mem_nil _) (hdigits rest)
      exact ⟨_, _, hsplit rest, rfl, hspelled⟩
  · next hpoint =>
    have hc : c.isDigit = true := hc.resolve_left fun hc => hpoint (beq_iff_eq.2 hc)
    have hwhole : ∀ d ∈ c :: rest.takeWhile Char.isDigit, d.isDigit = true :=
      List.forall_mem_cons.2 ⟨hc, hdigits rest⟩
    dsimp only at h
    split at h
    · next more hmore =>
      cases h
      refine ⟨rest.takeWhile Char.isDigit ++ '.' :: more.takeWhile Char.isDigit, more.dropWhile Char.isDigit, ?_, ?_,
        .point (.inl (List.cons_ne_nil _ _)) hwhole (hdigits more)⟩
      · conv_lhs => rw [hsplit rest, hmore, hsplit more]
        rw [List.append_assoc, List.cons_append]
      · simp only [List.length_append, List.length_cons]
        omega
    · cases h
      exact ⟨_, _, hsplit rest, rfl, .whole (List.cons_ne_nil _ _) hwhole⟩

theorem symbol_of_ofChar? {o : Operator} (h : Operator.ofChar? c = some o) : c = o.symbol := by
  unfold Operator.ofChar? at h
  split at h <;> cases h <;> rfl

theorem spelled_of_read (h : read previous position c rest = .ok (t, width)) :
    ∃ chars more, rest = chars ++ more ∧ width = chars.length ∧ Spelled previous (c :: chars) t := by
  rw [read] at h
  split_ifs at h with h₁ h₂ h₃ hminus hnumber hname
  · obtain rfl : c = '(' := by simpa using h₁
    cases h
    exact ⟨[], rest, rfl, rfl, .lparen⟩
  · obtain rfl : c = ')' := by simpa using h₂
    cases h
    exact ⟨[], rest, rfl, rfl, .rparen⟩
  · obtain rfl : c = ',' := by simpa using h₃
    cases h
    exact ⟨[], rest, rfl, rfl, .comma⟩
  · obtain rfl : c = '-' := by simpa using hminus
    cases h
    exact ⟨[], rest, rfl, rfl, spelled_minus previous⟩
  · split at h
    · next hread =>
      cases h
      exact spelled_of_readNumber (by simpa using hnumber) hread
    · cases h
  · cases h
    exact ⟨_, _, List.takeWhile_append_dropWhile.symm, rfl,
      spelled_name ⟨hname, fun d hd => List.mem_takeWhile_imp hd⟩⟩
  · split at h
    · next o ho =>
      cases h
      obtain rfl := symbol_of_ofChar? ho
      refine ⟨[], rest, rfl, rfl, .operator fun hsub => ?_⟩
      subst hsub
      exact hminus rfl
    · cases h

/-- A point without digits is a malformed number, and everything else that cannot be read an unexpected
character. -/
theorem error_of_read {e : SyntaxError} (h : read previous position c rest = .error e) :
    e = if c = '.' then .malformedNumber position else .unexpectedCharacter c position := by
  rw [read] at h
  split_ifs at h with h₁ h₂ h₃ hminus hnumber hname
  · split at h
    · cases h
    · next hread =>
      cases h
      by_cases hc : c = '.'
      · rw [if_pos hc]
      · have hdigit : c.isDigit = true := by simpa [hc] using hnumber
        obtain ⟨d, width, hsome, -⟩ := readNumber_whole_append [] rest hdigit (List.forall_mem_nil _)
        cases hread.symm.trans hsome
  · split at h
    · cases h
    · cases h
      rw [if_neg]
      rintro rfl
      exact hnumber rfl

end Reading

theorem Spelled.unique {t' : Token} (h : Spelled previous chars t) (h' : Spelled previous chars t') : t = t' := by
  obtain ⟨c, rest, u, width, heq, -, hread, hle, hu⟩ := h.readsAtLeast previous 0 []
  obtain ⟨c', rest', u', width', heq', -, hread', -, hu'⟩ := h'.readsAtLeast previous 0 []
  rw [heq] at heq'
  cases heq'
  cases hread.symm.trans hread'
  obtain ⟨taken, more, rfl, rfl, -⟩ := spelled_of_read hread
  have hlength := congrArg List.length heq
  simp only [List.append_nil, List.length_cons, List.length_append] at hlength
  have hfull : chars.length = taken.length + 1 := by omega
  rw [← hu rfl hfull, hu' rfl hfull]

end Token

end FlowShader
