import FlowShader.Proofs.Token.Munch

namespace FlowShader

def SyntaxError.Blames (tokens : List Located) : SyntaxError → Prop
  | unexpectedToken t p => ⟨t, p⟩ ∈ tokens
  | unknownFunction name p => ⟨.ident name, p⟩ ∈ tokens
  | uncalledFunction name p => ∃ f, ⟨.function name f, p⟩ ∈ tokens
  | arity name _ _ p => ∃ f q, ⟨.function name f, q⟩ ∈ tokens ∧ (p = q ∨ ⟨.rparen, p⟩ ∈ tokens)
  | mismatchedParenthesis p =>
    ⟨.lparen, p⟩ ∈ tokens ∨ ⟨.rparen, p⟩ ∈ tokens ∨ ∃ name f, ⟨.function name f, p⟩ ∈ tokens
  | trailingOperator p => ∃ t ∈ [Token.rparen, .comma, .eof], ⟨t, p⟩ ∈ tokens
  | unexpectedCharacter _ _ | malformedNumber _ | empty => False

namespace Parser

variable {L : Type} [Literal L] {t : Located} {token : Token} {tokens : List Located} {output : List (Expr L)}
  {stack : List Pending} {due : Bool}

def Pending.Stems (tokens : List Located) : Pending → Prop
  | operator _ _ | negation _ => True
  | group p => ⟨.lparen, p⟩ ∈ tokens
  | call name f _ p => ⟨.function name f, p⟩ ∈ tokens

theorem mem_of_token_eq (ht : t.token = token) (hmem : t ∈ tokens) : ⟨token, t.position⟩ ∈ tokens := ht ▸ hmem

theorem unwind_cases (binds : Nat → Bool) (output : List (Expr L)) (stack : List Pending) :
    (∃ output' stack', unwind binds output stack = .ok (output', stack') ∧ stack' <:+ stack) ∨
      ∃ e, unwind binds output stack = .error (.shortage e) := by
  induction stack generalizing output with
  | nil => exact .inl ⟨_, _, rfl, List.suffix_rfl⟩
  | cons top stack ih =>
      rw [unwind]
      split
      · cases happly : apply top output with
        | ok output =>
            obtain ⟨output', stack', heq, hsuffix⟩ | ⟨e, heq⟩ := ih output
            · exact .inl ⟨output', stack', heq, hsuffix.trans (List.suffix_cons top stack)⟩
            · exact .inr ⟨e, heq⟩
        | error stop =>
            refine .inr ?_
            unfold apply at happly
            split at happly <;> cases happly <;> exact ⟨_, rfl⟩
      · exact .inl ⟨_, _, rfl, List.suffix_rfl⟩

theorem stems_of_unwind {binds : Nat → Bool} {output' : List (Expr L)} {stack' : List Pending}
    (hstack : ∀ p ∈ stack, p.Stems tokens) (h : unwind binds output stack = .ok (output', stack')) :
    ∀ p ∈ stack', p.Stems tokens := by
  obtain ⟨_, _, heq, hsuffix⟩ | ⟨e, heq⟩ := unwind_cases binds output stack
  · cases h.symm.trans heq
    exact fun p hp => hstack p (hsuffix.subset hp)
  · cases h.symm.trans heq

theorem not_fault_of_unwind {binds : Nat → Bool} {e : SyntaxError} :
    unwind binds output stack ≠ .error (.fault e) := by
  intro h
  obtain ⟨_, _, heq, -⟩ | ⟨_, heq⟩ := unwind_cases binds output stack <;> cases h.symm.trans heq

omit [Literal L] in
theorem dangling_blames (ht : t ∈ tokens) (htoken : t.token ∈ [Token.rparen, .comma, .eof])
    (hstack : ∀ p ∈ stack, p.Stems tokens) :
    (dangling output stack t).Blames tokens ∨ dangling output stack t = .empty ∧ stack = [] := by
  unfold dangling
  split
  · split
    · exact .inr ⟨rfl, rfl⟩
    · exact .inl ht
  · exact .inl ⟨t.token, htoken, ht⟩
  · exact .inl ⟨t.token, htoken, ht⟩
  · split
    · next hrparen =>
      exact .inl ⟨_, _, hstack _ List.mem_cons_self, .inr (mem_of_token_eq (by simpa using hrparen) ht)⟩
    · exact .inl ht
  · exact .inl ht

theorem finish_blames {e : SyntaxError} (hstack : ∀ p ∈ stack, p.Stems tokens)
    (h : finish output stack = .error (.fault e)) : e.Blames tokens := by
  unfold finish at h
  split at h
  · next hunwind =>
    cases h
    exact .inl (stems_of_unwind hstack hunwind _ List.mem_cons_self)
  · next hunwind =>
    cases h
    exact .inr (.inr ⟨_, _, stems_of_unwind hstack hunwind _ List.mem_cons_self⟩)
  · cases h
  · cases h
  · next stop hunwind =>
    cases h
    exact absurd hunwind not_fault_of_unwind

omit [Literal L] in
theorem eq_arity_of_applyCall {name : String} {callable : Callable} {argc position : Nat} {e : SyntaxError}
    (h : applyCall name callable argc position output = .error (.fault e)) :
    e = .arity name callable.arity argc position := by
  unfold applyCall at h
  split_ifs at h
  · cases h
    rfl
  · cases h
  · split at h <;> cases h

theorem close_blames {e : SyntaxError} (ht : t ∈ tokens) (htoken : t.token = .rparen)
    (hstack : ∀ p ∈ stack, p.Stems tokens) (h : close output stack t.position = .error (.fault e)) :
    e.Blames tokens := by
  unfold close at h
  split at h
  · cases h
  · next hunwind =>
    have hcall := stems_of_unwind hstack hunwind _ List.mem_cons_self
    split at h
    · cases h
    · next happly =>
      cases h
      rw [eq_arity_of_applyCall happly]
      exact ⟨_, _, hcall, .inl rfl⟩
  · cases h
    exact .inr (.inl (mem_of_token_eq htoken ht))
  · next stop hunwind =>
    cases h
    exact absurd hunwind not_fault_of_unwind

theorem stems_of_close {output' : List (Expr L)} {stack' : List Pending} {position : Nat}
    (hstack : ∀ p ∈ stack, p.Stems tokens) (h : close output stack position = .ok (output', stack')) :
    ∀ p ∈ stack', p.Stems tokens := by
  unfold close at h
  split at h
  · next hunwind =>
    cases h
    exact fun p hp => stems_of_unwind hstack hunwind p (List.mem_cons_of_mem _ hp)
  · next hunwind =>
    split at h
    · cases h
      exact fun p hp => stems_of_unwind hstack hunwind p (List.mem_cons_of_mem _ hp)
    · cases h
  · cases h
  · cases h

/-- A fault stands at a token that it can be about, or else nothing was read and the first token is where a formula
cannot start. While an operand is due and nothing is pending, nothing was read. -/
theorem run_blames {all : List Located} {e : SyntaxError} (hstack : ∀ p ∈ stack, p.Stems all) (htokens : tokens ⊆ all)
    (hfresh : due = true → stack = [] → tokens = all) (h : run due output stack tokens = .error (.fault e)) :
    e.Blames all ∨ e = .empty ∧ ∃ t rest, all = t :: rest ∧ t.token ∈ [Token.rparen, .comma, .eof] := by
  have hclosed {P : Prop} (h : false = true) : P := absurd h Bool.false_ne_true
  have hopened {p : Pending} {stack : List Pending} {P : Prop} (h : p :: stack = []) : P :=
    absurd h (List.cons_ne_nil p stack)
  fun_induction run due output stack tokens with
  | case1 => exact .inl (finish_blames hstack h)
  | case2 output stack t rest d ht ih => exact ih hstack (List.subset_of_cons_subset htokens) hclosed h
  | case3 output stack t rest c ht ih => exact ih hstack (List.subset_of_cons_subset htokens) hclosed h
  | case5 output stack t rest name ht hrest ih => exact ih hstack (List.subset_of_cons_subset htokens) hclosed h
  | case4 output stack t name ht p rest =>
      cases h
      exact .inl (mem_of_token_eq ht (htokens List.mem_cons_self))
  | case6 output stack t name callable ht p rest ih =>
      refine ih (List.forall_mem_cons.2 ⟨mem_of_token_eq ht (htokens List.mem_cons_self), hstack⟩) ?_ (fun _ => hopened) h
      exact List.subset_of_cons_subset (List.subset_of_cons_subset htokens)
  | case7 output stack t rest name callable ht hrest =>
      cases h
      exact .inl ⟨callable, mem_of_token_eq ht (htokens List.mem_cons_self)⟩
  | case8 output stack t rest due ht ih =>
      exact ih (List.forall_mem_cons.2 ⟨trivial, hstack⟩) (List.subset_of_cons_subset htokens) (fun _ => hopened) h
  | case9 output stack t rest o ht output' stack' hunwind ih =>
      exact ih (List.forall_mem_cons.2 ⟨trivial, stems_of_unwind hstack hunwind⟩)
        (List.subset_of_cons_subset htokens) (fun _ => hopened) h
  | case10 output stack t rest o ht stop hunwind =>
      cases h
      exact absurd hunwind not_fault_of_unwind
  | case11 output stack t rest ht ih =>
      exact ih (List.forall_mem_cons.2 ⟨mem_of_token_eq ht (htokens List.mem_cons_self), hstack⟩)
        (List.subset_of_cons_subset htokens) (fun _ => hopened) h
  | case12 output stack t rest ht output' name callable argc start stack' hunwind ih =>
      have hstack' := List.forall_mem_cons.1 (stems_of_unwind hstack hunwind)
      exact ih (List.forall_mem_cons.2 hstack') (List.subset_of_cons_subset htokens) (fun _ => hopened) h
  | case14 output stack t rest ht stop hunwind =>
      cases h
      exact absurd hunwind not_fault_of_unwind
  | case15 output stack t rest ht output' stack' hclose ih =>
      exact ih (stems_of_close hstack hclose) (List.subset_of_cons_subset htokens) hclosed h
  | case16 output stack t rest ht stop hclose =>
      cases h
      exact .inl (close_blames (htokens List.mem_cons_self) ht hstack hclose)
  | case17 => exact .inl (finish_blames hstack h)
  | case18 output stack t rest ht | case19 output stack t rest ht | case20 output stack t rest ht =>
      cases h
      refine (dangling_blames (htokens List.mem_cons_self) (by simp [ht]) hstack).imp id ?_
      rintro ⟨hempty, hnothing⟩
      exact ⟨hempty, t, rest, (hfresh rfl hnothing).symm, by simp [ht]⟩
  | case13 | case21 =>
      obtain rfl := Stop.fault.inj (Except.error.inj h)
      exact .inl (htokens List.mem_cons_self)

end Parser

/-- A token starts here, or the text ends, or no token can be read. -/
def StartsToken (source : List Char) (position : Nat) : Prop :=
  ∃ ls stop, Cuts source none 0 stop ls ∧ ScanEnds source stop ∧ (position = stop ∨ ∃ l ∈ ls, l.position = position)

theorem StartsToken.le_length {source : List Char} {position : Nat} (h : StartsToken source position) :
    position ≤ source.length := by
  obtain ⟨ls, stop, hcuts, -, rfl | ⟨l, hl, rfl⟩⟩ := h
  · exact hcuts.stop_le
  · have hwithin := (hcuts.within l hl).2
    have hle := hcuts.stop_le
    rw [Lexeme.stop] at hwithin
    omega

theorem Token.Spelled.ne_eof {previous : Option Token} {chars : List Char} {t : Token} (h : Spelled previous chars t) :
    t ≠ .eof := by
  cases h <;> nofun

theorem Faults.position {source : List Char} {position : Nat} {e : SyntaxError} (h : Faults source position e) :
    e.position? = some position := by
  cases h <;> rfl

theorem SyntaxError.Blames.position {tokens : List Located} {e : SyntaxError} (h : e.Blames tokens) :
    ∃ t ∈ tokens, e.position? = some t.position := by
  cases e with
  | unexpectedToken t p => exact ⟨_, h, rfl⟩
  | unknownFunction name p => exact ⟨_, h, rfl⟩
  | uncalledFunction name p =>
      obtain ⟨f, h⟩ := h
      exact ⟨_, h, rfl⟩
  | arity name expected found p =>
      obtain ⟨f, q, h, rfl | h'⟩ := h
      · exact ⟨_, h, rfl⟩
      · exact ⟨_, h', rfl⟩
  | mismatchedParenthesis p =>
      obtain h | h | ⟨name, f, h⟩ := h <;> exact ⟨_, h, rfl⟩
  | trailingOperator p =>
      obtain ⟨t, -, h⟩ := h
      exact ⟨_, h, rfl⟩
  | unexpectedCharacter | malformedNumber | empty => exact absurd h id

namespace Scan

variable {source : String}

theorem exists_faults {e : SyntaxError} (h : (ofString source).fault = some e) :
    ∃ position, Faults source.toList position e ∧ StartsToken source.toList position := by
  obtain ⟨ls, position, hcuts, hunreadable, hfaults, -⟩ := exists_cuts_of_fault_eq_some h
  exact ⟨position, hfaults, ls, position, hcuts, .inr hunreadable, .inl rfl⟩

theorem startsToken_of_mem {t : Located} (h : (ofString source).fault = none) (ht : t ∈ (ofString source).tokens) :
    StartsToken source.toList t.position := by
  obtain ⟨ls, hcuts, htokens⟩ := exists_cuts_of_fault_eq_none h
  refine ⟨ls, source.length, hcuts, .inl String.length_toList.symm, ?_⟩
  rw [htokens] at ht
  rcases List.mem_append.1 ht with ht | ht
  · obtain ⟨l, hl, rfl⟩ := List.mem_map.1 ht
    exact .inr ⟨l, hl, rfl⟩
  · rw [List.mem_singleton.1 ht]
    exact .inl rfl

theorem ne_eof_of_visible (h : (ofString source).fault = none) {t : Located} {rest : List Located}
    (htokens : (ofString source).tokens = t :: rest) (hsource : ∃ c ∈ source.toList, Text.isBlank c = false) :
    t.token ≠ .eof := by
  obtain ⟨ls, hcuts, heq⟩ := exists_cuts_of_fault_eq_none h
  rw [heq] at htokens
  cases ls with
  | nil =>
      obtain ⟨c, hc, hvisible⟩ := hsource
      obtain ⟨i, hi, rfl⟩ := List.getElem_of_mem hc
      have hblank := hcuts.blank i (Nat.zero_le i) (by rwa [← String.length_toList]) nofun _ (List.getElem?_eq_getElem hi)
      exact absurd (hvisible.symm.trans hblank) Bool.false_ne_true
  | cons l ls =>
      cases htokens
      exact hcuts.munched.1.spelled.ne_eof

end Scan

namespace Expr

variable {L : Type} [Literal L] {source : String} {error : SyntaxError}

theorem run_of_parse_eq_error (hlexes : (Scan.ofString source).fault = none)
    (h : Expr.parse (L := L) source = .error error) :
    Parser.run (L := L) true [] [] (Scan.ofString source).tokens = .error (.fault error) := by
  have hexplained : Parser.Explained _ (Parser.run (L := L) true [] [] (Scan.ofString source).tokens) :=
    Parser.run_explained (.due .start) (Parser.ahead_ofString hlexes)
  rw [Expr.parse, Scan.toExcept, hlexes] at h
  dsimp only at h
  cases hrun : Parser.run (L := L) true [] [] (Scan.ofString source).tokens with
  | ok e =>
      rw [hrun] at h
      cases h
  | error stop =>
      rw [hrun] at h hexplained
      cases stop with
      | fault e =>
          cases h
          rfl
      | shortage e => exact absurd hexplained id

theorem blames_of_parse_eq_error (hlexes : (Scan.ofString source).fault = none)
    (h : Expr.parse (L := L) source = .error error) :
    error.Blames (Scan.ofString source).tokens ∨
      error = .empty ∧ ∃ t rest, (Scan.ofString source).tokens = t :: rest ∧ t.token ∈ [Token.rparen, .comma, .eof] :=
  Parser.run_blames (fun _ hp => absurd hp List.not_mem_nil) (List.Subset.refl _) (fun _ _ => rfl)
    (run_of_parse_eq_error hlexes h)

theorem run_of_closing {t : Located} {rest : List Located} (ht : t.token = .rparen ∨ t.token = .comma) :
    Parser.run (L := L) true [] [] (t :: rest) = .error (.fault .empty) := by
  rw [Parser.run.eq_def]
  rcases ht with ht | ht <;> simp only [ht] <;> rfl

/-- An error in a text that is not blank is located, unless the text starts with a closing parenthesis or a comma and
has no lexical error; then it has no position. The position is that of a token, of the end or of a character that
cannot be read, and the error is one that can be made there. -/
theorem parse_error_located (source : String) (error : SyntaxError)
    (hsource : ∃ c ∈ source.toList, Text.isBlank c = false) (h : Expr.parse (L := L) source = .error error) :
    (error.position? = none ↔ ∃ t rest, Scan.ofString source = ⟨t :: rest, none⟩ ∧
      (t.token = .rparen ∨ t.token = .comma)) ∧
    ∀ p, error.position? = some p → p ≤ source.length ∧ StartsToken source.toList p ∧
      (Faults source.toList p error ∨ error.Blames (Scan.ofString source).tokens) := by
  cases hfault : (Scan.ofString source).fault with
  | some fault =>
      rw [Expr.parse, Scan.toExcept, hfault] at h
      obtain rfl := Except.error.inj h
      obtain ⟨position, hfaults, hstarts⟩ := Scan.exists_faults hfault
      refine ⟨⟨fun hnone => ?_, ?_⟩, fun p hp => ?_⟩
      · cases hfaults.position.symm.trans hnone
      · rintro ⟨t, rest, hscan, -⟩
        rw [hscan] at hfault
        cases hfault
      · obtain rfl := Option.some.inj (hfaults.position.symm.trans hp)
        exact ⟨hstarts.le_length.trans_eq String.length_toList, hstarts, .inl hfaults⟩
  | none =>
      have hcases := blames_of_parse_eq_error hfault h
      refine ⟨⟨fun hnone => ?_, ?_⟩, fun p hp => ?_⟩
      · obtain hblames | ⟨-, t, rest, htokens, ht⟩ := hcases
        · obtain ⟨t, -, hposition⟩ := hblames.position
          cases hposition.symm.trans hnone
        · have hne := Scan.ne_eof_of_visible hfault htokens hsource
          refine ⟨t, rest, ?_, by simpa [hne] using ht⟩
          rw [← htokens, ← hfault]
      · rintro ⟨t, rest, hscan, ht⟩
        have hrun := run_of_parse_eq_error hfault h
        rw [hscan, run_of_closing ht] at hrun
        cases hrun
        rfl
      · obtain hblames | ⟨rfl, -⟩ := hcases
        · obtain ⟨t, ht, hposition⟩ := hblames.position
          obtain rfl := Option.some.inj (hposition.symm.trans hp)
          have hstarts := Scan.startsToken_of_mem hfault ht
          exact ⟨hstarts.le_length.trans_eq String.length_toList, hstarts, .inr hblames⟩
        · cases hp

theorem parse_missing_argument : Expr.parse (L := L) "max(x, sin()) + 2" = .error (.arity "sin" 1 0 11) := by cbv

theorem parse_error_located_missing_argument :
    (∃ c ∈ "max(x, sin()) + 2".toList, Text.isBlank c = false) ∧
      Expr.parse (L := Float) "max(x, sin()) + 2" = .error (.arity "sin" 1 0 11) ∧
      11 ≤ "max(x, sin()) + 2".length ∧ StartsToken "max(x, sin()) + 2".toList 11 := by
  have hvisible : ∃ c ∈ "max(x, sin()) + 2".toList, Text.isBlank c = false := ⟨'m', by decide, by decide⟩
  obtain ⟨hle, hstarts, -⟩ := (parse_error_located _ _ hvisible (parse_missing_argument (L := Float))).2 11 rfl
  exact ⟨hvisible, parse_missing_argument, hle, hstarts⟩

/-- A parenthesis is no empty formula, but an error without a position says so. -/
theorem parse_lone_parenthesis :
    (∃ c ∈ ")".toList, Text.isBlank c = false) ∧ Expr.parse (L := Float) ")" = .error .empty ∧
      SyntaxError.empty.position? = none :=
  ⟨⟨')', by decide, by decide⟩, by cbv, rfl⟩

end Expr

end FlowShader
