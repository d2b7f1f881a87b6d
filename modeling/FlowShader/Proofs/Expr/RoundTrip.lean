import FlowShader.Proofs.Decimal.Reading
import FlowShader.Proofs.Expr.Spelling

namespace FlowShader

section Leaves

variable {L : Type}

/-- The numbers, constants and variables of a formula, from left to right. -/
def Expr.leaves : Expr L → List (Expr L)
  | e@(literal _) | e@(constant _) | e@(var _) => [e]
  | call _ a => a.leaves
  | call₂ _ a b | op _ a b => a.leaves ++ b.leaves

theorem Expr.mem_names_of_leaf {e : Expr L} {v : String} (h : .var v ∈ e.leaves) : v ∈ e.names := by
  induction e with
  | literal x | constant c => cases List.mem_singleton.1 h
  | var w =>
      obtain rfl := Expr.var.inj (List.mem_singleton.1 h)
      exact List.mem_singleton_self v
  | call f a ih => exact ih h
  | call₂ f a b iha ihb | op o a b iha ihb => exact List.mem_append.2 ((List.mem_append.1 h).imp iha ihb)

theorem Grammar.Builds.leaves {callable : Callable} {args : List (Expr L)} {e : Expr L}
    (h : Builds callable args e) : e.leaves = args.flatMap Expr.leaves := by
  cases h <;> simp [Expr.leaves]

variable [Literal L]

def Token.leaf? : Token → Option (Expr L)
  | number d => some (.literal (Literal.ofDecimal d))
  | constant c => some (.constant c)
  | ident name => some (.var name)
  | _ => none

/-- A leaf is one of the tokens, or the zero that a negation subtracts from. -/
def Token.Gives (ts : List Located) (l : Expr L) : Prop := l = .literal 0 ∨ ∃ t ∈ ts, t.token.leaf? = some l

theorem Token.Gives.mono {ts us : List Located} {l : Expr L} (h : Token.Gives ts l) (hsub : ts ⊆ us) :
    Token.Gives us l :=
  h.imp_right fun ⟨t, ht, hl⟩ => ⟨t, hsub ht, hl⟩

theorem Token.gives_single {t : Located} {e : Expr L} (h : t.token.leaf? = some e) (he : e.leaves = [e]) :
    ∀ l ∈ e.leaves, Token.Gives [t] l := by
  intro l hl
  rw [he, List.mem_singleton] at hl
  exact .inr ⟨t, List.mem_singleton_self t, hl ▸ h⟩

namespace Grammar

mutual

theorem Derives.gives {c : Category} {ts : List Located} {e : Expr L} :
    Derives c ts e → ∀ l ∈ e.leaves, Token.Gives ts l
  | .term h | .neg h | .power h | .primary h => h.gives
  | .binary hlhs _ hrhs => fun l hl => by
      rcases List.mem_append.1 hl with hl | hl
      · exact (hlhs.gives l hl).mono (List.subset_append_left ..)
      · exact (hrhs.gives l hl).mono fun t ht => List.mem_append_right _ (List.mem_cons_of_mem _ ht)
  | .negation _ h => fun l hl => by
      rcases List.mem_append.1 hl with hl | hl
      · exact .inl (List.mem_singleton.1 hl)
      · exact (h.gives l hl).mono (List.subset_cons_self ..)
  | .number ht => Token.gives_single (by rw [ht]; rfl) rfl
  | .constant ht => Token.gives_single (by rw [ht]; rfl) rfl
  | .ident ht => Token.gives_single (by rw [ht]; rfl) rfl
  | .call _ _ _ hargs _ hbuilds => fun l hl => by
      rw [hbuilds.leaves, List.mem_flatMap] at hl
      obtain ⟨a, ha, hl⟩ := hl
      exact (hargs.gives a ha l hl).mono fun t ht => by simp [ht]
  | .group _ h _ => fun l hl => (h.gives l hl).mono fun t ht => by simp [ht]

theorem Arguments.gives {ts : List Located} {args : List (Expr L)} :
    Arguments ts args → ∀ a ∈ args, ∀ l ∈ a.leaves, Token.Gives ts l
  | .one h => fun a ha => by
      rw [List.mem_singleton.1 ha]
      exact h.gives
  | .more hargs _ h => fun a ha l hl => by
      rcases List.mem_append.1 ha with ha | ha
      · exact (hargs.gives a ha l hl).mono (List.subset_append_left ..)
      · rw [List.mem_singleton.1 ha] at hl
        exact (h.gives l hl).mono fun t ht => List.mem_append_right _ (List.mem_cons_of_mem _ ht)

end

end Grammar

end Leaves

theorem Token.isIdentifier_of_ofWord {c : Char} {more : List Char} {v : String} (hc : isNameStart c = true)
    (hmore : ∀ d ∈ more, isNameChar d = true) (h : ofWord (String.ofList (c :: more)) = .ident v) :
    isIdentifier v = true := by
  have hv : String.ofList (c :: more) = v := by
    unfold ofWord at h
    split at h
    · cases h
    · split at h
      · cases h
      · exact Token.ident.inj h
  subst hv
  simp only [isIdentifier, String.toList_ofList, hc, List.all_eq_true.2 hmore, h, beq_self_eq_true, Bool.and_self]

theorem Token.isIdentifier_of_read {previous : Option Token} {position width : Nat} {c : Char} {rest : List Char}
    {v : String} (h : read previous position c rest = .ok (.ident v, width)) : isIdentifier v = true := by
  rw [read] at h
  split_ifs at h with h₁ h₂ h₃ hminus hnumber hname
  · cases h
  · cases h
  · cases h
  · obtain ⟨hword, -⟩ := Prod.mk.inj (Except.ok.inj h)
    rw [minus] at hword
    split at hword <;> cases hword
  · split at h <;> cases h
  · obtain ⟨hword, -⟩ := Prod.mk.inj (Except.ok.inj h)
    exact isIdentifier_of_ofWord hname (fun d hd => List.mem_takeWhile_imp hd) hword
  · split at h <;> cases h

theorem Scan.isIdentifier_of_mem {previous : Option Token} {position : Nat} {cs : List Char} {t : Located}
    {v : String} (h : t ∈ (ofChars previous position cs).tokens) (ht : t.token = .ident v) :
    Token.isIdentifier v = true := by
  fun_induction ofChars previous position cs with
  | case1 =>
      rw [List.mem_singleton.1 h] at ht
      cases ht
  | case2 _ _ _ _ _ ih => exact ih h
  | case3 => cases h
  | case4 _ _ _ _ _ _ _ hread _ ih =>
      rcases List.mem_cons.1 h with rfl | h
      · obtain rfl : _ = Token.ident v := ht
        exact Token.isIdentifier_of_read hread
      · exact ih h

section Parsed

variable {L : Type} [Literal L] {source : String} {e : Expr L}

theorem Expr.derives_of_parse (h : Expr.parse source = .ok e) :
    Grammar.Derives .expr (beforeEnd (Scan.ofString source).tokens) e := by
  rw [Expr.parse, Scan.toExcept] at h
  cases hfault : (Scan.ofString source).fault with
  | some fault => simp [hfault] at h
  | none =>
      have hexplained : Parser.Explained _ (Parser.run (L := L) true [] [] (Scan.ofString source).tokens) :=
        Parser.run_explained (.due .start) (Parser.ahead_ofString hfault)
      simp only [hfault] at h
      cases hrun : Parser.run (L := L) true [] [] (Scan.ofString source).tokens with
      | error stop => simp [hrun, Except.mapError] at h
      | ok e' =>
          rw [hrun] at h hexplained
          obtain rfl := Except.ok.inj h
          exact hexplained

theorem Expr.gives_of_parse (h : Expr.parse source = .ok e) {l : Expr L} (hl : l ∈ e.leaves) :
    Token.Gives (Scan.ofString source).tokens l :=
  ((derives_of_parse h).gives l hl).mono (List.takeWhile_subset _)

/-- The numbers of a formula that was read stand in its source, or are zero. -/
theorem Expr.literal_of_parse (h : Expr.parse source = .ok e) {x : L} (hx : .literal x ∈ e.leaves) :
    x = 0 ∨ ∃ t ∈ (Scan.ofString source).tokens, ∃ d, t.token = .number d ∧ x = Literal.ofDecimal d := by
  rcases gives_of_parse h hx with hzero | ⟨t, ht, hleaf⟩
  · exact .inl (Expr.literal.inj hzero)
  · refine .inr ⟨t, ht, ?_⟩
    unfold Token.leaf? at hleaf
    split at hleaf
    · next d heq => exact ⟨d, heq, (Expr.literal.inj (Option.some.inj hleaf)).symm⟩
    · cases hleaf
    · cases hleaf
    · cases hleaf

theorem Expr.var_of_parse (h : Expr.parse source = .ok e) {v : String} (hv : .var v ∈ e.leaves) :
    Token.isIdentifier v = true := by
  rcases gives_of_parse h hv with hzero | ⟨t, ht, hleaf⟩
  · cases hzero
  · unfold Token.leaf? at hleaf
    split at hleaf
    · cases hleaf
    · cases hleaf
    · next name heq =>
      obtain rfl := Expr.var.inj (Option.some.inj hleaf)
      exact Scan.isIdentifier_of_mem ht heq
    · cases hleaf

end Parsed

section Plain

variable {L : Type} [Literal L]

/-- Finite and not below zero. -/
def Literal.Unsigned (x : L) : Prop := isFinite x = true ∧ Scalar.lt x 0 = false

theorem Expr.text_of_unsigned {x : L} (hx : Literal.Unsigned x) : (literal x).text = literalText x := by
  rw [text, write, hx.2]
  exact String.empty_append

def Literal.plain (x : L) : L := if x == 0 then 0 else x

def Expr.plain : Expr L → Expr L
  | literal x => literal (Literal.plain x)
  | constant c => constant c
  | var v => var v
  | call f a => call f a.plain
  | call₂ f a b => call₂ f a.plain b.plain
  | op o a b => op o a.plain b.plain

theorem Expr.plain_eq {e : Expr L} (h : ∀ x, .literal x ∈ e.leaves → (x == 0) = true → x = 0) : e.plain = e := by
  induction e with
  | literal x =>
      rw [plain, Literal.plain]
      split
      · next hx => rw [h x (List.mem_singleton_self _) hx]
      · rfl
  | constant c | var v => rfl
  | call f a ih => rw [plain, ih h]
  | call₂ f a b iha ihb | op o a b iha ihb =>
      rw [plain, iha fun x hx => h x (List.mem_append_left _ hx), ihb fun x hx => h x (List.mem_append_right _ hx)]

theorem Expr.plain_beq {e : Expr L} (h : ∀ x, .literal x ∈ e.leaves → (Literal.plain x == x) = true) :
    (e.plain == e) = true := by
  induction e with
  | literal x => exact h x (List.mem_singleton_self _)
  | constant c => exact beq_self_eq_true c
  | var v => exact beq_self_eq_true v
  | call f a ih => exact Bool.and_eq_true_iff.2 ⟨beq_self_eq_true f, ih h⟩
  | call₂ f a b iha ihb =>
      have ha := iha fun x hx => h x (List.mem_append_left _ hx)
      have hb := ihb fun x hx => h x (List.mem_append_right _ hx)
      exact Bool.and_eq_true_iff.2 ⟨Bool.and_eq_true_iff.2 ⟨beq_self_eq_true f, ha⟩, hb⟩
  | op o a b iha ihb =>
      have ha := iha fun x hx => h x (List.mem_append_left _ hx)
      have hb := ihb fun x hx => h x (List.mem_append_right _ hx)
      exact Bool.and_eq_true_iff.2 ⟨Bool.and_eq_true_iff.2 ⟨beq_self_eq_true o, ha⟩, hb⟩

end Plain

section Calls

namespace Expr

theorem calls_func (f : Func) : Calls f.name f.callable := by
  obtain ⟨c, more, hname, hc⟩ := f.name_head
  have hchars := f.name_chars
  rw [hname] at hchars
  exact ⟨⟨c, more, hname, hc, (List.forall_mem_cons.1 hchars).2⟩, Token.ofWord_func f⟩

theorem calls_biFunc (f : BiFunc) : Calls f.name (.bifunc f) := by
  obtain ⟨c, more, hname, hc⟩ := f.name_head
  have hchars := f.name_chars
  rw [hname] at hchars
  exact ⟨⟨c, more, hname, hc, (List.forall_mem_cons.1 hchars).2⟩, Token.ofWord_biFunc f⟩

theorem builds_func {L : Type} (f : Func) (a : Expr L) : Grammar.Builds f.callable [a] (call f a) := by
  cases f <;> constructor

end Expr

end Calls

section Doubles

open Double

variable {x : Float}

theorem Double.isFinite_of_exponentBits (h : exponentBits x ≠ 2047) : x.isFinite = true := by
  change x.toModel.unpack.isFinite = true
  rw [unpack_eq_signed h]
  rcases signed_eq x with ⟨-, hs⟩ | ⟨-, m, e, hm, hs⟩ <;> rw [hs] <;> rfl

theorem Double.unsigned_of_positive (h : exponentBits x ≠ 2047) (hs : sign x = .positive) : Literal.Unsigned x := by
  refine ⟨isFinite_of_exponentBits h, ?_⟩
  rw [← Bool.not_eq_true]
  intro hlt
  have hneg := ((lt_zero_iff h).1 hlt).1
  rw [hs] at hneg
  cases hneg

theorem Double.plain_of_positive (h : exponentBits x ≠ 2047) (hs : sign x = .positive) : Literal.Plain x := by
  refine ⟨isFinite_of_exponentBits h, fun hzero => ?_⟩
  exact eq_of_sign_of_magnitude (y := 0.0) (by rw [hs]; simp [sign]; decide) ((beq_zero_iff h).1 hzero)

theorem Double.sign_eq_positive (hx : Literal.Unsigned x) (hm : magnitude x ≠ 0) : sign x = .positive := by
  have hlt : Float.lt x 0.0 = false := hx.2
  cases hs : sign x with
  | positive => rfl
  | negative =>
      rw [(lt_zero_iff (exponentBits_ne_of_isFinite hx.1)).2 ⟨hs, hm⟩] at hlt
      cases hlt

theorem Double.beq_self (h : exponentBits x ≠ 2047) : (x == x) = true := by
  change (x.toModel.unpack.compare x.toModel.unpack == some .eq) = true
  rw [unpack_eq_signed h]
  rcases signed_eq x with ⟨-, hs⟩ | ⟨-, m, e, hm, hs⟩
  · rw [hs]
    rfl
  · rw [hs]
    cases sign x <;> simp [Float.Model.UnpackedFloat.compare]

theorem Double.plain_beq (h : exponentBits x ≠ 2047) : (Literal.plain x == x) = true := by
  unfold Literal.plain
  split
  · next hzero => exact beq_of_zeros (x := 0.0) (by decide) hzero
  · exact beq_self h

theorem Double.spells_shortest (h : exponentBits x ≠ 2047) (hs : sign x = .positive) :
    Expr.Spells (Binary.ofFloat x).shortest.text.toList (.literal x) := by
  have hread := Decimal.toFloat_congr (Decimal.value_ofPoint (Binary.ofFloat x).shortest)
  rw [Decimal.toFloat_shortest h hs] at hread
  generalize (Binary.ofFloat x).shortest = d at *
  have hwhole : ∀ c ∈ d.wholeDigits, c.isDigit = true := fun c => Decimal.isDigit_of_mem_wholeDigits
  rw [Decimal.text_toList, ← hread]
  by_cases hexponent : 0 ≤ d.exponent
  · have hfraction : d.fractionDigits = [] := by rw [Decimal.fractionDigits, if_pos hexponent]
    rw [if_pos hexponent, List.append_nil, hfraction]
    exact Expr.spells_whole _ d.wholeDigits_ne_nil hwhole
  · rw [if_neg hexponent]
    exact Expr.spells_point _ _ d.wholeDigits_ne_nil hwhole fun c => Decimal.isDigit_of_mem_fractionDigits

theorem Double.spells_literal (hx : Literal.Unsigned x) :
    Expr.Spells (Expr.literal x).text.toList (Expr.literal x).plain := by
  have h := exponentBits_ne_of_isFinite hx.1
  rw [Expr.text_of_unsigned hx, Expr.literalText, Expr.plain, Literal.plain]
  split
  · exact Expr.spells_whole ['0'] (by simp) (by simp)
  · next hzero =>
    have hs := sign_eq_positive hx fun hm => hzero ((beq_zero_iff h).2 hm)
    change Expr.Spells (floatText x).toList _
    rw [floatText_eq h hs]
    exact spells_shortest h hs

theorem Expr.text_spells {e : Expr Float} (hliterals : ∀ x, .literal x ∈ e.leaves → Literal.Unsigned x)
    (hvars : ∀ v, .var v ∈ e.leaves → Token.isIdentifier v = true) : Spells e.text.toList e.plain := by
  induction e with
  | literal x => exact spells_literal (hliterals x (List.mem_singleton_self _))
  | constant c =>
      rw [text, write, String.empty_append]
      exact spells_constant c
  | var v =>
      rw [text, write, String.empty_append]
      exact spells_var (hvars v (List.mem_singleton_self _))
  | call f a ih =>
      have h := (ih hliterals hvars).call (calls_func f) (builds_func f _)
      simpa [text_call, plain] using h
  | call₂ f a b iha ihb =>
      have ha := iha (fun x hx => hliterals x (List.mem_append_left _ hx))
        fun v hv => hvars v (List.mem_append_left _ hv)
      have hb := ihb (fun x hx => hliterals x (List.mem_append_right _ hx))
        fun v hv => hvars v (List.mem_append_right _ hv)
      have h := ha.call₂ (calls_biFunc f) hb (.bifunc f _ _)
      simpa [text_call₂, plain] using h
  | op o a b iha ihb =>
      have ha := iha (fun x hx => hliterals x (List.mem_append_left _ hx))
        fun v hv => hvars v (List.mem_append_left _ hv)
      have hb := ihb (fun x hx => hliterals x (List.mem_append_right _ hx))
        fun v hv => hvars v (List.mem_append_right _ hv)
      simpa [text_op, plain] using ha.op o hb

/-- The numbers of a formula that was read are magnitudes, or infinite. -/
theorem Expr.literal_cases_of_parse {source : String} {e : Expr Float} (h : Expr.parse source = .ok e)
    (hx : .literal x ∈ e.leaves) :
    (exponentBits x ≠ 2047 ∧ sign x = .positive) ∨ x = Binary.infinity := by
  rcases literal_of_parse h hx with rfl | ⟨-, -, d, -, rfl⟩
  · exact .inl ⟨by decide, rfl⟩
  · exact d.toFloat_cases

end Doubles

end FlowShader
