import FlowShader.Expr
import FlowShader.Token.Lexer
import Mathlib.Tactic.Tauto

namespace FlowShader

variable {L : Type} [Literal L]

namespace Literal

/-- A number with a text of its own: finite, and of two equal zeros the one without a sign. -/
def Plain (x : L) : Prop := isFinite x = true ∧ ((x == 0) = true → x = 0)

def magnitudeText (x : L) : String := Expr.literalText (if Scalar.lt x 0 then -x else x)

/-- Literals that can be read off their texts. -/
class Legible (L : Type) [Literal L] : Prop where
  magnitude_ne (x : L) : isFinite x = true → (magnitudeText x).toList ≠ []
  magnitude_chars (x : L) : isFinite x = true → ∀ c ∈ (magnitudeText x).toList, c.isDigit ∨ c = '.'
  eq_of_magnitude (x y : L) : Plain x → Plain y → Scalar.lt x 0 = Scalar.lt y 0 →
    magnitudeText x = magnitudeText y → x = y

end Literal

/-- The lexer reads the name as one identifier. -/
def Token.isIdentifier (name : String) : Bool :=
  match name.toList with
  | [] => false
  | c :: rest => isNameStart c && rest.all isNameChar && ofWord name == .ident name

namespace Expr

/-- Variables are identifiers and literals have texts of their own. -/
def Legible : Expr L → Prop
  | literal x => Literal.Plain x
  | constant _ => True
  | var v => Token.isIdentifier v = true
  | call _ a => a.Legible
  | call₂ _ a b | op _ a b => a.Legible ∧ b.Legible

def isWordChar (c : Char) : Bool := Token.isNameChar c || c == '.'

/-- What can stand behind a formula: nothing that would extend its last word or turn it into a call. -/
def Ends (cs : List Char) : Prop := ∀ c ∈ cs.head?, isWordChar c = false ∧ c ≠ '('

def lead : Expr L → List Char
  | literal x => if Scalar.lt x 0 then [] else (Literal.magnitudeText x).toList
  | constant c => c.name.toList
  | var v => v.toList
  | call f _ => f.name.toList
  | call₂ f _ _ => f.name.toList
  | op _ _ _ => []

def trail : Expr L → List Char
  | literal x => if Scalar.lt x 0 then '(' :: '-' :: ((Literal.magnitudeText x).toList ++ [')']) else []
  | constant _ | var _ => []
  | call _ a => '(' :: (a.text.toList ++ [')'])
  | call₂ _ a b => '(' :: (a.text.toList ++ ',' :: ' ' :: (b.text.toList ++ [')']))
  | op o a b => '(' :: (a.text.toList ++ ' ' :: o.symbol :: ' ' :: (b.text.toList ++ [')']))

theorem text_toList (e : Expr L) : e.text.toList = e.lead ++ e.trail := by
  cases e with
  | literal x =>
      cases h : Scalar.lt x 0 <;> simp [text, write, lead, trail, Literal.magnitudeText, h, toString]
  | constant c | var v => simp [text, write, lead, trail]
  | call f a => simp [text_call, lead, trail]
  | call₂ f a b => simp [text_call₂, lead, trail]
  | op o a b => simp [text_op, lead, trail]

theorem lead_append_inj {u v r s : List Char} (hu : ∀ c ∈ u, isWordChar c = true)
    (hv : ∀ c ∈ v, isWordChar c = true) (hr : ∀ c ∈ r.head?, isWordChar c = false)
    (hs : ∀ c ∈ s.head?, isWordChar c = false) (h : u ++ r = v ++ s) : u = v ∧ r = s := by
  induction u generalizing v with
  | nil =>
      cases v with
      | nil => exact ⟨rfl, h⟩
      | cons d v =>
          have hd := hv d (by simp)
          rw [hr d (by simp [show r = d :: (v ++ s) from h])] at hd
          exact absurd hd (by simp)
  | cons c u ih =>
      cases v with
      | nil =>
          have hc := hu c (by simp)
          rw [hs c (by simp [show s = c :: (u ++ r) from h.symm])] at hc
          exact absurd hc (by simp)
      | cons d v =>
          obtain ⟨rfl, ht⟩ := List.cons.inj h
          obtain ⟨rfl, he⟩ := ih (fun c hc => hu c (by simp [hc])) (fun c hc => hv c (by simp [hc])) ht
          exact ⟨rfl, he⟩

end Expr

theorem Constant.name_chars (c : Constant) : ∀ d ∈ c.name.toList, Token.isNameChar d = true := by
  rw [← List.all_eq_true]
  cases c <;> rfl

theorem Func.name_chars (f : Func) : ∀ d ∈ f.name.toList, Token.isNameChar d = true := by
  rw [← List.all_eq_true]
  cases f <;> rfl

theorem BiFunc.name_chars (f : BiFunc) : ∀ d ∈ f.name.toList, Token.isNameChar d = true := by
  rw [← List.all_eq_true]
  cases f <;> rfl

theorem Constant.name_head (c : Constant) :
    ∃ d rest, c.name.toList = d :: rest ∧ Token.isNameStart d = true := by
  cases c <;> exact ⟨_, _, rfl, by decide⟩

theorem Func.name_head (f : Func) : ∃ d rest, f.name.toList = d :: rest ∧ Token.isNameStart d = true := by
  cases f <;> exact ⟨_, _, rfl, by decide⟩

theorem BiFunc.name_head (f : BiFunc) : ∃ d rest, f.name.toList = d :: rest ∧ Token.isNameStart d = true := by
  cases f <;> exact ⟨_, _, rfl, by decide⟩

def Func.callable : Func → Callable
  | .atan => .arctangent
  | f => .func f

theorem Token.ofWord_constant (c : Constant) : ofWord c.name = .constant c := by
  cases c <;> decide

theorem Token.ofWord_func (f : Func) : ofWord f.name = .function f.name f.callable := by
  cases f <;> decide

theorem Token.ofWord_biFunc (f : BiFunc) : ofWord f.name = .function f.name (.bifunc f) := by
  cases f <;> decide

theorem Func.callable_ne_bifunc (f : Func) (g : BiFunc) : f.callable ≠ .bifunc g := by
  cases f <;> simp [callable]

theorem Func.callable_injective {f g : Func} (h : f.callable = g.callable) : f = g := by
  cases f <;> cases g <;> simp_all [callable]

theorem Token.ofWord_of_isIdentifier {v : String} (h : isIdentifier v = true) : ofWord v = .ident v := by
  unfold isIdentifier at h
  split at h
  · simp at h
  · simp only [Bool.and_eq_true, beq_iff_eq] at h
    exact h.2

theorem Token.chars_of_isIdentifier {v : String} (h : isIdentifier v = true) :
    ∃ c rest, v.toList = c :: rest ∧ isNameStart c = true ∧ ∀ d ∈ rest, isNameChar d = true := by
  unfold isIdentifier at h
  split at h
  · simp at h
  · next c rest hv =>
    simp only [Bool.and_eq_true, List.all_eq_true] at h
    exact ⟨c, rest, hv, h.1.1, h.1.2⟩

theorem Operator.symbol_injective {o p : Operator} (h : o.symbol = p.symbol) : o = p := by
  cases o <;> cases p <;> simp_all [symbol]

theorem Token.isNameChar_of_isNameStart {c : Char} (h : isNameStart c = true) : isNameChar c = true := by
  simp only [isNameStart, isNameChar, Char.isAlphanum, Bool.or_eq_true] at h ⊢
  tauto

namespace Expr

theorem isWordChar_of_isNameChar {c : Char} (h : Token.isNameChar c = true) : isWordChar c = true := by
  simp [isWordChar, h]

theorem not_isNameStart_of_digit {c : Char} (h : c.isDigit = true ∨ c = '.') : Token.isNameStart c = false := by
  rcases h with h | rfl
  · simp only [Char.isDigit, Bool.and_eq_true, decide_eq_true_eq, ge_iff_le, UInt32.le_iff_toNat_le] at h
    have hc : c ≠ '_' := by rintro rfl; simp at h
    have halpha : c.isAlpha = (decide (65 ≤ c.val ∧ c.val ≤ 90) || decide (97 ≤ c.val) && decide (c.val ≤ 122)) := rfl
    simp [Token.isNameStart, halpha, UInt32.le_iff_toNat_le, hc] at h ⊢
    omega
  · decide

theorem Ends.cons {c : Char} {r : List Char} (h : isWordChar c = false) (hc : c ≠ '(') : Ends (c :: r) := by
  intro d hd
  obtain rfl : c = d := by simpa using hd
  exact ⟨h, hc⟩

theorem Ends.nil : Ends [] := by
  intro c hc
  simp at hc

def isWord : Expr L → Bool
  | literal x => !Scalar.lt x 0
  | constant _ | var _ => true
  | _ => false

theorem trail_eq (e : Expr L) :
    (e.isWord = true ∧ e.trail = []) ∨ (e.isWord = false ∧ ∃ t, e.trail = '(' :: t) := by
  cases e with
  | literal x => cases h : Scalar.lt x 0 <;> simp [isWord, trail, h]
  | _ => simp [isWord, trail]

variable [Literal.Legible L]

theorem magnitude_wordChars {x : L} (hx : Literal.Plain x) :
    ∀ c ∈ (Literal.magnitudeText x).toList, isWordChar c = true := by
  intro c hc
  rcases Literal.Legible.magnitude_chars x hx.1 c hc with h | rfl
  · simp [isWordChar, Token.isNameChar, Char.isAlphanum, h]
  · decide

theorem lead_chars {e : Expr L} (he : e.Legible) : ∀ c ∈ e.lead, isWordChar c = true := by
  intro c hc
  cases e with
  | literal x =>
      simp only [lead] at hc
      split at hc
      · simp at hc
      · exact magnitude_wordChars he c hc
  | constant k => exact isWordChar_of_isNameChar (Constant.name_chars k c hc)
  | var v =>
      obtain ⟨d, rest, hv, hd, hrest⟩ := Token.chars_of_isIdentifier he
      simp only [lead, hv, List.mem_cons] at hc
      rcases hc with rfl | hc
      · exact isWordChar_of_isNameChar (Token.isNameChar_of_isNameStart hd)
      · exact isWordChar_of_isNameChar (hrest c hc)
  | call f a => exact isWordChar_of_isNameChar (Func.name_chars f c hc)
  | call₂ f a b => exact isWordChar_of_isNameChar (BiFunc.name_chars f c hc)
  | op o a b => simp [lead] at hc

theorem lead_eq_of_text_append {e f : Expr L} (he : e.Legible) (hf : f.Legible) {r s : List Char}
    (hr : Ends r) (hs : Ends s) (h : e.text.toList ++ r = f.text.toList ++ s) :
    e.lead = f.lead ∧ e.trail ++ r = f.trail ++ s := by
  have hhead (e : Expr L) {r : List Char} (hr : Ends r) : ∀ c ∈ (e.trail ++ r).head?, isWordChar c = false := by
    intro c hc
    rcases e.trail_eq with ⟨-, ht⟩ | ⟨-, t, ht⟩
    · rw [ht, List.nil_append] at hc
      exact (hr c hc).1
    · obtain rfl : '(' = c := by simpa [ht] using hc
      decide
  rw [text_toList, text_toList, List.append_assoc, List.append_assoc] at h
  exact lead_append_inj (lead_chars he) (lead_chars hf) (hhead e hr) (hhead f hs) h

omit [Literal.Legible L] in
theorem isWord_eq_of_trail {e f : Expr L} {r s : List Char} (hr : Ends r) (hs : Ends s)
    (h : e.trail ++ r = f.trail ++ s) : e.isWord = f.isWord := by
  rcases e.trail_eq with ⟨he, hte⟩ | ⟨he, t, hte⟩ <;> rcases f.trail_eq with ⟨hf, htf⟩ | ⟨hf, u, htf⟩
  · rw [he, hf]
  · rw [hte, htf, List.nil_append] at h
    exact absurd rfl (hr '(' (by simp [h])).2
  · rw [hte, htf, List.nil_append] at h
    exact absurd rfl (hs '(' (by simp [← h])).2
  · rw [he, hf]

theorem magnitude_head {x : L} (hx : Literal.Plain x) :
    ∃ c rest, (Literal.magnitudeText x).toList = c :: rest ∧ Token.isNameStart c = false := by
  cases h : (Literal.magnitudeText x).toList with
  | nil => exact absurd h (Literal.Legible.magnitude_ne x hx.1)
  | cons c rest =>
      have hc := Literal.Legible.magnitude_chars x hx.1 c (by simp [h])
      exact ⟨c, rest, rfl, not_isNameStart_of_digit hc⟩

theorem lead_ne_nil {e : Expr L} (he : e.Legible) (hw : e.isWord = true) : e.lead ≠ [] := by
  cases e with
  | literal x =>
      have hx : Scalar.lt x 0 = false := by simpa [isWord] using hw
      simpa [lead, hx] using Literal.Legible.magnitude_ne x he.1
  | constant k => cases k <;> simp [lead, Constant.name]
  | var v =>
      obtain ⟨c, rest, hv, -⟩ := Token.chars_of_isIdentifier he
      simp [lead, hv]
  | call f a | call₂ f a b | op o a b => simp [isWord] at hw

/-- The first character of a formula is part of its first word, or else a parenthesis. -/
theorem text_head {e : Expr L} (he : e.Legible) {r : List Char} :
    ∀ c ∈ (e.text.toList ++ r).head?, isWordChar c = true ∨ c = '(' := by
  intro c hc
  rw [text_toList, List.append_assoc] at hc
  cases h : e.lead with
  | nil =>
      rcases e.trail_eq with ⟨hw, -⟩ | ⟨-, t, ht⟩
      · exact absurd h (lead_ne_nil he hw)
      · right
        simpa [h, ht, eq_comm] using hc
  | cons d rest =>
      left
      obtain rfl : d = c := by simpa [h] using hc
      exact lead_chars he d (by simp [h])

/-- Formulas of one kind, and with one name, over any parts. -/
inductive Kin : Expr L → Expr L → Prop
  | literal (x y : L) : Kin (.literal x) (.literal y)
  | constant (c : Constant) : Kin (.constant c) (.constant c)
  | var (v : String) : Kin (.var v) (.var v)
  | call (g : Func) (a b : Expr L) : Kin (.call g a) (.call g b)
  | call₂ (g : BiFunc) (a b c d : Expr L) : Kin (.call₂ g a b) (.call₂ g c d)
  | op (o p : Operator) (a b c d : Expr L) : Kin (.op o a b) (.op p c d)

theorem eq_literal_of_lead {x : L} {f : Expr L} (hx : Literal.Plain x) (hf : f.Legible) {r s : List Char}
    (hr : Ends r) (hs : Ends s) (hlead : (literal x).lead = f.lead)
    (htrail : (literal x).trail ++ r = f.trail ++ s) : ∃ y, f = literal y := by
  have hword := isWord_eq_of_trail hr hs htrail
  cases f with
  | literal y => exact ⟨y, rfl⟩
  | constant c =>
      have hneg : Scalar.lt x 0 = false := by simpa [isWord] using hword
      obtain ⟨d, rest, hd, hstart⟩ := magnitude_head hx
      obtain ⟨k, more, hk, hname⟩ := c.name_head
      simp only [lead, hneg, Bool.false_eq_true, if_false, hd, hk, List.cons.injEq] at hlead
      rw [hlead.1, hname] at hstart
      exact absurd hstart (by simp)
  | var v =>
      have hneg : Scalar.lt x 0 = false := by simpa [isWord] using hword
      obtain ⟨d, rest, hd, hstart⟩ := magnitude_head hx
      obtain ⟨k, more, hv, hname, -⟩ := Token.chars_of_isIdentifier hf
      simp only [lead, hneg, Bool.false_eq_true, if_false, hd, hv, List.cons.injEq] at hlead
      rw [hlead.1, hname] at hstart
      exact absurd hstart (by simp)
  | call g a =>
      have hneg : Scalar.lt x 0 = true := by simpa [isWord] using hword
      obtain ⟨d, rest, hd, -⟩ := g.name_head
      simp [lead, hneg, hd] at hlead
  | call₂ g a b =>
      have hneg : Scalar.lt x 0 = true := by simpa [isWord] using hword
      obtain ⟨d, rest, hd, -⟩ := g.name_head
      simp [lead, hneg, hd] at hlead
  | op o a b =>
      have hneg : Scalar.lt x 0 = true := by simpa [isWord] using hword
      simp only [trail, hneg, if_true, List.cons_append, List.append_assoc, List.cons.injEq, true_and] at htrail
      have hdash := text_head hf.1 (r := _) '-' (by rw [← htrail]; rfl)
      exact absurd hdash (by decide)

theorem literal_append_inj {x y : L} (hx : Literal.Plain x) (hy : Literal.Plain y) {r s : List Char}
    (hr : Ends r) (hs : Ends s) (hlead : (literal x).lead = (literal y).lead)
    (htrail : (literal x).trail ++ r = (literal y).trail ++ s) : x = y ∧ r = s := by
  have hsign : Scalar.lt x 0 = Scalar.lt y 0 := by simpa [isWord] using isWord_eq_of_trail hr hs htrail
  cases hneg : Scalar.lt y 0 with
  | false =>
      simp only [lead, trail, hsign, hneg, Bool.false_eq_true, if_false, List.nil_append] at hlead htrail
      exact ⟨Literal.Legible.eq_of_magnitude x y hx hy hsign (String.toList_inj.1 hlead), htrail⟩
  | true =>
      simp only [trail, hsign, hneg, if_true, List.cons_append, List.cons.injEq, true_and,
        List.append_assoc, List.nil_append] at htrail
      have hclose : isWordChar ')' = false := by decide
      obtain ⟨hm, ht⟩ := lead_append_inj (magnitude_wordChars hx) (magnitude_wordChars hy)
        (by simpa using hclose) (by simpa using hclose) htrail
      exact ⟨Literal.Legible.eq_of_magnitude x y hx hy hsign (String.toList_inj.1 hm), (List.cons.inj ht).2⟩

theorem ofWord_eq_of_toList {v w : String} (h : v.toList = w.toList) : Token.ofWord v = Token.ofWord w := by
  rw [String.toList_inj.1 h]

/-- The first word of a text, and what follows it, tell the kind of a formula and its name. -/
theorem kin_of_lead {e f : Expr L} (he : e.Legible) (hf : f.Legible) {r s : List Char} (hr : Ends r) (hs : Ends s)
    (hlead : e.lead = f.lead) (htrail : e.trail ++ r = f.trail ++ s) : Kin e f := by
  have hword := isWord_eq_of_trail hr hs htrail
  cases e with
  | literal x =>
      obtain ⟨y, rfl⟩ := eq_literal_of_lead he hf hr hs hlead htrail
      exact .literal x y
  | constant c =>
      cases f with
      | literal y =>
          obtain ⟨x, hx⟩ := eq_literal_of_lead hf he hs hr hlead.symm htrail.symm
          cases hx
      | constant d =>
          have hw := ofWord_eq_of_toList hlead
          rw [Token.ofWord_constant, Token.ofWord_constant, Token.constant.injEq] at hw
          exact hw ▸ .constant c
      | var v =>
          have hw := ofWord_eq_of_toList hlead
          rw [Token.ofWord_constant, Token.ofWord_of_isIdentifier hf] at hw
          cases hw
      | call g b | call₂ g b c | op o b c => cases hword
  | var v =>
      cases f with
      | literal y =>
          obtain ⟨x, hx⟩ := eq_literal_of_lead hf he hs hr hlead.symm htrail.symm
          cases hx
      | constant d =>
          have hw := ofWord_eq_of_toList hlead
          rw [Token.ofWord_constant, Token.ofWord_of_isIdentifier he] at hw
          cases hw
      | var w => exact String.toList_inj.1 hlead ▸ .var v
      | call g b | call₂ g b c | op o b c => cases hword
  | call g a =>
      cases f with
      | literal y =>
          obtain ⟨x, hx⟩ := eq_literal_of_lead hf he hs hr hlead.symm htrail.symm
          cases hx
      | constant d | var w => cases hword
      | call k b =>
          have hw := ofWord_eq_of_toList hlead
          rw [Token.ofWord_func, Token.ofWord_func, Token.function.injEq] at hw
          exact Func.callable_injective hw.2 ▸ .call g a b
      | call₂ k b c =>
          have hw := ofWord_eq_of_toList hlead
          rw [Token.ofWord_func, Token.ofWord_biFunc, Token.function.injEq] at hw
          exact absurd hw.2 (Func.callable_ne_bifunc g k)
      | op o b c =>
          obtain ⟨d, rest, hd, -⟩ := g.name_head
          simp [lead, hd] at hlead
  | call₂ g a b =>
      cases f with
      | literal y =>
          obtain ⟨x, hx⟩ := eq_literal_of_lead hf he hs hr hlead.symm htrail.symm
          cases hx
      | constant d | var w => cases hword
      | call k c =>
          have hw := ofWord_eq_of_toList hlead
          rw [Token.ofWord_func, Token.ofWord_biFunc, Token.function.injEq] at hw
          exact absurd hw.2.symm (Func.callable_ne_bifunc k g)
      | call₂ k c d =>
          have hw := ofWord_eq_of_toList hlead
          rw [Token.ofWord_biFunc, Token.ofWord_biFunc, Token.function.injEq, Callable.bifunc.injEq] at hw
          exact hw.2 ▸ .call₂ g a b c d
      | op o c d =>
          obtain ⟨d, rest, hd, -⟩ := g.name_head
          simp [lead, hd] at hlead
  | op o a b =>
      cases f with
      | literal y =>
          obtain ⟨x, hx⟩ := eq_literal_of_lead hf he hs hr hlead.symm htrail.symm
          cases hx
      | constant d | var w => cases hword
      | call k c =>
          obtain ⟨d, rest, hd, -⟩ := k.name_head
          simp [lead, hd] at hlead
      | call₂ k c d =>
          obtain ⟨d, rest, hd, -⟩ := k.name_head
          simp [lead, hd] at hlead
      | op p c d => exact .op o p a b c d

theorem ends_close (r : List Char) : Ends (')' :: r) := .cons (by decide) (by decide)

theorem ends_comma (r : List Char) : Ends (',' :: r) := .cons (by decide) (by decide)

theorem ends_space (r : List Char) : Ends (' ' :: r) := .cons (by decide) (by decide)

theorem text_append_inj {e f : Expr L} (he : e.Legible) (hf : f.Legible) {r s : List Char}
    (hr : Ends r) (hs : Ends s) (h : e.text.toList ++ r = f.text.toList ++ s) : e = f ∧ r = s := by
  induction e generalizing f r s with
  | literal x =>
      obtain ⟨hlead, htrail⟩ := lead_eq_of_text_append he hf hr hs h
      cases kin_of_lead he hf hr hs hlead htrail with
      | literal _ y =>
          obtain ⟨hxy, hrs⟩ := literal_append_inj he hf hr hs hlead htrail
          exact ⟨by rw [hxy], hrs⟩
  | constant c =>
      obtain ⟨hlead, htrail⟩ := lead_eq_of_text_append he hf hr hs h
      cases kin_of_lead he hf hr hs hlead htrail with
      | constant => exact ⟨rfl, htrail⟩
  | var v =>
      obtain ⟨hlead, htrail⟩ := lead_eq_of_text_append he hf hr hs h
      cases kin_of_lead he hf hr hs hlead htrail with
      | var => exact ⟨rfl, htrail⟩
  | call g a ih =>
      obtain ⟨hlead, htrail⟩ := lead_eq_of_text_append he hf hr hs h
      cases kin_of_lead he hf hr hs hlead htrail with
      | call _ _ b =>
          simp only [trail, List.cons_append, List.append_assoc, List.cons.injEq, true_and,
            List.nil_append] at htrail
          obtain ⟨hab, ht⟩ := ih (f := b) he hf (ends_close r) (ends_close s) htrail
          exact ⟨by rw [hab], (List.cons.inj ht).2⟩
  | call₂ g a b iha ihb =>
      obtain ⟨hlead, htrail⟩ := lead_eq_of_text_append he hf hr hs h
      cases kin_of_lead he hf hr hs hlead htrail with
      | call₂ _ _ _ c d =>
          simp only [trail, List.cons_append, List.append_assoc, List.cons.injEq, true_and,
            List.nil_append] at htrail
          obtain ⟨hac, ht⟩ := iha he.1 hf.1 (ends_comma _) (ends_comma _) htrail
          simp only [List.cons.injEq, true_and] at ht
          obtain ⟨hbd, hrs⟩ := ihb he.2 hf.2 (ends_close r) (ends_close s) ht
          exact ⟨by rw [hac, hbd], (List.cons.inj hrs).2⟩
  | op o a b iha ihb =>
      obtain ⟨hlead, htrail⟩ := lead_eq_of_text_append he hf hr hs h
      cases kin_of_lead he hf hr hs hlead htrail with
      | op _ p _ _ c d =>
          simp only [trail, List.cons_append, List.append_assoc, List.cons.injEq, true_and,
            List.nil_append] at htrail
          obtain ⟨hac, ht⟩ := iha he.1 hf.1 (ends_space _) (ends_space _) htrail
          simp only [List.cons.injEq, true_and] at ht
          obtain ⟨hbd, hrs⟩ := ihb he.2 hf.2 (ends_close r) (ends_close s) ht.2
          exact ⟨by rw [hac, hbd, Operator.symbol_injective ht.1], (List.cons.inj hrs).2⟩

theorem text_inj {e f : Expr L} (he : e.Legible) (hf : f.Legible) (h : e.text = f.text) : e = f :=
  (text_append_inj he hf .nil .nil (by rw [h])).1

end Expr

end FlowShader
