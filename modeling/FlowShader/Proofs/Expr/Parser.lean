import Mathlib
import FlowShader.Expr.Parser
import FlowShader.Scalar.Double
import FlowShader.Proofs.Expr.Grammar

namespace FlowShader

open Grammar

namespace Grammar

variable {L : Type} [Literal L] {c : Category} {ts us : List Located} {t : Located} {o : Operator}
  {e lhs rhs : Expr L}

/-- Strength of the weakest operator that a phrase of the category may have outside parentheses. -/
def Category.rank : Category → Nat
  | expr => 1
  | term => 2
  | neg | power => 3
  | primary => 5

theorem Derives.toNeg (h : Derives c ts e) (hc : 3 ≤ c.rank) : Derives .neg ts e := by
  cases c with
  | expr | term => simp [Category.rank] at hc
  | neg => exact h
  | power => exact .power h
  | primary => exact .power (.primary h)

theorem Derives.toTerm (h : Derives c ts e) (hc : 2 ≤ c.rank) : Derives .term ts e := by
  cases c with
  | expr => simp [Category.rank] at hc
  | term => exact h
  | neg | power | primary => exact .neg (h.toNeg (by simp [Category.rank]))

theorem Derives.toExpr (h : Derives c ts e) : Derives .expr ts e := by
  cases c with
  | expr => exact h
  | term | neg | power | primary => exact .term (h.toTerm (by simp [Category.rank]))

theorem Derives.toLhs (h : Derives c ts e) (hc : (lhsCategory o).rank ≤ c.rank) :
    Derives (lhsCategory o) ts e := by
  cases o with
  | add | sub => exact h.toExpr
  | mul | div | mod => exact h.toTerm hc
  | pow =>
      cases c with
      | primary => exact h
      | expr | term | neg | power => simp [Category.rank, lhsCategory] at hc

theorem Derives.toRhs (h : Derives c ts e) (hc : (rhsCategory o).rank ≤ c.rank) :
    Derives (rhsCategory o) ts e := by
  cases o with
  | add | sub => exact h.toTerm hc
  | mul | div | mod | pow => exact h.toNeg hc

end Grammar

namespace Parser

variable {L : Type} [Literal L] {c d : Category} {ts us : List Located} {t : Located} {o : Operator}
  {e lhs rhs : Expr L} {output outs : List (Expr L)} {stack ops : List Pending} {position : Nat}

def rightRank (strength : Nat) : Nat := if strength < 2 then 2 else 3

/-- A phrase of the category may become the operand of what is on top. -/
def Fits (c : Category) : List Pending → Prop
  | [] => True
  | top :: _ => ∀ s ∈ top.precedence?, rightRank s ≤ c.rank

def Still (binds : Nat → Bool) : List Pending → Prop
  | [] => True
  | top :: _ => ∀ s ∈ top.precedence?, binds s = false

theorem Pending.precedence?_mem {top : Pending} {s : Nat} (h : s ∈ top.precedence?) : 1 ≤ s ∧ s ≤ 4 := by
  cases top with
  | operator o _ =>
      obtain rfl := Option.some.inj h
      cases o <;> simp [Operator.precedence]
  | negation =>
      obtain rfl := Option.some.inj h
      simp
  | group | call => exact absurd h nofun

theorem fits_of_three_le (hc : 3 ≤ c.rank) : ∀ stack, Fits c stack
  | [] => trivial
  | _ :: _ => fun s _ => by
      refine le_trans ?_ hc
      rw [rightRank]
      split <;> simp

theorem fits_category_iff : Fits (category o) stack ↔ Still (yieldsTo o) stack := by
  cases stack with
  | nil => rfl
  | cons top stack =>
      refine forall₂_congr fun s hs => ?_
      obtain ⟨hlow, hhigh⟩ := Pending.precedence?_mem hs
      interval_cases s <;> cases o <;> decide

theorem rightRank_precedence (o : Operator) : rightRank o.precedence = (rhsCategory o).rank := by
  cases o <;> rfl

/-- The tokens are read, an operand is due, and the stacks hold what they left. -/
inductive Open : List Located → List (Expr L) → List Pending → Prop
  | start : Open [] [] []
  | operator {ts us : List Located} {t : Located} {o : Operator} {lhs : Expr L}
      {output : List (Expr L)} {stack : List Pending} {position : Nat} :
      Open ts output stack → Fits (category o) stack → Derives (lhsCategory o) us lhs →
      t.token.sign? = some o →
      Open (ts ++ (us ++ [t])) (lhs :: output) (.operator o position :: stack)
  | negation {ts : List Located} {t : Located} {output : List (Expr L)} {stack : List Pending}
      {position : Nat} :
      Open ts output stack → t.token.sign? = some .sub →
      Open (ts ++ [t]) output (.negation position :: stack)
  | group {ts : List Located} {t : Located} {output : List (Expr L)} {stack : List Pending}
      {position : Nat} :
      Open ts output stack → t.token = .lparen →
      Open (ts ++ [t]) output (.group position :: stack)
  | call {ts : List Located} {t p : Located} {name : String} {callable : Callable}
      {output : List (Expr L)} {stack : List Pending} {position : Nat} :
      Open ts output stack → t.token = .function name callable →
      Callable.ofName? name = some callable → p.token = .lparen →
      Open (ts ++ [t, p]) output (.call name callable 1 position :: stack)
  | argument {ts us : List Located} {t p q : Located} {name : String} {callable : Callable}
      {args output : List (Expr L)} {stack : List Pending} {position : Nat} :
      Open ts output stack → t.token = .function name callable →
      Callable.ofName? name = some callable → p.token = .lparen → Arguments us args →
      q.token = .comma →
      Open (ts ++ (t :: p :: us ++ [q])) (args.reverse ++ output)
        (.call name callable (args.length + 1) position :: stack)

theorem Still.unwind {binds : Nat → Bool} (h : Still binds stack) :
    unwind binds output stack = .ok (output, stack) := by
  cases stack with
  | nil => rfl
  | cons top stack =>
      have hany : top.precedence?.any binds = false := by
        cases hs : top.precedence? with
        | none => rfl
        | some s => exact h s hs
      rw [Parser.unwind, hany]
      rfl

theorem unwind_operator {binds : Nat → Bool} (h : binds o.precedence = true) :
    unwind binds (rhs :: lhs :: output) (.operator o position :: stack) =
      unwind binds (.op o lhs rhs :: output) stack := by
  simp only [unwind, Pending.precedence?, Option.any_some, h, apply, ↓reduceIte]

theorem unwind_negation {binds : Nat → Bool} (h : binds 3 = true) :
    unwind binds (e :: output) (.negation position :: stack) =
      unwind binds (.op .sub (.literal 0) e :: output) stack := by
  simp only [unwind, Pending.precedence?, Option.any_some, h, apply, negate, ↓reduceIte]

/-- After the tokens, the stacks end with a complete phrase of rank `least` or more, and nothing
that `binds` waits for it. -/
def Settled (binds : Nat → Bool) (least : Nat) (ts : List Located)
    (r : Except Stop (List (Expr L) × List Pending)) : Prop :=
  ∃ before c us e output stack, ts = before ++ us ∧ r = .ok (e :: output, stack) ∧
    Open before output stack ∧ Derives c us e ∧ least ≤ c.rank ∧ Still binds stack

theorem Open.settled {binds : Nat → Bool} {least : Nat} (hopen : Open ts output stack)
    (he : Derives c us e) (hleast : least ≤ c.rank) (hstill : Still binds stack) :
    Settled binds least (ts ++ us) (unwind binds (e :: output) stack) :=
  ⟨_, _, _, _, _, _, rfl, hstill.unwind, hopen, he, hleast, hstill⟩

theorem Open.unwind {binds : Nat → Bool} {least : Nat}
    (hop : ∀ o : Operator, binds o.precedence = true → least ≤ (category o).rank)
    (hneg : binds 3 = true → least ≤ 3) (hopen : Open ts output stack) (hfits : Fits c stack)
    (he : Derives c us e) (hleast : least ≤ c.rank) :
    Settled binds least (ts ++ us) (Parser.unwind binds (e :: output) stack) := by
  induction hopen generalizing c us e with
  | start => exact Open.start.settled he hleast trivial
  | @operator ts vs t o lhs output stack position hopen hunder hlhs hsign ih =>
      by_cases hbinds : binds o.precedence = true
      · have hrhs := he.toRhs (o := o) (rightRank_precedence o ▸ hfits _ rfl)
        rw [unwind_operator hbinds]
        simpa using ih hunder (.binary hlhs hsign hrhs) (hop o hbinds)
      · refine (Open.operator hopen hunder hlhs hsign).settled he hleast fun s hs => ?_
        obtain rfl := Option.some.inj hs
        exact Bool.eq_false_iff.2 hbinds
  | negation hopen hsign ih =>
      by_cases hbinds : binds 3 = true
      · have hoperand := he.toNeg (hfits _ rfl)
        rw [unwind_negation hbinds]
        simpa using ih (fits_of_three_le le_rfl _) (.negation hsign hoperand) (hneg hbinds)
      · refine (Open.negation hopen hsign).settled he hleast fun s hs => ?_
        obtain rfl := Option.some.inj hs
        exact Bool.eq_false_iff.2 hbinds
  | group hopen ht => exact (Open.group hopen ht).settled he hleast nofun
  | call hopen ht hname hp => exact (Open.call hopen ht hname hp).settled he hleast nofun
  | argument hopen ht hname hp hargs hq =>
      exact (Open.argument hopen ht hname hp hargs hq).settled he hleast nofun

theorem Open.unwind_yieldsTo (o : Operator) (hopen : Open ts output stack)
    (he : Derives .primary us e) :
    Settled (yieldsTo o) (lhsCategory o).rank (ts ++ us) (Parser.unwind (yieldsTo o) (e :: output) stack) := by
  refine hopen.unwind (fun o' => ?_) ?_ (fits_of_three_le (by decide) _) he ?_
  · cases o <;> cases o' <;> decide
  · cases o <;> decide
  · cases o <;> decide

theorem Open.unwind_all (hopen : Open ts output stack) (he : Derives .primary us e) :
    Settled (fun _ => true) 1 (ts ++ us) (Parser.unwind (fun _ => true) (e :: output) stack) := by
  refine hopen.unwind (fun o _ => ?_) (by decide) (fits_of_three_le (by decide) _) he (by decide)
  cases o <;> decide

omit [Literal L] in
theorem applyCall_of_builds {name : String} {callable : Callable} {args : List (Expr L)}
    (h : Builds callable args e) :
    applyCall name callable args.length position (args.reverse ++ output) = .ok (e :: output) := by
  cases h <;> rfl

/-- The stacks after the tokens, with an operand due or just completed. -/
inductive Reading : Bool → List Located → List (Expr L) → List Pending → Prop
  | due {ts : List Located} {output : List (Expr L)} {stack : List Pending} :
      Open ts output stack → Reading true ts output stack
  | complete {ts us : List Located} {e : Expr L} {output : List (Expr L)} {stack : List Pending} :
      Open ts output stack → Derives .primary us e → Reading false (ts ++ us) (e :: output) stack

def Explained (ts : List Located) : Except Stop (Expr L) → Prop
  | .ok e => Derives .expr ts e
  | .error (.fault _) => True
  | .error (.shortage _) => False

theorem Reading.unwind_all (h : Reading false ts output stack) :
    Settled (fun _ => true) 1 ts (unwind (fun _ => true) output stack) := by
  cases h with
  | complete hopen he => exact hopen.unwind_all he

theorem Reading.operator (h : Reading false ts output stack) (ht : t.token.sign? = some o) :
    ∃ output' stack', unwind (yieldsTo o) output stack = .ok (output', stack') ∧
      Reading true (ts ++ [t]) output' (.operator o t.position :: stack') := by
  cases h with
  | complete hopen he =>
      obtain ⟨before, c, us, e, output, stack, hts, hunwind, hopen, he, hrank, hstill⟩ :=
        hopen.unwind_yieldsTo o he
      refine ⟨_, _, hunwind, ?_⟩
      rw [hts, List.append_assoc]
      exact .due (.operator hopen (fits_category_iff.2 hstill) (he.toLhs hrank) ht)

theorem Open.group_inv (h : Open ts output (.group position :: stack)) :
    ∃ before p, ts = before ++ [p] ∧ p.token = .lparen ∧ Open before output stack := by
  cases h with
  | group hopen hp => exact ⟨_, _, rfl, hp, hopen⟩

theorem Open.call_inv {name : String} {callable : Callable} {argc : Nat}
    (h : Open ts output (.call name callable argc position :: stack)) (he : Derives .expr us e) :
    ∃ before t p vs args output', ts ++ us = before ++ t :: p :: vs ∧
      t.token = .function name callable ∧ Callable.ofName? name = some callable ∧
      p.token = .lparen ∧ Arguments vs args ∧ e :: output = args.reverse ++ output' ∧
      argc = args.length ∧ Open before output' stack := by
  cases h with
  | call hopen ht hname hp =>
      exact ⟨_, _, _, us, [e], _, by simp, ht, hname, hp, .one he, rfl, rfl, hopen⟩
  | argument hopen ht hname hp hargs hq =>
      exact ⟨_, _, _, _, _, _, by simp, ht, hname, hp, .more hargs hq he, by simp, by simp, hopen⟩

theorem Reading.comma {output' : List (Expr L)} {stack' : List Pending} {name : String}
    {callable : Callable} {argc : Nat} (h : Reading false ts output stack) (ht : t.token = .comma)
    (hunwind : unwind (fun _ => true) output stack =
      .ok (output', .call name callable argc position :: stack')) :
    Reading true (ts ++ [t]) output' (.call name callable (argc + 1) position :: stack') := by
  obtain ⟨before, c, us, e, rest, _, rfl, hsettled, hopen, he, -, -⟩ := h.unwind_all
  cases hunwind.symm.trans hsettled
  obtain ⟨before, f, p, vs, args, output, hts, hf, hname, hp, hargs, hout, rfl, hbefore⟩ :=
    hopen.call_inv he.toExpr
  rw [hts, hout, List.append_assoc]
  exact .due (.argument hbefore hf hname hp hargs ht)

theorem Reading.close (h : Reading false ts output stack) (ht : t.token = .rparen) :
    (∃ output' stack', close output stack t.position = .ok (output', stack') ∧
      Reading false (ts ++ [t]) output' stack') ∨
    ∃ fault, Parser.close output stack t.position = .error (.fault fault) := by
  obtain ⟨before, c, us, e, rest, top, rfl, hsettled, hopen, he, -, hstill⟩ := h.unwind_all
  cases top with
  | nil => exact .inr ⟨_, by rw [Parser.close, hsettled]⟩
  | cons top stack =>
      cases top with
      | operator | negation => exact absurd (hstill _ rfl) nofun
      | group =>
          obtain ⟨before, p, rfl, hp, hopen⟩ := hopen.group_inv
          refine .inl ⟨_, _, by rw [Parser.close, hsettled], ?_⟩
          simpa using Reading.complete hopen (.group hp he.toExpr ht)
      | call name callable argc start =>
          obtain ⟨before, f, p, vs, args, output, hts, hf, hname, hp, hargs, hout, rfl, hbefore⟩ :=
            hopen.call_inv he.toExpr
          simp only [Parser.close, hsettled, hts, hout]
          by_cases haccepts : callable.accepts args.length = true
          · obtain ⟨e, hbuilds⟩ := exists_builds_iff.2 haccepts
            rw [applyCall_of_builds hbuilds]
            refine .inl ⟨_, _, rfl, ?_⟩
            simpa using Reading.complete hbefore (.call hf hname hp hargs ht hbuilds)
          · rw [applyCall, if_pos (by simpa using haccepts)]
            exact .inr ⟨_, rfl⟩

theorem Reading.finish (h : Reading false ts output stack) : Explained ts (finish output stack) := by
  obtain ⟨before, c, us, e, rest, top, rfl, hsettled, hopen, he, -, hstill⟩ := h.unwind_all
  rw [Parser.finish, hsettled]
  cases hopen with
  | start => exact he.toExpr
  | group | call | argument => trivial
  | operator | negation => exact absurd (hstill _ rfl) nofun

/-- What is still to be read after `previous`: it is as scanned, it has an end, and an operand is due
or not as `previous` says. -/
structure Ahead (previous : Option Token) (due : Bool) (tokens : List Located) : Prop where
  scanned : Scanned previous tokens
  due : previous.all Token.precedesOperand = due
  eof : ∃ t ∈ tokens, t.token = .eof

theorem Ahead.next {previous : Option Token} {due : Bool} {token : Token} {rest : List Located}
    (h : Ahead previous due (t :: rest)) (ht : t.token = token) (hne : token ≠ .eof) :
    Ahead (some token) token.precedesOperand rest := by
  obtain ⟨u, hu, heof⟩ := h.eof
  refine ⟨ht ▸ h.scanned.2, rfl, u, (List.mem_cons.1 hu).resolve_left ?_, heof⟩
  rintro rfl
  exact hne (ht.symm.trans heof)

theorem append_beforeEnd_cons {token : Token} {read rest : List Located} (ht : t.token = token)
    (hne : token ≠ .eof) : read ++ beforeEnd (t :: rest) = (read ++ [t]) ++ beforeEnd rest := by
  rw [beforeEnd_cons (ht ▸ hne), List.append_assoc]
  rfl

theorem run_explained {due : Bool} {previous : Option Token} {read tokens : List Located}
    (hreading : Reading due read output stack) (hahead : Ahead previous due tokens) :
    Explained (read ++ beforeEnd tokens) (run due output stack tokens) := by
  fun_induction run due output stack tokens generalizing read previous with
  | case1 => exact absurd hahead.eof nofun
  | case2 output stack t rest d ht ih =>
      obtain ⟨hopen⟩ := hreading
      rw [append_beforeEnd_cons ht nofun]
      exact ih (.complete hopen (.number ht)) (hahead.next ht nofun)
  | case3 output stack t rest c ht ih =>
      obtain ⟨hopen⟩ := hreading
      rw [append_beforeEnd_cons ht nofun]
      exact ih (.complete hopen (.constant ht)) (hahead.next ht nofun)
  | case5 output stack t rest name ht hrest ih =>
      obtain ⟨hopen⟩ := hreading
      rw [append_beforeEnd_cons ht nofun]
      exact ih (.complete hopen (.ident ht)) (hahead.next ht nofun)
  | case6 output stack t name callable ht p rest ih =>
      obtain ⟨hopen⟩ := hreading
      have hname := hahead.scanned.1.called _ _ ht
      have hp : Located.token ⟨.lparen, p⟩ = .lparen := rfl
      rw [append_beforeEnd_cons ht nofun, append_beforeEnd_cons hp nofun, List.append_assoc read]
      exact ih (.due (.call hopen ht hname hp)) ((hahead.next ht nofun).next hp nofun)
  | case8 output stack t rest due ht ih =>
      cases hreading with
      | due hopen =>
          rw [append_beforeEnd_cons ht nofun]
          exact ih (.due (.negation hopen (ht ▸ rfl))) (hahead.next ht nofun)
      | complete =>
          have htoken := hahead.scanned.1.operator hahead.due (o := .sub) (ht ▸ rfl)
          rw [ht] at htoken
          exact absurd htoken nofun
  | case9 output stack t rest o ht output' stack' hunwind ih =>
      obtain ⟨_, _, heq, hnext⟩ := hreading.operator (t := t) (o := o) (ht ▸ rfl)
      cases hunwind.symm.trans heq
      rw [append_beforeEnd_cons ht nofun]
      exact ih hnext (hahead.next ht nofun)
  | case10 output stack t rest o ht stop hunwind =>
      obtain ⟨_, _, heq, -⟩ := hreading.operator (t := t) (o := o) (ht ▸ rfl)
      exact absurd (hunwind.symm.trans heq) nofun
  | case11 output stack t rest ht ih =>
      obtain ⟨hopen⟩ := hreading
      rw [append_beforeEnd_cons ht nofun]
      exact ih (.due (.group hopen ht)) (hahead.next ht nofun)
  | case12 output stack t rest ht output' name callable argc start stack' hunwind ih =>
      rw [append_beforeEnd_cons ht nofun]
      exact ih (hreading.comma ht hunwind) (hahead.next ht nofun)
  | case14 output stack t rest ht stop hunwind =>
      obtain ⟨_, _, _, _, _, _, -, hsettled, -⟩ := hreading.unwind_all
      exact absurd (hunwind.symm.trans hsettled) nofun
  | case15 output stack t rest ht output' stack' hclose ih =>
      rw [append_beforeEnd_cons ht nofun]
      obtain ⟨_, _, heq, hnext⟩ | ⟨_, heq⟩ := hreading.close ht
      · cases hclose.symm.trans heq
        exact ih hnext (hahead.next ht nofun)
      · exact absurd (hclose.symm.trans heq) nofun
  | case16 output stack t rest ht stop hclose =>
      obtain ⟨_, _, heq, -⟩ | ⟨_, heq⟩ := hreading.close ht
      · exact absurd (hclose.symm.trans heq) nofun
      · cases hclose.symm.trans heq
        trivial
  | case17 output stack t rest ht =>
      rw [beforeEnd_eof ht, List.append_nil]
      exact hreading.finish
  | case4 | case7 | case13 | case18 | case19 | case20 | case21 => trivial

/-- On top of any stacks, these operands and operators unwind to `e`, as soon as all strengths from
`least` on are unwound. -/
def Pends (least : Nat) (e : Expr L) (outs : List (Expr L)) (ops : List Pending) : Prop :=
  ∀ binds : Nat → Bool, (∀ s, least ≤ s → binds s = true) → ∀ output stack,
    unwind binds (outs ++ output) (ops ++ stack) = unwind binds (e :: output) stack

theorem Pends.binary {m n : Nat} (h : Pends m rhs outs ops) (hm : n ≤ m) (ho : n ≤ o.precedence) :
    Pends n (.op o lhs rhs) (outs ++ [lhs]) (ops ++ [.operator o position]) := by
  intro binds hbinds output stack
  rw [List.append_assoc, List.append_assoc, h binds fun s hs => hbinds s (hm.trans hs)]
  exact unwind_operator (hbinds _ ho)

theorem Pends.negation (h : Pends Category.neg.rank e outs ops) :
    Pends Category.neg.rank (.op .sub (.literal 0) e) outs (ops ++ [.negation position]) := by
  intro binds hbinds output stack
  rw [List.append_assoc, h binds hbinds]
  exact unwind_negation (hbinds 3 le_rfl)

theorem Fits.mono (h : Fits c stack) (hle : c.rank ≤ d.rank) : Fits d stack := by
  cases stack with
  | nil => trivial
  | cons top stack => exact fun s hs => (h s hs).trans hle

theorem fits_operator (o : Operator) : Fits (rhsCategory o) (.operator o position :: stack) := by
  intro s hs
  obtain rfl := Option.some.inj hs
  exact (rightRank_precedence o).le

theorem yieldsTo_of_le (o : Operator) : ∀ s, (lhsCategory o).rank ≤ s → yieldsTo o s = true := by
  intro s hs
  have h : o.precedence < s ∨ o.precedence = s ∧ o.rightAssociative = false := by
    cases o with
    | pow => exact .inl hs
    | _ => exact (Nat.lt_or_eq_of_le hs).imp_right (⟨·, rfl⟩)
  simpa [yieldsTo] using h

def Uncalled (rest : List Located) : Prop := ∀ t ∈ rest.head?, t.token ≠ .lparen

/-- Where an operand is due and the category fits, reading the tokens leaves what unwinds to `e`. -/
def Reads (c : Category) (ts : List Located) (e : Expr L) : Prop :=
  ∀ output stack {previous rest}, Fits c stack → Ahead previous true (ts ++ rest) → Uncalled rest →
    ∃ outs ops last, Pends c.rank e outs ops ∧ Ahead last false rest ∧
      run true output stack (ts ++ rest) = run false (outs ++ output) (ops ++ stack) rest

theorem Reads.weaken (h : Reads c ts e) (hle : d.rank ≤ c.rank) : Reads d ts e := by
  intro output stack previous rest hfits hahead hrest
  obtain ⟨outs, ops, last, hpends, hnext, hrun⟩ := h output stack (hfits.mono hle) hahead hrest
  exact ⟨outs, ops, last, fun binds hbinds => hpends binds fun s hs => hbinds s (hle.trans hs),
    hnext, hrun⟩

theorem Reads.single (hne : t.token ≠ .eof) (hlast : t.token.precedesOperand = false)
    (h : ∀ {output stack rest}, Uncalled rest →
      run true output stack (t :: rest) = run false (e :: output) stack rest) :
    Reads .primary [t] e := by
  intro output stack previous rest _ hahead hrest
  exact ⟨[e], [], some t.token, fun _ _ _ _ => rfl, hlast ▸ hahead.next rfl hne, h hrest⟩

theorem Reads.ident {name : String} (ht : t.token = .ident name) :
    Reads .primary [t] (.var name : Expr L) := by
  refine .single (by simp [ht]) (by rw [ht]; rfl) fun {output stack rest} hrest => ?_
  rw [run.eq_def]
  simp only [ht]
  split
  · exact absurd rfl (hrest _ rfl)
  · rfl

theorem Reads.binary (hlhs : Reads (lhsCategory o) ts lhs) (ht : t.token.sign? = some o)
    (hrhs : Reads (rhsCategory o) us rhs) : Reads (category o) (ts ++ t :: us) (.op o lhs rhs) := by
  intro output stack previous rest hfits hahead hrest
  rw [List.append_assoc, List.cons_append] at hahead
  have hlow : (category o).rank ≤ (lhsCategory o).rank := by cases o <;> decide
  have huncalled : Uncalled (t :: (us ++ rest)) := by
    intro u hu hlparen
    obtain rfl := Option.some.inj hu
    rw [hlparen] at ht
    exact absurd ht nofun
  obtain ⟨outs, ops, last, hpends, hmiddle, hrun⟩ :=
    hlhs output stack (hfits.mono hlow) hahead huncalled
  have htoken := hmiddle.scanned.1.operator hmiddle.due ht
  have hunwind : unwind (yieldsTo o) (outs ++ output) (ops ++ stack) = .ok (lhs :: output, stack) := by
    rw [hpends _ (yieldsTo_of_le o), (fits_category_iff.1 hfits).unwind]
  have hstep : run false (outs ++ output) (ops ++ stack) (t :: (us ++ rest)) =
      run true (lhs :: output) (.operator o t.position :: stack) (us ++ rest) := by
    rw [run.eq_def]
    simp only [htoken, hunwind]
  obtain ⟨outs', ops', last', hpends', hnext, hrun'⟩ :=
    hrhs (lhs :: output) (.operator o t.position :: stack) (fits_operator o)
      (hmiddle.next htoken nofun) hrest
  refine ⟨outs' ++ [lhs], ops' ++ [.operator o t.position], last', hpends'.binary ?_ ?_, hnext, ?_⟩
  · cases o <;> decide
  · cases o <;> decide
  · simpa using hrun.trans (hstep.trans hrun')

theorem Reads.negation (ht : t.token.sign? = some .sub) (he : Reads .neg ts e) :
    Reads .neg (t :: ts) (.op .sub (.literal 0) e) := by
  intro output stack previous rest _ hahead hrest
  have htoken := hahead.scanned.1.negation hahead.due ht
  obtain ⟨outs, ops, last, hpends, hnext, hrun⟩ :=
    he output (.negation t.position :: stack) (fits_of_three_le le_rfl _) (hahead.next htoken nofun) hrest
  refine ⟨outs, ops ++ [Pending.negation t.position], last, hpends.negation, hnext, ?_⟩
  rw [List.cons_append, run.eq_def, List.append_assoc]
  simp only [htoken]
  exact hrun

theorem uncalled_of_eq {token : Token} {rest : List Located} (ht : t.token = token)
    (hne : token ≠ .lparen) : Uncalled (t :: rest) := by
  intro u hu hlparen
  obtain rfl := Option.some.inj hu
  exact hne (ht.symm.trans hlparen)

theorem Reads.group {p q : Located} (hp : p.token = .lparen) (he : Reads .expr ts e)
    (hq : q.token = .rparen) : Reads .primary (p :: ts ++ [q]) e := by
  intro output stack previous rest _ hahead _
  rw [List.append_assoc, List.cons_append] at hahead
  obtain ⟨outs, ops, last, hpends, hnext, hrun⟩ :=
    he output (.group p.position :: stack) nofun (hahead.next hp nofun) (uncalled_of_eq hq nofun)
  have hclose : close (outs ++ output) (ops ++ .group p.position :: stack) q.position =
      .ok (e :: output, stack) := by
    rw [close, hpends _ fun _ _ => rfl]
    rfl
  refine ⟨[e], [], some .rparen, fun _ _ _ _ => rfl, hnext.next hq nofun, ?_⟩
  rw [List.append_assoc, List.cons_append, run.eq_def]
  simp only [hp]
  rw [hrun, List.cons_append, run.eq_def]
  simp only [hq, hclose]
  rfl

def ReadsAll (ts : List Located) (args : List (Expr L)) : Prop :=
  ∀ output stack name callable start {previous rest}, Ahead previous true (ts ++ rest) →
    Uncalled rest → ∃ outs ops last,
      unwind (fun _ => true) (outs ++ output) (ops ++ .call name callable args.length start :: stack) =
        .ok (args.reverse ++ output, .call name callable args.length start :: stack) ∧
      Ahead last false rest ∧
      run true output (.call name callable 1 start :: stack) (ts ++ rest) =
        run false (outs ++ output) (ops ++ .call name callable args.length start :: stack) rest

theorem ReadsAll.one (he : Reads .expr ts e) : ReadsAll ts [e] := by
  intro output stack name callable start previous rest hahead hrest
  obtain ⟨outs, ops, last, hpends, hnext, hrun⟩ :=
    he output (.call name callable 1 start :: stack) nofun hahead hrest
  refine ⟨outs, ops, last, ?_, hnext, hrun⟩
  rw [hpends _ fun _ _ => rfl]
  rfl

theorem ReadsAll.more {args : List (Expr L)} (hargs : ReadsAll ts args) (ht : t.token = .comma)
    (he : Reads .expr us e) : ReadsAll (ts ++ t :: us) (args ++ [e]) := by
  intro output stack name callable start previous rest hahead hrest
  rw [List.append_assoc, List.cons_append] at hahead
  obtain ⟨outs, ops, last, hunwind, hmiddle, hrun⟩ :=
    hargs output stack name callable start hahead (uncalled_of_eq ht nofun)
  obtain ⟨outs', ops', last', hpends, hnext, hrun'⟩ :=
    he (args.reverse ++ output) (.call name callable (args.length + 1) start :: stack) nofun
      (hmiddle.next ht nofun) hrest
  have hstep : run false (outs ++ output) (ops ++ .call name callable args.length start :: stack)
      (t :: (us ++ rest)) =
      run true (args.reverse ++ output) (.call name callable (args.length + 1) start :: stack)
        (us ++ rest) := by
    rw [run.eq_def]
    simp only [ht, hunwind]
  rw [List.length_append, List.length_singleton, List.reverse_append]
  refine ⟨outs' ++ args.reverse, ops', last', ?_, hnext, ?_⟩
  · rw [List.append_assoc, hpends _ fun _ _ => rfl]
    rfl
  · rw [List.append_assoc, List.append_assoc]
    exact hrun.trans (hstep.trans hrun')

theorem Reads.call {p q : Located} {name : String} {callable : Callable} {args : List (Expr L)}
    (ht : t.token = .function name callable) (hp : p.token = .lparen) (hargs : ReadsAll ts args)
    (hq : q.token = .rparen) (hbuilds : Builds callable args e) :
    Reads .primary (t :: p :: ts ++ [q]) e := by
  intro output stack previous rest _ hahead _
  rw [List.append_assoc, List.cons_append, List.cons_append] at hahead
  obtain ⟨outs, ops, last, hunwind, hnext, hrun⟩ :=
    hargs output stack name callable t.position ((hahead.next ht nofun).next hp nofun)
      (uncalled_of_eq hq nofun)
  have hclose : close (outs ++ output) (ops ++ .call name callable args.length t.position :: stack)
      q.position = .ok (e :: output, stack) := by
    rw [close, hunwind]
    simp only [applyCall_of_builds hbuilds]
  refine ⟨[e], [], some .rparen, fun _ _ _ _ => rfl, hnext.next hq nofun, ?_⟩
  obtain ⟨_, position⟩ := p
  obtain rfl : _ = Token.lparen := hp
  rw [List.append_assoc, List.cons_append, List.cons_append, run.eq_def]
  simp only [ht]
  rw [hrun, List.cons_append, run.eq_def]
  simp only [hq, hclose]
  rfl

mutual

theorem reads_of_derives {c : Category} {ts : List Located} {e : Expr L} :
    Derives c ts e → Reads c ts e
  | .term h => (reads_of_derives h).weaken (by decide)
  | .neg h => (reads_of_derives h).weaken (by decide)
  | .power h => (reads_of_derives h).weaken (by decide)
  | .primary h => (reads_of_derives h).weaken (by decide)
  | .binary hlhs ht hrhs => (reads_of_derives hlhs).binary ht (reads_of_derives hrhs)
  | .negation ht h => (reads_of_derives h).negation ht
  | .number ht => .single (by simp [ht]) (by rw [ht]; rfl) fun _ => by
      rw [run.eq_def]
      simp only [ht]
  | .constant ht => .single (by simp [ht]) (by rw [ht]; rfl) fun _ => by
      rw [run.eq_def]
      simp only [ht]
  | .ident ht => .ident ht
  | .call ht _ hp hargs hq hbuilds => .call ht hp (reads_of_arguments hargs) hq hbuilds
  | .group hp h hq => .group hp (reads_of_derives h) hq

theorem reads_of_arguments {ts : List Located} {args : List (Expr L)} :
    Arguments ts args → ReadsAll ts args
  | .one h => .one (reads_of_derives h)
  | .more hargs ht h => (reads_of_arguments hargs).more ht (reads_of_derives h)

end

theorem run_of_derives {previous : Option Token} {tokens : List Located}
    (hahead : Ahead previous true tokens) (h : Derives .expr (beforeEnd tokens) e) :
    run true [] [] tokens = .ok e := by
  obtain ⟨t, later, htokens, ht⟩ := exists_eq_beforeEnd_append hahead.eof
  rw [htokens] at hahead ⊢
  obtain ⟨outs, ops, last, hpends, -, hrun⟩ :=
    reads_of_derives h [] [] trivial hahead (uncalled_of_eq ht nofun)
  have hunwind : unwind (fun _ => true) outs ops = .ok ([e], []) := by
    have h := hpends (fun _ => true) (fun _ _ => rfl) [] []
    rwa [List.append_nil, List.append_nil] at h
  rw [hrun, run.eq_def]
  simp only [ht, List.append_nil, finish, hunwind]

theorem ahead_ofString {source : String} (h : (Scan.ofString source).fault = none) :
    Ahead none true (Scan.ofString source).tokens :=
  ⟨Scan.scanned_ofChars _ _ _, rfl, Scan.exists_eof_ofChars _ _ _ h⟩

/-- A text without lexical errors is read as `e` if and only if the grammar derives `e` from its
tokens; and a stack never lacks what is taken from it. -/
theorem parse_iff_derives (source : String) (hlexes : (Scan.ofString source).fault = none) :
    (∀ e : Expr L, Expr.parse source = .ok e ↔
      Derives .expr (beforeEnd (Scan.ofString source).tokens) e) ∧
    ∀ error, run (L := L) true [] [] (Scan.ofString source).tokens ≠ .error (.shortage error) := by
  have hahead := ahead_ofString hlexes
  have hexplained : Explained (beforeEnd (Scan.ofString source).tokens)
      (run (L := L) true [] [] (Scan.ofString source).tokens) :=
    run_explained (.due .start) hahead
  have hparse : Expr.parse (L := L) source =
      (run true [] [] (Scan.ofString source).tokens).mapError Stop.error := by
    rw [Expr.parse, Scan.toExcept, hlexes]
  refine ⟨fun e => ⟨fun h => ?_, fun h => ?_⟩, fun error h => ?_⟩
  · rw [hparse] at h
    cases hrun : run (L := L) true [] [] (Scan.ofString source).tokens with
    | ok e' =>
        rw [hrun] at h hexplained
        cases h
        exact hexplained
    | error stop =>
        rw [hrun] at h
        exact absurd h nofun
  · rw [hparse, run_of_derives hahead h]
    rfl
  · rw [h] at hexplained
    exact hexplained

theorem parse_iff_derives_power_of_negation :
    (Scan.ofString "-x^-y * atan(y, x)").fault = none ∧
    Derives (L := Float) .expr (beforeEnd (Scan.ofString "-x^-y * atan(y, x)").tokens)
      (.op .mul (negate (.op .pow (.var "x") (negate (.var "y")))) (.call₂ .atan2 (.var "y") (.var "x"))) := by
  have hlexes : (Scan.ofString "-x^-y * atan(y, x)").fault = none := by cbv
  exact ⟨hlexes, ((parse_iff_derives _ hlexes).1 _).1 (by cbv)⟩

end Parser

end FlowShader
