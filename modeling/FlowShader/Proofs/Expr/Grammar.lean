import FlowShader.Expr
import FlowShader.Proofs.Token.Scan

namespace FlowShader

namespace Grammar

variable {L : Type}

inductive Category where
  | expr | term | neg | power | primary

open Category in
def category : Operator → Category
  | .add | .sub => expr
  | .mul | .div | .mod => term
  | .pow => power

open Category in
def lhsCategory : Operator → Category
  | .add | .sub => expr
  | .mul | .div | .mod => term
  | .pow => primary

open Category in
def rhsCategory : Operator → Category
  | .add | .sub => term
  | .mul | .div | .mod | .pow => neg

inductive Builds : Callable → List (Expr L) → Expr L → Prop
  | func (f : Func) (a : Expr L) : Builds (.func f) [a] (.call f a)
  | bifunc (f : BiFunc) (a b : Expr L) : Builds (.bifunc f) [a, b] (.call₂ f a b)
  | operator (o : Operator) (a b : Expr L) : Builds (.operator o) [a, b] (.op o a b)
  | arctangent (a : Expr L) : Builds .arctangent [a] (.call .atan a)
  | arctangent₂ (a b : Expr L) : Builds .arctangent [a, b] (.call₂ .atan2 a b)

theorem exists_builds_iff {callable : Callable} {args : List (Expr L)} :
    (∃ e, Builds callable args e) ↔ callable.accepts args.length = true := by
  constructor
  · rintro ⟨e, h⟩
    cases h <;> rfl
  · intro h
    match callable, args with
    | .func f, [a] => exact ⟨_, .func f a⟩
    | .bifunc f, [a, b] => exact ⟨_, .bifunc f a b⟩
    | .operator o, [a, b] => exact ⟨_, .operator o a b⟩
    | .arctangent, [a] => exact ⟨_, .arctangent a⟩
    | .arctangent, [a, b] => exact ⟨_, .arctangent₂ a b⟩

variable [Literal L]

mutual

/-- The tokens make up a formula of the category, and this is its tree. A minus sign may stand for
negation or for subtraction, whichever a rule asks for. -/
inductive Derives : Category → List Located → Expr L → Prop
  | term {ts : List Located} {e : Expr L} : Derives .term ts e → Derives .expr ts e
  | neg {ts : List Located} {e : Expr L} : Derives .neg ts e → Derives .term ts e
  | power {ts : List Located} {e : Expr L} : Derives .power ts e → Derives .neg ts e
  | primary {ts : List Located} {e : Expr L} : Derives .primary ts e → Derives .power ts e
  | binary {ts us : List Located} {t : Located} {o : Operator} {lhs rhs : Expr L} :
      Derives (lhsCategory o) ts lhs → t.token.sign? = some o → Derives (rhsCategory o) us rhs →
      Derives (category o) (ts ++ t :: us) (.op o lhs rhs)
  | negation {ts : List Located} {t : Located} {e : Expr L} :
      t.token.sign? = some .sub → Derives .neg ts e →
      Derives .neg (t :: ts) (.op .sub (.literal 0) e)
  | number {t : Located} {d : Decimal} :
      t.token = .number d → Derives .primary [t] (.literal (Literal.ofDecimal d))
  | constant {t : Located} {c : Constant} : t.token = .constant c → Derives .primary [t] (.constant c)
  | ident {t : Located} {name : String} : t.token = .ident name → Derives .primary [t] (.var name)
  | call {t p q : Located} {name : String} {callable : Callable} {ts : List Located}
      {args : List (Expr L)} {e : Expr L} :
      t.token = .function name callable → Callable.ofName? name = some callable →
      p.token = .lparen → Arguments ts args → q.token = .rparen → Builds callable args e →
      Derives .primary (t :: p :: ts ++ [q]) e
  | group {p q : Located} {ts : List Located} {e : Expr L} :
      p.token = .lparen → Derives .expr ts e → q.token = .rparen →
      Derives .primary (p :: ts ++ [q]) e

inductive Arguments : List Located → List (Expr L) → Prop
  | one {ts : List Located} {e : Expr L} : Derives .expr ts e → Arguments ts [e]
  | more {ts us : List Located} {t : Located} {args : List (Expr L)} {e : Expr L} :
      Arguments ts args → t.token = .comma → Derives .expr us e →
      Arguments (ts ++ t :: us) (args ++ [e])

end

end Grammar

end FlowShader
