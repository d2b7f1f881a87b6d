import FlowShader.Expr
import FlowShader.Token.Lexer

namespace FlowShader

namespace Parser

variable {L : Type} [Literal L]

/-- A construct that waits for the operand to its right or for its closing parenthesis. A call
counts its arguments, the one being read included. -/
inductive Pending where
  | operator (o : Operator) (position : Nat)
  | negation (position : Nat)
  | group (position : Nat)
  | call (name : String) (callable : Callable) (argc : Nat) (position : Nat)

def Pending.precedence? : Pending → Option Nat
  | operator o _ => some o.precedence
  | negation _ => some 3
  | group _ | call _ _ _ _ => none

/-- Why reading ends without a formula: the text is at fault, or a stack does not hold what is
taken from it. -/
inductive Stop where
  | fault (error : SyntaxError)
  | shortage (error : SyntaxError)

def Stop.error : Stop → SyntaxError
  | fault e | shortage e => e

def negate (e : Expr L) : Expr L := .op .sub (.literal 0) e

def apply : Pending → List (Expr L) → Except Stop (List (Expr L))
  | .operator o _, rhs :: lhs :: output => .ok (.op o lhs rhs :: output)
  | .negation _, e :: output => .ok (negate e :: output)
  | .operator _ position, _ | .negation position, _ => .error (.shortage (.trailingOperator position))
  | .group position, _ | .call _ _ _ position, _ =>
    .error (.shortage (.mismatchedParenthesis position))

def unwind (binds : Nat → Bool) :
    List (Expr L) → List Pending → Except Stop (List (Expr L) × List Pending)
  | output, [] => .ok (output, [])
  | output, top :: stack =>
    if top.precedence?.any binds then
      match apply top output with
      | .ok output => unwind binds output stack
      | .error stop => .error stop
    else .ok (output, top :: stack)

def yieldsTo (o : Operator) (strength : Nat) : Bool :=
  o.precedence < strength || (o.precedence == strength && !o.rightAssociative)

def node? : Callable → List (Expr L) → Option (Expr L)
  | .func f, [a] => some (.call f a)
  | .bifunc f, [a, b] => some (.call₂ f a b)
  | .operator o, [a, b] => some (.op o a b)
  | .arctangent, [a] => some (.call .atan a)
  | .arctangent, [a, b] => some (.call₂ .atan2 a b)
  | _, _ => none

def applyCall (name : String) (callable : Callable) (argc position : Nat) (output : List (Expr L)) :
    Except Stop (List (Expr L)) :=
  if !callable.accepts argc then .error (.fault (.arity name callable.arity argc position))
  else if output.length < argc then .error (.shortage (.mismatchedParenthesis position))
  else
    match node? callable (output.take argc).reverse with
    | some e => .ok (e :: output.drop argc)
    | none => .error (.shortage (.mismatchedParenthesis position))

def dangling (output : List (Expr L)) (stack : List Pending) (t : Located) : SyntaxError :=
  match stack with
  | [] => if output.isEmpty then .empty else .unexpectedToken t.token t.position
  | .operator _ _ :: _ | .negation _ :: _ => .trailingOperator t.position
  | .call name callable 1 _ :: _ =>
    if t.token == .rparen then .arity name callable.arity 0 t.position
    else .unexpectedToken t.token t.position
  | _ => .unexpectedToken t.token t.position

def close (output : List (Expr L)) (stack : List Pending) (position : Nat) :
    Except Stop (List (Expr L) × List Pending) :=
  match unwind (fun _ => true) output stack with
  | .ok (output, .group _ :: stack) => .ok (output, stack)
  | .ok (output, .call name callable argc start :: stack) =>
    match applyCall name callable argc start output with
    | .ok output => .ok (output, stack)
    | .error stop => .error stop
  | .ok _ => .error (.fault (.mismatchedParenthesis position))
  | .error stop => .error stop

def finish (output : List (Expr L)) (stack : List Pending) : Except Stop (Expr L) :=
  match unwind (fun _ => true) output stack with
  | .ok (_, .group start :: _) | .ok (_, .call _ _ _ start :: _) =>
    .error (.fault (.mismatchedParenthesis start))
  | .ok ([e], _) => .ok e
  | .ok _ => .error (.shortage .empty)
  | .error stop => .error stop

def run (due : Bool) (output : List (Expr L)) (stack : List Pending) :
    List Located → Except Stop (Expr L)
  | [] => finish output stack
  | t :: rest =>
    let unexpected := .error (.fault (.unexpectedToken t.token t.position))
    match t.token, due with
    | .number d, true => run false (.literal (Literal.ofDecimal d) :: output) stack rest
    | .constant c, true => run false (.constant c :: output) stack rest
    | .ident name, true =>
      match rest with
      | ⟨.lparen, _⟩ :: _ => .error (.fault (.unknownFunction name t.position))
      | _ => run false (.var name :: output) stack rest
    | .function name callable, true =>
      match rest with
      | ⟨.lparen, _⟩ :: rest => run true output (.call name callable 1 t.position :: stack) rest
      | _ => .error (.fault (.uncalledFunction name t.position))
    | .negation, due => run due output (.negation t.position :: stack) rest
    | .operator o, false =>
      match unwind (yieldsTo o) output stack with
      | .ok (output, stack) => run true output (.operator o t.position :: stack) rest
      | .error stop => .error stop
    | .lparen, true => run true output (.group t.position :: stack) rest
    | .comma, false =>
      match unwind (fun _ => true) output stack with
      | .ok (output, .call name callable argc start :: stack) =>
        run true output (.call name callable (argc + 1) start :: stack) rest
      | .ok _ => unexpected
      | .error stop => .error stop
    | .rparen, false =>
      match close output stack t.position with
      | .ok (output, stack) => run false output stack rest
      | .error stop => .error stop
    | .eof, false => finish output stack
    | .comma, true | .rparen, true | .eof, true => .error (.fault (dangling output stack t))
    | _, _ => unexpected

end Parser

def Expr.parse {L : Type} [Literal L] (source : String) : Except SyntaxError (Expr L) :=
  match (Scan.ofString source).toExcept with
  | .ok tokens => (Parser.run true [] [] tokens).mapError Parser.Stop.error
  | .error fault => .error fault

end FlowShader
