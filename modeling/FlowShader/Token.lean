import FlowShader.Primitive
import FlowShader.Decimal

namespace FlowShader

inductive Token where
  | number (value : Decimal)
  | ident (name : String)
  | constant (c : Constant)
  | function (name : String) (callable : Callable)
  | operator (o : Operator)
  | negation
  | lparen
  | rparen
  | comma
  | eof
deriving DecidableEq, Repr

namespace Token

def describe : Token → String
  | number d => s!"number `{floatText d.toFloat}`"
  | ident name => s!"identifier `{name}`"
  | constant c => s!"constant `{c.name}`"
  | function name _ => s!"function `{name}`"
  | operator o => s!"operator `{o.symbol}`"
  | negation => "operator `-`"
  | lparen => "`(`"
  | rparen => "`)`"
  | comma => "`,`"
  | eof => "end of input"

def precedesOperand : Token → Bool
  | operator _ | negation | lparen | comma => true
  | _ => false

end Token

/-- A token with the number of characters in front of it. -/
structure Located where
  token : Token
  position : Nat
deriving DecidableEq, Repr

inductive SyntaxError where
  | unexpectedCharacter (c : Char) (position : Nat)
  | malformedNumber (position : Nat)
  | mismatchedParenthesis (position : Nat)
  | arity (name : String) (expected found : Nat) (position : Nat)
  | trailingOperator (position : Nat)
  | unexpectedToken (token : Token) (position : Nat)
  | unknownFunction (name : String) (position : Nat)
  | uncalledFunction (name : String) (position : Nat)
  | empty
deriving DecidableEq, Repr

namespace SyntaxError

def message : SyntaxError → String
  | unexpectedCharacter c p => s!"unexpected character `{c}` at position {p}"
  | malformedNumber p => s!"malformed number at position {p}"
  | mismatchedParenthesis p => s!"mismatched parenthesis at position {p}"
  | arity name expected found p =>
    s!"`{name}` expects {expected} argument(s) but was given {found} at position {p}"
  | trailingOperator p => s!"expression ends with an operator at position {p}"
  | unexpectedToken t p => s!"unexpected {t.describe} at position {p}"
  | unknownFunction name p => s!"unknown function `{name}` at position {p}"
  | uncalledFunction name p => s!"function `{name}` used without arguments at position {p}"
  | empty => "empty expression"

def position? : SyntaxError → Option Nat
  | unexpectedCharacter _ p | malformedNumber p | mismatchedParenthesis p | arity _ _ _ p
  | trailingOperator p | unexpectedToken _ p | unknownFunction _ p | uncalledFunction _ p => some p
  | empty => none

def isLexical : SyntaxError → Bool
  | unexpectedCharacter _ _ | malformedNumber _ => true
  | _ => false

end SyntaxError

end FlowShader
