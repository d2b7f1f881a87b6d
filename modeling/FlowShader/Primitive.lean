namespace FlowShader

inductive Constant where
  | pi
  | e
deriving DecidableEq, Repr, Hashable, Ord

namespace Constant

def name : Constant → String
  | pi => "pi"
  | e => "e"

def ofName? : String → Option Constant
  | "pi" | "PI" => some pi
  | "e" | "E" => some e
  | _ => none

end Constant

inductive Func where
  | sin | cos | tan | asin | acos | atan
  | sinh | cosh | tanh
  | exp | log | log2 | sqrt
  | abs | floor | ceil | fract | sign
  | length | normalize
deriving DecidableEq, Repr, Hashable, Ord

namespace Func

def all : List Func :=
  [sin, cos, tan, asin, acos, atan, sinh, cosh, tanh, exp, log, log2, sqrt,
    abs, floor, ceil, fract, sign, length, normalize]

def name : Func → String
  | sin => "sin"
  | cos => "cos"
  | tan => "tan"
  | asin => "asin"
  | acos => "acos"
  | atan => "atan"
  | sinh => "sinh"
  | cosh => "cosh"
  | tanh => "tanh"
  | exp => "exp"
  | log => "log"
  | log2 => "log2"
  | sqrt => "sqrt"
  | abs => "abs"
  | floor => "floor"
  | ceil => "ceil"
  | fract => "fract"
  | sign => "sign"
  | length => "length"
  | normalize => "normalize"

def ofName? (s : String) : Option Func := all.find? (·.name == s)

/-- The functions whose derivative the derivative table takes as zero are not differentiable. -/
def differentiable : Func → Bool
  | abs | floor | ceil | fract | sign | length | normalize => false
  | _ => true

end Func

inductive BiFunc where
  | atan2 | min | max | dot
deriving DecidableEq, Repr, Hashable, Ord

namespace BiFunc

def all : List BiFunc := [min, max, dot, atan2]

def name : BiFunc → String
  | min => "min"
  | max => "max"
  | dot => "dot"
  | atan2 => "atan2"

def ofName? (s : String) : Option BiFunc := all.find? (·.name == s)

def differentiable : BiFunc → Bool
  | min | max => false
  | dot | atan2 => true

end BiFunc

inductive Operator where
  | add | sub | mul | div | pow | mod
deriving DecidableEq, Repr, Hashable, Ord

namespace Operator

def symbol : Operator → Char
  | add => '+'
  | sub => '-'
  | mul => '*'
  | div => '/'
  | pow => '^'
  | mod => '%'

def ofChar? : Char → Option Operator
  | '+' => some add
  | '-' => some sub
  | '*' => some mul
  | '/' => some div
  | '^' => some pow
  | '%' => some mod
  | _ => none

def precedence : Operator → Nat
  | add | sub => 1
  | mul | div | mod => 2
  | pow => 4

def rightAssociative : Operator → Bool
  | pow => true
  | _ => false

end Operator

/-- What a name in front of an argument list resolves to. -/
inductive Callable where
  | func (f : Func)
  | bifunc (f : BiFunc)
  | operator (o : Operator)
  | arctangent
deriving DecidableEq, Repr

namespace Callable

/-- `atan` takes one or two arguments; `pow` and `mod` are the operators under another spelling. -/
def ofName? : String → Option Callable
  | "atan" => some arctangent
  | "pow" => some (operator .pow)
  | "mod" => some (operator .mod)
  | s => ((Func.ofName? s).map func).orElse fun _ => (BiFunc.ofName? s).map bifunc

def accepts (argc : Nat) : Callable → Bool
  | func _ => argc == 1
  | bifunc _ | operator _ => argc == 2
  | arctangent => argc == 1 || argc == 2

def arity : Callable → Nat
  | func _ | arctangent => 1
  | bifunc _ | operator _ => 2

end Callable

end FlowShader
