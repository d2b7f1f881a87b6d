import FlowShader.Scalar

namespace FlowShader.Shader

inductive Ty where
  | float
  | bool
  | vec (n : Nat)
  | mat (n : Nat)
deriving DecidableEq, Repr

def Ty.text : Ty → String
  | float => "float"
  | bool => "bool"
  | vec n => s!"vec{n}"
  | mat n => s!"mat{n}"

inductive BinOp where
  | add | sub | mul | div
  | lt | le | gt | ge
  | and | or
deriving DecidableEq, Repr

def BinOp.symbol : BinOp → String
  | add => "+"
  | sub => "-"
  | mul => "*"
  | div => "/"
  | lt => "<"
  | le => "<="
  | gt => ">"
  | ge => ">="
  | and => "&&"
  | or => "||"

inductive Term (L : Type) where
  | float (x : L)
  | bool (b : Bool)
  | var (name : String)
  /-- `base.x`, `base.y`, … -/
  | component (base : Term L) (i : Nat)
  /-- `base[col][row]` -/
  | element (base : Term L) (col row : Nat)
  | neg (a : Term L)
  | not (a : Term L)
  | binary (o : BinOp) (a b : Term L)
  | call (name : String) (args : List (Term L))
  | construct (ty : Ty) (args : List (Term L))
deriving Inhabited

namespace Term

variable {L : Type}

instance : Add (Term L) := ⟨binary .add⟩
instance : Sub (Term L) := ⟨binary .sub⟩
instance : Mul (Term L) := ⟨binary .mul⟩
instance : Div (Term L) := ⟨binary .div⟩

def lt (a b : Term L) : Term L := binary .lt a b

def ge (a b : Term L) : Term L := binary .ge a b

def gt (a b : Term L) : Term L := binary .gt a b

/-- Literals, names and selections from them cost nothing to repeat. -/
def isTrivial : Term L → Bool
  | float _ | bool _ | var _ => true
  | component base _ | element base _ _ => base.isTrivial
  | _ => false

variable [Literal L]

def nat (n : Nat) : Term L := float (Literal.ofNat n)

def places (digits n : Nat) : Term L := float (Literal.ofPlaces digits n)

/-- The sum from left to right; an empty sum is zero. -/
def sum : List (Term L) → Term L
  | [] => float 0
  | t :: ts => ts.foldl (· + ·) t

end Term

/-- Always with a point, never with an exponent, in parentheses when negative; what is not finite
becomes a quotient by zero. -/
def literalText {L : Type} [Literal L] (x : L) : String :=
  if Literal.isNaN x then "(0.0 / 0.0)"
  else if !Literal.isFinite x then if Scalar.lt 0 x then "(1.0 / 0.0)" else "(-1.0 / 0.0)"
  else
    let digits := Literal.text (Scalar.abs x)
    let text := if digits.toList.contains '.' then digits else digits ++ ".0"
    if Scalar.lt x 0 then s!"(-{text})" else text

def componentName (i : Nat) : Char := ['x', 'y', 'z', 'w'].getD i '?'

mutual

def Term.text {L : Type} [Literal L] : Term L → String
  | .float x => literalText x
  | .bool b => if b then "true" else "false"
  | .var name => name
  | .component base i => s!"{base.text}.{componentName i}"
  | .element base col row => s!"{base.text}[{col}][{row}]"
  | .neg a => s!"(-{a.text})"
  | .not a => s!"(!{a.text})"
  | .binary o a b => s!"({a.text} {o.symbol} {b.text})"
  | .call name args => name ++ "(" ++ ", ".intercalate (Term.texts args) ++ ")"
  | .construct ty args => ty.text ++ "(" ++ ", ".intercalate (Term.texts args) ++ ")"

def Term.texts {L : Type} [Literal L] : List (Term L) → List String
  | [] => []
  | t :: ts => t.text :: Term.texts ts

end

end FlowShader.Shader
