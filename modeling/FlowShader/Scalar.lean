import FlowShader.Primitive
import FlowShader.Decimal

namespace FlowShader

class Scalar (K : Type) extends Add K, Sub K, Mul K, Div K, Neg K, Zero K, One K where
  pow : K → K → K
  pi : K
  e : K
  sin : K → K
  cos : K → K
  tan : K → K
  asin : K → K
  acos : K → K
  atan : K → K
  atan2 : K → K → K
  sinh : K → K
  cosh : K → K
  tanh : K → K
  exp : K → K
  log : K → K
  log2 : K → K
  sqrt : K → K
  abs : K → K
  floor : K → K
  ceil : K → K
  min : K → K → K
  max : K → K → K
  lt : K → K → Bool
  le : K → K → Bool

namespace Scalar

variable {K : Type} [Scalar K]

def modulo (a b : K) : K := a - b * floor (a / b)

/-- One, minus one, or zero for everything that is neither positive nor negative. -/
def sign (x : K) : K := if lt 0 x then 1 else if lt x 0 then -1 else 0

def sum (xs : List K) : K := xs.foldl (· + ·) (-0)

end Scalar

open Scalar

variable {K : Type} [Scalar K]

def Constant.value : Constant → K
  | pi => Scalar.pi
  | e => Scalar.e

/-- On a single number `length` is the absolute value and `normalize` the sign. -/
def Func.apply : Func → K → K
  | sin => Scalar.sin
  | cos => Scalar.cos
  | tan => Scalar.tan
  | asin => Scalar.asin
  | acos => Scalar.acos
  | atan => Scalar.atan
  | sinh => Scalar.sinh
  | cosh => Scalar.cosh
  | tanh => Scalar.tanh
  | exp => Scalar.exp
  | log => Scalar.log
  | log2 => Scalar.log2
  | sqrt => Scalar.sqrt
  | abs | length => Scalar.abs
  | floor => Scalar.floor
  | ceil => Scalar.ceil
  | fract => fun x => x - Scalar.floor x
  | sign | normalize => Scalar.sign

def BiFunc.apply : BiFunc → K → K → K
  | min => Scalar.min
  | max => Scalar.max
  | dot => fun a b => a * b
  | atan2 => Scalar.atan2

def Operator.apply : Operator → K → K → K
  | add => fun a b => a + b
  | sub => fun a b => a - b
  | mul => fun a b => a * b
  | div => fun a b => a / b
  | pow => Scalar.pow
  | mod => modulo

class Literal (L : Type) extends Scalar L, BEq L, Hashable L where
  ofDecimal : Decimal → L
  isFinite : L → Bool
  isNaN : L → Bool
  isWhole : L → Bool
  /-- The decimal text of a literal, without an exponent. -/
  text : L → String

namespace Literal

variable {L : Type} [Literal L]

def ofNat (n : Nat) : L := ofDecimal (.ofNat n)

def ofPlaces (digits places : Nat) : L := ofDecimal ⟨digits, -(places : Int)⟩

end Literal

end FlowShader
