import FlowShader.Scalar

namespace FlowShader

namespace Double

def min (a b : Float) : Float := if a.isNaN then b else if b.isNaN then a else if b < a then b else a

def max (a b : Float) : Float := if a.isNaN then b else if b.isNaN then a else if a < b then b else a

/-- Equal doubles have equal hashes: both zeros are hashed as one. -/
def hash (x : Float) : UInt64 := if x == 0 then 0 else x.toBits

end Double

instance : Scalar Float where
  zero := 0.0
  one := 1.0
  pow := Float.pow
  pi := 3.141592653589793
  e := 2.718281828459045
  sin := Float.sin
  cos := Float.cos
  tan := Float.tan
  asin := Float.asin
  acos := Float.acos
  atan := Float.atan
  atan2 := Float.atan2
  sinh := Float.sinh
  cosh := Float.cosh
  tanh := Float.tanh
  exp := Float.exp
  log := Float.log
  log2 := Float.log2
  sqrt := Float.sqrt
  abs := Float.abs
  floor := Float.floor
  ceil := Float.ceil
  min := Double.min
  max := Double.max
  lt := Float.lt
  le := Float.le

instance : Literal Float where
  hash := Double.hash
  ofDecimal := Decimal.toFloat
  isFinite := Float.isFinite
  isNaN := Float.isNaN
  isWhole x := x.isFinite && x.floor == x
  text := floatText

end FlowShader
