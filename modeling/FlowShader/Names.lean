import FlowShader.Shader.Inverse

namespace FlowShader.Names

/-- Names of Cartesian coordinates, in order. -/
def axes (dimensions : Nat) : List String := ["x", "y", "z", "w", "u", "v"].take dimensions

def velocities (dimensions : Nat) : List String := (axes dimensions).map ("d" ++ ·)

def alpha : String := "a"

def getVelocity : String := "get_velocity"

def velocityJacobian : String := "velocityJacobian"

def integrate : String := "integrate"

def toNative : String := "transformToNative"

def toCartesian : String := "transformToCartesian"

def velocityToCartesian : String := "transformVelocityToCartesian"

def color : String := "evaluateColorExpression"

def temporaryStem : String := "t"

/-- Parameters and variables of the generated functions. -/
def locals : List String :=
  ["pos", "h", "i", "x", "m", "a", "inv", "det", "s", "p", "f", "f0", "k1", "k2", "k3", "k4",
    "n1", "n2", "next", "v", "moved", "jac", "residual", "guess", "native", "velNative",
    "velocity", "nudged", "invDet"]

def globals : List String :=
  [color, Shader.Inverse.epsilonName, toNative, toCartesian, velocityToCartesian, getVelocity,
    velocityJacobian, integrate]

def isNumbered (stem name : String) : Bool :=
  let digits := name.toList.drop stem.length
  stem.toList.isPrefixOf name.toList && !digits.isEmpty && digits.all Char.isDigit

def isTaken (name : String) : Bool :=
  locals.contains name || globals.contains name || isNumbered temporaryStem name
    || isNumbered Shader.Inverse.stem name

end FlowShader.Names
