import FlowShader.Coordinates.Transform
import FlowShader.Scheme

namespace FlowShader

/-- A coordinate system by name or in full. -/
inductive FrameChoice where
  | preset (name : String)
  | record (r : Coordinates.Record)
deriving DecidableEq, Repr

structure Config (L : Type) where
  dimensions : Nat
  /-- Velocities, one for each native coordinate. -/
  derivatives : List String
  /-- Cartesian if nothing is chosen. -/
  frame : Option FrameChoice
  scheme : Scheme
  /-- The rounds of an implicit scheme, if not the usual number. -/
  rounds : Option Nat
  method : Method
  /-- Cartesian velocities, from which the Jacobian of Newton iteration is taken. -/
  newtonExpressions : Option (List String)
  alphaName : String
  pivotEpsilon : L
  solver : Coordinates.Solver L
  color : Option String

namespace Config

variable {L : Type} [Literal L]

def defaultAlphaName : String := "u_alpha"

def defaultPivotEpsilon : L := Literal.ofPlaces 1 4

def ofDerivatives (dimensions : Nat) (derivatives : List String) : Config L where
  dimensions
  derivatives
  frame := none
  scheme := .euler
  rounds := none
  method := .fixedPoint
  newtonExpressions := none
  alphaName := defaultAlphaName
  pivotEpsilon := defaultPivotEpsilon
  solver := .standard
  color := none

end Config

end FlowShader
