namespace FlowShader

inductive Stability where
  /-- Stable for small enough steps only. -/
  | conditional
  | aStable
  | lStable
  /-- Phase-space volume is kept, the energy error stays bounded. -/
  | symplectic
deriving DecidableEq, Repr

namespace Stability

def name : Stability → String
  | conditional => "conditional"
  | aStable => "a-stable"
  | lStable => "l-stable"
  | symplectic => "symplectic"

def text : Stability → String
  | conditional => "conditionally stable"
  | aStable => "A-stable"
  | lStable => "L-stable"
  | symplectic => "symplectic"

end Stability

/-- How the equation of an implicit scheme is solved. -/
inductive Method where
  | fixedPoint
  | newton
deriving DecidableEq, Repr

namespace Method

def name : Method → String
  | fixedPoint => "fixed-point"
  | newton => "newton"

def ofName? : String → Option Method
  | "fixed-point" => some fixedPoint
  | "newton" => some newton
  | _ => none

end Method

inductive Scheme where
  | euler
  | rk2
  | rk4
  | implicitEuler
  | implicitMidpoint
  | trapezoidal
  | gaussLegendre
  | symplecticEuler
deriving DecidableEq, Repr

namespace Scheme

def name : Scheme → String
  | euler => "euler"
  | rk2 => "rk2"
  | rk4 => "rk4"
  | implicitEuler => "implicit-euler"
  | implicitMidpoint => "implicit-midpoint"
  | trapezoidal => "trapezoidal"
  | gaussLegendre => "gauss-legendre"
  | symplecticEuler => "symplectic-euler"

def ofName? : String → Option Scheme
  | "euler" => some euler
  | "rk2" | "midpoint" => some rk2
  | "rk4" => some rk4
  | "implicit-euler" => some implicitEuler
  | "implicit-midpoint" => some implicitMidpoint
  | "trapezoidal" => some trapezoidal
  | "gauss-legendre" | "implicit-rk4" => some gaussLegendre
  | "symplectic-euler" | "symplectic" => some symplecticEuler
  | _ => none

def order : Scheme → Nat
  | euler | implicitEuler | symplecticEuler => 1
  | rk2 | implicitMidpoint | trapezoidal => 2
  | rk4 | gaussLegendre => 4

def stability : Scheme → Stability
  | euler | rk2 | rk4 => .conditional
  | implicitEuler => .lStable
  | trapezoidal => .aStable
  | implicitMidpoint | gaussLegendre | symplecticEuler => .symplectic

/-- The rounds of an implicit scheme when none are asked for. -/
def defaultRounds : Scheme → Nat
  | implicitEuler => 3
  | implicitMidpoint | trapezoidal => 4
  | gaussLegendre => 5
  | euler | rk2 | rk4 | symplecticEuler => 0

def isImplicit (s : Scheme) : Bool := 0 < s.defaultRounds

def supportsNewton (s : Scheme) : Bool := s == implicitEuler

end Scheme

end FlowShader
