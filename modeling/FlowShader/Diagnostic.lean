namespace FlowShader

inductive DiagnosticKind where
  /-- The Jacobian of a chart has no inverse; the chart uses the identity. -/
  | jacobianSingular
  /-- A derivative met a function without one and took it as zero. -/
  | jacobianNonDifferentiable
  /-- There is no way back from native coordinates; the identity stands in. -/
  | inverseMissingFallbackIdentity
  /-- Newton iteration was asked for, but there is no velocity Jacobian. -/
  | newtonExpressionsMissing
  /-- Newton iteration was asked for with a scheme that has only fixed-point iteration. -/
  | newtonUnsupportedByIntegrator
  /-- Near a polar axis the Jacobian is taken at a displaced point. -/
  | polarCapApproximation
deriving DecidableEq, Repr

namespace DiagnosticKind

def all : List DiagnosticKind :=
  [jacobianSingular, jacobianNonDifferentiable, inverseMissingFallbackIdentity,
    newtonExpressionsMissing, newtonUnsupportedByIntegrator, polarCapApproximation]

def name : DiagnosticKind → String
  | jacobianSingular => "JacobianSingular"
  | jacobianNonDifferentiable => "JacobianNonDifferentiable"
  | inverseMissingFallbackIdentity => "InverseMissingFallbackIdentity"
  | newtonExpressionsMissing => "NewtonExpressionsMissing"
  | newtonUnsupportedByIntegrator => "NewtonUnsupportedByIntegrator"
  | polarCapApproximation => "PolarCapApproximation"

def ofName? (name : String) : Option DiagnosticKind := all.find? (·.name == name)

end DiagnosticKind

structure Diagnostic where
  kind : DiagnosticKind
  message : String
  dimension : Option Nat := none
deriving DecidableEq, Repr

namespace Diagnostic

def text (d : Diagnostic) : String :=
  match d.dimension with
  | some i => s!"{d.kind.name} (dimension {i}): {d.message}"
  | none => s!"{d.kind.name}: {d.message}"

def has (kind : DiagnosticKind) (ds : List Diagnostic) : Bool := ds.any (·.kind == kind)

end Diagnostic

end FlowShader
