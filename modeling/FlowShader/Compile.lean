import FlowShader.Problem
import FlowShader.Scheme.Step

namespace FlowShader

open Coordinates (Frame Strategy)
open Shader (Term Stmt Ty Function Module)

structure Metadata where
  dimensions : Nat
  frame : String
  chartCount : Nat
  strategy : Strategy
  scheme : Scheme
  /-- How the implicit equation is solved; nothing for explicit schemes. -/
  method : Option Method
  rounds : Nat
  alphaUniform : String
  functions : List String
deriving DecidableEq, Repr

structure Output (L : Type) where
  module : Module L
  diagnostics : List Diagnostic
  metadata : Metadata

namespace Problem

variable {L : Type} [Literal L]

/-- Cartesian velocities as formulas: the ones given, the derivatives of a Cartesian system, or the
derivatives at the forward formulas through the inverse Jacobian. -/
def newtonVelocity (p : Problem L) : Option (List (Expr L)) :=
  match p.newtonExpressions with
  | some es => some es
  | none =>
    if p.frame.isCartesian then some p.derivatives
    else
      match p.frame.jacobian.inverse with
      | .error _ => none
      | .ok inv =>
        let native := Expr.bindings (p.frame.labels.zip p.frame.forward)
        some (inv.apply (p.derivatives.map (Expr.subst native)))

def getVelocity (p : Problem L) (alpha : String) : Except UnknownIdentifier (Function L) := do
  let s := p.frame
  let n := s.dimensions
  let cartesian := (({} : Bindings L).bindVector s.axes "pos").bind Names.alpha (.var alpha)
  let function (body : List (Stmt L)) : Function L := ⟨Names.getVelocity, [(.vec n, "pos")], .vec n, body⟩
  if s.isCartesian then
    let (declarations, components) ← (Lowering.emitting cartesian).lowerAll p.derivatives p.derivatives
    return function (declarations ++ [.result (.construct (.vec n) components)])
  else
    let native := cartesian.bindVector s.labels "native"
    let (declarations, components) ← (Lowering.emitting native).lowerAll p.derivatives p.derivatives
    return function (.declare (.vec n) "native" (.call Names.toNative [.var "pos"]) :: declarations
      ++ [.declare (.vec n) "velNative" (.construct (.vec n) components),
        .result (.call Names.velocityToCartesian [.var "velNative", .var "pos"])])

def colorFunction (e : Expr L) (n : Nat) (alpha : String) : Except UnknownIdentifier (Function L) := do
  let bindings := ((({} : Bindings L).bindVector (Names.axes n) "pos").bindVector
    (Names.velocities n) "velocity").bind Names.alpha (.var alpha)
  let (declarations, values) ← (Lowering.emitting bindings).lowerAll [e] [e]
  return ⟨Names.color, [(.vec n, "pos"), (.vec n, "velocity")], .float,
    declarations ++ values.map .result⟩

def roughDerivatives (p : Problem L) : List Diagnostic :=
  p.derivatives.zipIdx.filterMap fun (e, i) =>
    let rough := Expr.sortNames ((p.frame.axes ++ p.frame.labels).flatMap fun v => e.roughCalls v)
    let names := ", ".intercalate rough
    if rough.isEmpty then none
    else some ⟨.jacobianNonDifferentiable,
      s!"derivative uses {names}; Newton iteration is replaced by fixed-point iteration", some i⟩

def newtonJacobian (p : Problem L) (scheme : Scheme) (method : Method) (alpha : String) :
    Except UnknownIdentifier (Option (Function L) × List Diagnostic) :=
  if !scheme.isImplicit || method != .newton then return (none, [])
  else
    let rough := p.roughDerivatives
    if !scheme.supportsNewton then
      return (none, rough ++ [⟨.newtonUnsupportedByIntegrator,
        s!"{scheme.name} has no Newton variant; using fixed-point iteration", none⟩])
    else if !rough.isEmpty then return (none, rough)
    else
      match p.newtonVelocity with
      | none => return (none, [⟨.newtonExpressionsMissing,
          "no Cartesian velocity Jacobian could be built; using fixed-point iteration", none⟩])
      | some es =>
        let rough := Expr.sortNames (es.flatMap fun e => p.frame.axes.flatMap fun v => e.roughCalls v)
        let names := ", ".intercalate rough
        if !rough.isEmpty then
          return (none, [⟨.jacobianNonDifferentiable,
            s!"Newton expressions use {names}; using fixed-point iteration", none⟩])
        else do
          let f ← Scheme.velocityJacobian (.jacobian es p.frame.axes) alpha
          return (some f, [])

/-- The module of a problem under the settings of a configuration. Every function stands after the
ones that it calls. -/
def compile (p : Problem L) (c : Config L) : Except CompileError (Output L) := do
  let s := p.frame
  let n := s.dimensions
  let emit {α : Type} : Except UnknownIdentifier α → Except CompileError α :=
    Except.mapError .unboundIdentifier
  let (jacobian, newtonRemarks) ← emit (p.newtonJacobian c.scheme c.method c.alphaName)
  let method : Method := if jacobian.isSome then .newton else .fixedPoint
  let rounds := c.rounds.getD c.scheme.defaultRounds
  let m := ({} : Module L).addUniform c.alphaName .float
  let m ← match p.color with
    | some e => m.addFunction <$> emit (colorFunction e n c.alphaName)
    | none => pure m
  let m ← if method == .newton || s.strategy == .newton
    then (Shader.Inverse.addTo m n c.pivotEpsilon).mapError .inversion
    else pure m
  let toNative ← emit s.toNative
  let toCartesian ← emit (s.toCartesian c.solver)
  let (velocityToCartesian, velocityRemarks) ← emit s.velocityToCartesian
  let getVelocity ← emit (p.getVelocity c.alphaName)
  let functions := [toNative, toCartesian, velocityToCartesian, getVelocity] ++ jacobian.toList
    ++ [c.scheme.integrate n rounds method]
  let m := functions.foldl Module.addFunction m
  return {
    module := m
    diagnostics := newtonRemarks ++ s.inverseDiagnostics ++ velocityRemarks
    metadata := {
      dimensions := n
      frame := s.name
      chartCount := s.atlas.charts.length
      strategy := s.strategy
      scheme := c.scheme
      method := if c.scheme.isImplicit then some method else none
      rounds := if c.scheme.isImplicit then rounds else 0
      alphaUniform := c.alphaName
      functions := m.functionNames } }

end Problem

def Config.compile {L : Type} [Literal L] (c : Config L) : Checked (Output L) := do
  let p ← c.validate
  (p.compile c).mapError ([·])

end FlowShader
