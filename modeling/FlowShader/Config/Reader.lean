import FlowShader.Config
import FlowShader.Json.Reader
import FlowShader.Scalar.Double

namespace FlowShader

open Json (Fields)

/-- How deep a value with a choice of frame may be nested. -/
def FrameChoice.depthLimit : Nat := 126

def FrameChoice.ofJson? (j : Json) : Option FrameChoice :=
  if !j.isSound || depthLimit < j.depth then none
  else match j with
    | .string name => some (.preset name)
    | j => (Coordinates.Record.ofJson? j).map .record

namespace Config

/-- A name, or an object whose one member has that name and holds nothing. -/
def choice? {α : Type} (ofName? : String → Option α) : Json → Option α
  | .string name => ofName? name
  | .object [(name, .null)] => ofName? name
  | _ => none

def paramNames : List String := ["iterations", "method", "newtonExpressions"]

def fieldNames : List String :=
  ["dimensions", "derivatives", "coordinateSystem", "integrator", "integratorParams", "uniforms",
    "pivotEpsilon", "inverseSolver", "colorExpression"]

def readSolver? (j : Json) : Option (Coordinates.Solver Float) := do
  let fs ← Fields.read? ["maxIterations", "tolerance"] j
  let standard : Coordinates.Solver Float := .standard
  return ⟨← fs.optional "maxIterations" standard.maxIterations Json.count?,
    ← fs.optional "tolerance" standard.tolerance Json.float?⟩

def readParams? (c : Config Float) (j : Json) : Option (Config Float) := do
  let fs ← Fields.read? paramNames j
  return { c with
    rounds := ← fs.optional "iterations" none (Json.nullable? Json.count?)
    method := ← fs.optional "method" .fixedPoint (choice? Method.ofName?)
    newtonExpressions :=
      ← fs.optional "newtonExpressions" none (Json.nullable? (Json.list? Json.string?)) }

def readAlphaName? (j : Json) : Option String := do
  let fs ← Fields.read? ["alphaName"] j
  fs.optional "alphaName" defaultAlphaName Json.string?

def ofJson? (j : Json) : Option (Config Float) := do
  let fs ← Fields.read? fieldNames j
  let dimensions ← fs.required "dimensions" Json.count?
  let derivatives ← fs.required "derivatives" (Json.list? Json.string?)
  let c : Config Float := .ofDerivatives dimensions derivatives
  let c ← fs.optional "integratorParams" c (readParams? c)
  return { c with
    frame := ← fs.optional "coordinateSystem" none (Json.nullable? FrameChoice.ofJson?)
    scheme := ← fs.optional "integrator" .euler (choice? Scheme.ofName?)
    alphaName := ← fs.optional "uniforms" c.alphaName readAlphaName?
    pivotEpsilon := ← fs.optional "pivotEpsilon" c.pivotEpsilon Json.float?
    solver := ← fs.optional "inverseSolver" c.solver readSolver?
    color := ← fs.optional "colorExpression" none (Json.nullable? Json.string?) }

def parse? (text : String) : Option (Config Float) := (Json.parse? text).bind ofJson?

end Config

end FlowShader
