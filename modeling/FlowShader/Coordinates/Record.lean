import FlowShader.Token
import FlowShader.Json.Fields
import FlowShader.Json.Printer

namespace FlowShader.Coordinates

/-- The lists of which a coordinate system is made. -/
inductive Part where
  | coordinates
  | forward
  | inverse
deriving DecidableEq, Repr

namespace Part

def singular : Part → String
  | coordinates => "variable"
  | forward => "forward transform"
  | inverse => "inverse transform"

def plural (p : Part) : String := p.singular ++ "s"

end Part

inductive Error where
  | unknownPreset (name : String)
  | unsupportedDimension (n : Nat)
  | countMismatch (part : Part) (expected found : Nat)
  | invalidLabel (label : String)
  | duplicateLabel (label : String)
  | malformedFormula (part : Part) (index : Nat) (cause : SyntaxError)
  | unknownIdentifier (part : Part) (index : Nat) (name : String)
  | malformedRecord
deriving DecidableEq, Repr

def Error.message : Error → String
  | unknownPreset name => s!"unknown coordinate system preset `{name}`"
  | unsupportedDimension n => s!"coordinate systems must have between 2 and 4 dimensions, found {n}"
  | countMismatch part expected found => s!"expected {expected} {part.plural}, found {found}"
  | invalidLabel label => s!"invalid variable label `{label}`"
  | duplicateLabel label => s!"duplicate variable label `{label}`"
  | malformedFormula part index cause => s!"{part.singular} {index}: {cause.message}"
  | unknownIdentifier part index name =>
    s!"{part.singular} {index} references unknown identifier `{name}`"
  | malformedRecord => "malformed coordinate system record"

/-- A native coordinate: its name in formulas and how it is shown. -/
structure Coordinate where
  label : String
  display : String := ""
deriving DecidableEq, Repr

structure Record where
  name : String
  dimensions : Nat
  coordinates : List Coordinate
  /-- Native coordinates in terms of Cartesian ones. -/
  forward : List String
  /-- Cartesian coordinates in terms of native ones. -/
  inverse : Option (List String) := none
  /-- Without an inverse, one may be found by iteration. -/
  iterative : Bool := false
deriving DecidableEq, Repr

def Coordinate.toJson (c : Coordinate) : Json :=
  .object [("label", .string c.label), ("displayLabel", .string c.display)]

def Coordinate.ofJson? (j : Json) : Option Coordinate := do
  let fs ← Json.Fields.read? ["label", "displayLabel"] j
  return ⟨← fs.required "label" Json.string?, ← fs.optional "displayLabel" "" Json.string?⟩

namespace Record

def strings (xs : List String) : Json := .array (xs.map .string)

def toJson (r : Record) : Json :=
  .object [("name", .string r.name), ("dimensions", .ofNat r.dimensions),
    ("variables", .array (r.coordinates.map Coordinate.toJson)),
    ("forwardTransforms", strings r.forward),
    ("inverseTransforms", .ofOption strings r.inverse),
    ("useIterativeSolver", .bool r.iterative)]

def fieldNames : List String :=
  ["name", "dimensions", "variables", "forwardTransforms", "inverseTransforms", "useIterativeSolver"]

def ofJson? (j : Json) : Option Record := do
  let fs ← Json.Fields.read? fieldNames j
  let texts := Json.list? Json.string?
  return {
    name := ← fs.required "name" Json.string?
    dimensions := ← fs.required "dimensions" Json.count?
    coordinates := ← fs.required "variables" (Json.list? Coordinate.ofJson?)
    forward := ← fs.required "forwardTransforms" texts
    inverse := ← fs.optional "inverseTransforms" none (Json.nullable? texts)
    iterative := ← fs.optional "useIterativeSolver" false Json.bool? }

def text (r : Record) : String := r.toJson.pretty 0

end Record

end FlowShader.Coordinates
