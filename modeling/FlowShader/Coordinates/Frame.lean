import FlowShader.Coordinates.Atlas
import FlowShader.Coordinates.Record
import FlowShader.Expr.Parser
import FlowShader.Names

namespace FlowShader.Coordinates

inductive Strategy where
  | identity
  | explicit
  | newton
  | missing
deriving DecidableEq, Repr

def Strategy.name : Strategy → String
  | identity => "identity"
  | explicit => "explicit"
  | newton => "newton"
  | missing => "missing"

structure Frame (L : Type) where
  name : String
  coordinates : List Coordinate
  forward : List (Expr L)
  inverse : Option (List (Expr L))
  iterative : Bool
  atlas : Atlas L
deriving BEq

/-- A name that formulas can use for a coordinate: no constant, no function, not the animation
parameter. -/
def isLabel (name : String) : Bool :=
  (match name.toList with
    | [] => false
    | c :: rest => Token.isNameStart c && rest.all Token.isNameChar)
    && name != Names.alpha && (Constant.ofName? name).isNone && (Callable.ofName? name).isNone

namespace Frame

variable {L : Type}

def dimensions (s : Frame L) : Nat := s.forward.length

def labels (s : Frame L) : List String := s.coordinates.map (·.label)

def axes (s : Frame L) : List String := Names.axes s.dimensions

def checkCount (expected : Nat) (part : Part) (found : Nat) : Except Error Unit :=
  if found = expected then .ok () else .error (.countMismatch part expected found)

def checkLabels (seen : List String) : List String → Except Error Unit
  | [] => .ok ()
  | label :: rest =>
    if !isLabel label then .error (.invalidLabel label)
    else if seen.contains label then .error (.duplicateLabel label)
    else checkLabels (label :: seen) rest

variable [Literal L]

def readFormula (part : Part) (allowed : List String) (index : Nat) (source : String) :
    Except Error (Expr L) :=
  match Expr.parse source with
  | .error e => .error (.malformedFormula part index e)
  | .ok e =>
    match e.vars.find? (!allowed.contains ·) with
    | some name => .error (.unknownIdentifier part index name)
    | none => .ok e

def readFormulas (part : Part) (allowed : List String) (sources : List String) :
    Except Error (List (Expr L)) :=
  sources.zipIdx.mapM fun (source, index) => readFormula part allowed index source

/-- Checks a record. Forward formulas are over Cartesian names, inverse ones over labels; a
coordinate without a display label is shown by its label. -/
def ofRecord (r : Record) : Except Error (Frame L) := do
  let n := r.dimensions
  if n < 2 || 4 < n then throw (.unsupportedDimension n)
  checkCount n .coordinates r.coordinates.length
  checkCount n .forward r.forward.length
  if let some sources := r.inverse then checkCount n .inverse sources.length
  let labels := r.coordinates.map (·.label)
  checkLabels [] labels
  let forward ← readFormulas .forward (Names.axes n) r.forward
  let inverse ← match r.inverse with
    | some sources => some <$> readFormulas .inverse labels sources
    | none => pure none
  return {
    name := r.name
    coordinates := r.coordinates.map fun c => if c.display.isEmpty then ⟨c.label, c.label⟩ else c
    forward
    inverse
    iterative := r.iterative
    atlas := .generate (Names.axes n) forward }

def toRecord (s : Frame L) : Record where
  name := s.name
  dimensions := s.dimensions
  coordinates := s.coordinates
  forward := s.forward.map Expr.text
  inverse := s.inverse.map (·.map Expr.text)
  iterative := s.iterative

def isCartesian (s : Frame L) : Bool :=
  ((s.axes.zip s.forward).zip s.coordinates).all fun ((axis, f), c) =>
    c.label == axis && f == .var axis

def strategy (s : Frame L) : Strategy :=
  if s.isCartesian then .identity
  else if s.inverse.isSome then .explicit
  else if s.iterative then .newton
  else .missing

/-- Functions in the forward formulas whose derivative is taken as zero. -/
def roughCalls (s : Frame L) : List String :=
  Expr.sortNames (s.forward.flatMap fun f => s.axes.flatMap fun v => f.roughCalls v)

def jacobian (s : Frame L) : Matrix L := .jacobian s.forward s.axes

end Frame

end FlowShader.Coordinates
