import FlowShader.Coordinates.Record
import FlowShader.Lowering

namespace FlowShader

/-- The place of a formula in a configuration. -/
inductive Role where
  | derivative (i : Nat)
  | newton (i : Nat)
  | color
deriving DecidableEq, Repr

namespace Role

def text : Role → String
  | derivative _ => "derivative"
  | newton _ => "Newton expression"
  | color => "color expression"

def dimension? : Role → Option Nat
  | derivative i | newton i => some i
  | color => none

end Role

inductive CompileErrorKind where
  | lexicalError
  | parseError
  | unknownIdentifier
  | arityError
  | dimensionMismatch
  | unsupportedFeature
deriving DecidableEq, Repr

def CompileErrorKind.name : CompileErrorKind → String
  | lexicalError => "LexicalError"
  | parseError => "ParseError"
  | unknownIdentifier => "UnknownIdentifier"
  | arityError => "ArityError"
  | dimensionMismatch => "DimensionMismatch"
  | unsupportedFeature => "UnsupportedFeature"

inductive CompileError where
  | malformedConfig
  | dimensions (found : Nat)
  | derivativeCount (expected found : Nat)
  | newtonCount (expected found : Nat)
  | unusableUniform (name : String)
  | takenUniform (name : String)
  | pivotEpsilon (text : String)
  | tolerance (text : String)
  | coordinates (cause : Coordinates.Error)
  | frameDimensions (name : String) (found expected : Nat)
  | malformedFormula (role : Role) (cause : SyntaxError)
  | unknownIdentifier (role : Role) (name : String) (position : Option Nat)
  | unboundIdentifier (cause : UnknownIdentifier)
  | inversion (cause : InversionError)
deriving DecidableEq, Repr

namespace CompileError

def syntaxKind : SyntaxError → CompileErrorKind
  | .unexpectedCharacter _ _ | .malformedNumber _ => .lexicalError
  | .arity _ _ _ _ => .arityError
  | .unknownFunction _ _ => .unknownIdentifier
  | _ => .parseError

def coordinatesKind : Coordinates.Error → CompileErrorKind
  | .malformedFormula _ _ cause => syntaxKind cause
  | .unsupportedDimension _ | .countMismatch _ _ _ => .dimensionMismatch
  | .unknownIdentifier _ _ _ => .unknownIdentifier
  | .malformedRecord => .parseError
  | .unknownPreset _ | .invalidLabel _ | .duplicateLabel _ => .unsupportedFeature

def kind : CompileError → CompileErrorKind
  | malformedConfig => .parseError
  | dimensions _ | derivativeCount _ _ | newtonCount _ _ | frameDimensions _ _ _ => .dimensionMismatch
  | unusableUniform _ | takenUniform _ | pivotEpsilon _ | tolerance _ | inversion _ => .unsupportedFeature
  | coordinates cause => coordinatesKind cause
  | malformedFormula _ cause => syntaxKind cause
  | unknownIdentifier _ _ _ | unboundIdentifier _ => .unknownIdentifier

def message : CompileError → String
  | malformedConfig => "malformed configuration"
  | dimensions found => s!"dimensions must be between 2 and 4, found {found}"
  | derivativeCount expected found => s!"expected {expected} derivative expressions, found {found}"
  | newtonCount expected found => s!"expected {expected} Newton expressions, found {found}"
  | unusableUniform name => s!"`{name}` is not a usable uniform name"
  | takenUniform name => s!"uniform name `{name}` clashes with a name in the generated shader"
  | pivotEpsilon text => s!"pivot epsilon must be positive, found {text}"
  | tolerance text => s!"inverse solver tolerance must be positive, found {text}"
  | coordinates (.malformedFormula _ _ cause) => s!"coordinate system: {cause.message}"
  | coordinates cause => cause.message
  | frameDimensions name found expected =>
    s!"coordinate system `{name}` has {found} dimensions, expected {expected}"
  | malformedFormula role cause => s!"{role.text}: {cause.message}"
  | unknownIdentifier role name _ => s!"{role.text}: unknown identifier `{name}`"
  | unboundIdentifier cause => cause.message
  | inversion cause => cause.message

def dimension? : CompileError → Option Nat
  | malformedFormula role _ | unknownIdentifier role _ _ => role.dimension?
  | _ => none

def position? : CompileError → Option Nat
  | coordinates (.malformedFormula _ _ cause) | malformedFormula _ cause => cause.position?
  | unknownIdentifier _ _ position => position
  | _ => none

def text (e : CompileError) : String :=
  let dimension := match e.dimension? with
    | some d => s!" in dimension {d}"
    | none => ""
  let position := match e.position? with
    | some p => s!" at position {p}"
    | none => ""
  s!"{e.kind.name}{dimension}{position}: {e.message}"

/-- All errors of a failed compilation in one line. -/
def summary (errors : List CompileError) : String :=
  "compilation failed: " ++ "; ".intercalate (errors.map text)

end CompileError

end FlowShader
