import FlowShader.CompileError
import FlowShader.Config
import FlowShader.Coordinates.Preset
import FlowShader.Token.Lexer

namespace FlowShader

open Coordinates (Frame)

/-- Something read, or all that is wrong with it. -/
abbrev Checked := Except (List CompileError)

namespace Checked

variable {α : Type}

def errors : Checked α → List CompileError
  | .ok _ => []
  | .error es => es

def all : List (Checked α) → Checked (List α)
  | [] => .ok []
  | c :: cs =>
    match c, all cs with
    | .ok a, .ok as => .ok (a :: as)
    | c, rest => .error (errors c ++ errors rest)

end Checked

structure Problem (L : Type) where
  frame : Frame L
  /-- Native velocities. -/
  derivatives : List (Expr L)
  newtonExpressions : Option (List (Expr L))
  color : Option (Expr L)

namespace Config

variable {L : Type} [Literal L]

def readFormula (role : Role) (allowed : List String) (source : String) : Checked (Expr L) :=
  match Expr.parse source with
  | .error e => .error [.malformedFormula role e]
  | .ok e =>
    let unknown := e.vars.filter (!allowed.contains ·)
    if unknown.isEmpty then .ok e
    else .error (unknown.map fun name => .unknownIdentifier role name (findIdentifier source name))

def isPositive (x : L) : Bool := Literal.isFinite x && Scalar.lt 0 x

def settingErrors (c : Config L) : List CompileError :=
  let n := c.dimensions
  (if c.derivatives.length = n then [] else [.derivativeCount n c.derivatives.length])
  ++ (if !Shader.isIdentifier c.alphaName then [.unusableUniform c.alphaName]
    else if Names.isTaken c.alphaName then [.takenUniform c.alphaName]
    else [])
  ++ (if isPositive c.pivotEpsilon then [] else [.pivotEpsilon (Literal.text c.pivotEpsilon)])
  ++ (if isPositive c.solver.tolerance then [] else [.tolerance (Literal.text c.solver.tolerance)])

def findFrame (c : Config L) : Except Coordinates.Error (Frame L) :=
  match c.frame with
  | none => Frame.cartesian c.dimensions
  | some (.preset name) => Frame.ofPreset name
  | some (.record r) => Frame.ofRecord r

def readFrame (c : Config L) : Checked (Frame L) :=
  match c.findFrame with
  | .error e => .error [.coordinates e]
  | .ok s =>
    if s.dimensions = c.dimensions then .ok s
    else .error [.frameDimensions s.name s.dimensions c.dimensions]

def readDerivatives (c : Config L) (labels : List String) : Checked (List (Expr L)) :=
  let allowed := Names.axes c.dimensions ++ labels ++ [Names.alpha]
  .all (c.derivatives.zipIdx.map fun (source, i) => readFormula (.derivative i) allowed source)

def readNewtonExpressions (c : Config L) : Checked (Option (List (Expr L))) :=
  let n := c.dimensions
  match c.newtonExpressions with
  | none => .ok none
  | some sources =>
    if sources.length = n then
      (Checked.all (sources.zipIdx.map fun (source, i) =>
        readFormula (.newton i) (Names.axes n ++ [Names.alpha]) source)).map some
    else .error [.newtonCount n sources.length]

def readColor (c : Config L) : Checked (Option (Expr L)) :=
  let n := c.dimensions
  match c.color with
  | none => .ok none
  | some source =>
    (readFormula .color (Names.axes n ++ [Names.alpha] ++ Names.velocities n) source).map some

/-- Checks a configuration. Without a coordinate system, derivatives are read without its labels. -/
def validate (c : Config L) : Checked (Problem L) :=
  if c.dimensions < 2 || 4 < c.dimensions then .error [.dimensions c.dimensions]
  else
    let settings := c.settingErrors
    let frame := c.readFrame
    let labels := match frame with
      | .ok s => s.labels
      | .error _ => []
    match settings, frame, c.readDerivatives labels, c.readNewtonExpressions, c.readColor with
    | [], .ok s, .ok derivatives, .ok newton, .ok color => .ok ⟨s, derivatives, newton, color⟩
    | settings, s, derivatives, newton, color =>
      .error (settings ++ s.errors ++ derivatives.errors ++ newton.errors ++ color.errors)

end Config

end FlowShader
