import FlowShader.Coordinates.Frame
import FlowShader.Diagnostic

namespace FlowShader.Coordinates

open Shader (Term Stmt Ty Function)

/-- Limits of the iteration that inverts the forward formulas. -/
structure Solver (L : Type) where
  maxIterations : Nat
  tolerance : L

def Solver.standard {L : Type} [Literal L] : Solver L := ⟨10, Literal.ofPlaces 1 6⟩

namespace Frame

variable {L : Type} [Literal L]

def onComponents (names : List String) (base : String) : Lowering L :=
  .emitting (({} : Bindings L).bindVector names base)

def lowerVector (c : Lowering L) (es : List (Expr L)) :
    Except UnknownIdentifier (List (Stmt L) × Term L) := do
  let (declarations, components) ← c.lowerAll es es
  return (declarations, .construct (.vec es.length) components)

def lowerMatrix (c : Lowering L) (m : Matrix L) :
    Except UnknownIdentifier (List (Stmt L) × Term L) := do
  let (declarations, entries) ← c.lowerAll m.entries m.columnEntries
  return (declarations, .construct (.mat m.height) entries)

def toNative (s : Frame L) : Except UnknownIdentifier (Function L) := do
  let n := s.dimensions
  let body ← if s.isCartesian then pure [.result (.var "pos")] else do
    let (declarations, native) ← lowerVector (onComponents s.axes "pos") s.forward
    pure (declarations ++ [.result native])
  return ⟨Names.toNative, [(.vec n, "pos")], .vec n, body⟩

def newtonInverse (s : Frame L) (solver : Solver L) : Except UnknownIdentifier (List (Stmt L)) := do
  let n := s.dimensions
  let (declarations, jacobian) ← lowerMatrix (onComponents s.axes "guess") s.jacobian
  let guess : Term L := .var "guess"
  let residual : Term L := .var "residual"
  let round : List (Stmt L) :=
    [.declare (.vec n) "residual" (.call Names.toNative [guess] - .var "native"),
      .branch (.lt (.call "length" [residual]) (.float solver.tolerance)) [.leave] []]
    ++ declarations
    ++ [.declare (.mat n) "jac" jacobian,
      .assign (.var "guess") (guess - .call (Shader.Inverse.functionName n) [.var "jac"] * residual)]
  return [.comment "Newton iteration on transformToNative(guess) = native",
    .declare (.vec n) "guess" (.var "native"),
    .loop solver.maxIterations round,
    .result guess]

def inverseDiagnostics (s : Frame L) : List Diagnostic :=
  match s.strategy with
  | .identity | .explicit => []
  | .newton =>
    let rough := s.roughCalls
    if rough.isEmpty then []
    else
      let names := ", ".intercalate rough
      [⟨.jacobianNonDifferentiable,
        s!"forward transforms of `{s.name}` use {names}; their derivatives are taken as zero", none⟩]
  | .missing =>
    [⟨.inverseMissingFallbackIdentity, s!"`{s.name}` has no inverse transform; using the identity", none⟩]

def toCartesian (s : Frame L) (solver : Solver L) : Except UnknownIdentifier (Function L) := do
  let n := s.dimensions
  let body ← match s.strategy with
    | .identity => pure [.result (.var "native")]
    | .explicit => do
      let (declarations, position) ← lowerVector (onComponents s.labels "native") (s.inverse.getD [])
      pure (declarations ++ [.result position])
    | .newton => s.newtonInverse solver
    | .missing =>
      pure [.comment "no inverse transform available, identity fallback", .result (.var "native")]
  return ⟨Names.toCartesian, [(.vec n, "native")], .vec n, body⟩

def chartInverses (s : Frame L) : List (String × Except InversionError (Matrix.Inverse L)) :=
  s.atlas.charts.foldl (fun found c =>
    if found.any (·.1 == c.key) then found
    else found ++ [(c.key, (Matrix.jacobian c.forward s.axes).inverse)]) []

def adjugateTerms (c : Lowering L) : List (Expr L × Nat) → Lowering.Action L (List (Term L))
  | [] => return []
  | (e, j) :: rest =>
    if e.isZero then adjugateTerms c rest
    else do
      let v : Term L := .component (.var "velNative") j
      let t ← if e.isOne then pure v else (· * v) <$> c.build e
      return t :: (← adjugateTerms c rest)

def adjugateRows (c : Lowering L) : List (List (Expr L)) → Lowering.Action L (List (Term L))
  | [] => return []
  | row :: rows => do
    let terms ← adjugateTerms c row.zipIdx
    return .sum terms * .var "invDet" :: (← adjugateRows c rows)

/-- The native velocity through an inverse Jacobian. The determinant is lowered first, and all
declarations come before the division by it. -/
def applyInverse (c : Lowering L) (n : Nat) (inv : Matrix.Inverse L) :
    Except UnknownIdentifier (List (Stmt L)) :=
  Lowering.run do
    c.prepare (inv.determinant :: inv.adjugate.entries)
    let determinant ← c.build inv.determinant
    let components ← adjugateRows c inv.adjugate.rows
    let declarations ← Lowering.takeStatements
    return declarations
      ++ [.declare .float "invDet" (.float 1 / determinant), .result (.construct (.vec n) components)]

def nudge (n axis : Nat) : List (Stmt L) :=
  let offset : Term L := .places 1 3 * .call "length" [.var "pos"] + .places 1 6
  [.comment "near the polar axis: Jacobian taken off-axis",
    .declare (.vec n) "nudged" (.var "pos"),
    .assign (.component "nudged" axis) (.component (.var "nudged") axis + offset)]

def chartBody (s : Frame L) (c : Chart L) (inverse : Except InversionError (Matrix.Inverse L)) :
    Except UnknownIdentifier (List (Stmt L)) := do
  let n := s.dimensions
  let (start, base) := match c.kind with
    | .polarCap axis => (nudge n axis, "nudged")
    | .primary | .swapped => ([], "pos")
  match inverse with
  | .error e => return start ++ [.comment s!"{e.message}; identity fallback", .result (.var "velNative")]
  | .ok inv => return start ++ (← applyInverse (onComponents s.axes base) n inv)

def cascade (s : Frame L) : List (Chart L × List (Stmt L)) → Except UnknownIdentifier (List (Stmt L))
  | [] => return [.result (.var "velNative")]
  | [(_, body)] => return body
  | (c, body) :: rest => do
    let otherwise ← cascade s rest
    let lowering : Lowering L := { bindings := ({} : Bindings L).bindVector s.axes "pos" }
    let test ← Lowering.run (c.region.lower lowering)
    return [.branch test body otherwise]

def invertedCharts (s : Frame L) : List ((Chart L × Except InversionError (Matrix.Inverse L)) × Nat) :=
  let inverses := s.chartInverses
  (s.atlas.charts.map fun c =>
    (c, ((inverses.find? (·.1 == c.key)).map (·.2)).getD (.error .singular))).zipIdx

def velocityDiagnostics (s : Frame L)
    (charts : List ((Chart L × Except InversionError (Matrix.Inverse L)) × Nat)) : List Diagnostic :=
  let rough := s.roughCalls
  let names := ", ".intercalate rough
  (if rough.isEmpty then []
    else [⟨.jacobianNonDifferentiable, s!"Jacobian of `{s.name}` treats {names} as constant", none⟩])
  ++ charts.flatMap fun ((c, inverse), i) =>
    (match inverse with
      | .ok _ => []
      | .error e => [⟨.jacobianSingular,
          s!"chart {i} of `{s.name}`: {e.message}; velocity transform falls back to the identity", none⟩])
    ++ (match c.kind with
      | .polarCap _ => [⟨.polarCapApproximation,
          s!"chart {i} of `{s.name}` evaluates the Jacobian off the polar axis where {c.region.text}", none⟩]
      | .primary | .swapped => [])

/-- From a native velocity at a Cartesian position to the Cartesian velocity, through the inverse
Jacobian of the chart that owns the position. -/
def velocityToCartesian (s : Frame L) : Except UnknownIdentifier (Function L × List Diagnostic) := do
  let n := s.dimensions
  let function (body : List (Stmt L)) : Function L :=
    ⟨Names.velocityToCartesian, [(.vec n, "velNative"), (.vec n, "pos")], .vec n, body⟩
  if s.isCartesian then return (function [.result (.var "velNative")], [])
  else
    let charts := s.invertedCharts
    let bodies ← charts.mapM fun ((c, inverse), _) => do return (c, ← s.chartBody c inverse)
    return (function (← s.cascade bodies), s.velocityDiagnostics charts)

end Frame

end FlowShader.Coordinates
