import FlowShader.Shader.Module
import FlowShader.Matrix

namespace FlowShader.Shader.Inverse

variable {L : Type} [Literal L]

/-- The module constant with the pivot epsilon. -/
def epsilonName : String := "PIVOT_EPSILON"

/-- Inverting functions are this stem with their dimension. -/
def stem : String := "invertMatrix"

def functionName (n : Nat) : String := stem ++ toString n

def cell (matrix : String) (col row : Nat) : Term L := .element (.var matrix) col row

def setCell (matrix : String) (col row : Nat) (value : Term L) : Stmt L :=
  .assign (.element matrix col row) value

def setVar (name : String) (value : Term L) : Stmt L := .assign (.var name) value

def abs (t : Term L) : Term L := .call "abs" [t]

def clampPivot (name : String) : Stmt L :=
  let p : Term L := .var name
  let eps : Term L := .var epsilonName
  .branch (.lt (abs p) eps)
    [.branch (.lt p (.float 0)) [setVar name (.neg eps)] [setVar name eps]]
    []

def closedForm : List (Stmt L) :=
  let m := cell "m"
  [.declare .float "det" (m 0 0 * m 1 1 - m 1 0 * m 0 1),
    clampPivot "det",
    .result (.construct (.mat 2) [m 1 1, .neg (m 0 1), .neg (m 1 0), m 0 0] / .var "det")]

def span (lo hi : Nat) : List Nat := List.range' lo (hi - lo)

def swapRows (n : Nat) (matrix : String) (first r₁ r₂ : Nat) : List (Stmt L) :=
  (span first n).flatMap fun c =>
    [setVar "s" (cell matrix c r₁), setCell matrix c r₁ (cell matrix c r₂), setCell matrix c r₂ (.var "s")]

def onBoth (n k : Nat) (rowOp : String → Nat → Stmt L) : List (Stmt L) :=
  (span k n).map (rowOp "a") ++ (span 0 n).map (rowOp "inv")

def pivotRows (n k : Nat) : List (Stmt L) :=
  (span (k + 1) n).map fun r =>
    .branch (.gt (abs (cell "a" k r)) (abs (cell "a" k k)))
      (swapRows n "a" k k r ++ swapRows n "inv" 0 k r)
      []

def clearRow (n k r : Nat) : List (Stmt L) :=
  setVar "f" (cell "a" k r)
    :: onBoth n k fun matrix c => setCell matrix c r (cell matrix c r - .var "f" * cell matrix c k)

def eliminate (n k : Nat) : List (Stmt L) :=
  .comment s!"column {k}"
    :: (pivotRows n k
      ++ [setVar "p" (cell "a" k k), clampPivot "p"]
      ++ onBoth n k (fun matrix c => setCell matrix c k (cell matrix c k / .var "p"))
      ++ ((span 0 n).filter (· ≠ k)).flatMap (clearRow n k))

def gaussJordan (n : Nat) : List (Stmt L) :=
  [.declare (.mat n) "a" (.var "m"),
    .declare (.mat n) "inv" (.construct (.mat n) [.float 1]),
    .declare .float "s" (.float 0),
    .declare .float "p" (.float 0),
    .declare .float "f" (.float 0)]
    ++ (span 0 n).flatMap (eliminate n) ++ [.result (.var "inv")]

/-- The inverting function for two to four dimensions. -/
def function (n : Nat) : Except InversionError (Function L) :=
  let build (body : List (Stmt L)) : Function L := ⟨functionName n, [(.mat n, "m")], .mat n, body⟩
  match n with
  | 2 => .ok (build closedForm)
  | 3 | 4 => .ok (build (gaussJordan n))
  | n => .error (.unsupportedDimension n)

def addTo (m : Module L) (n : Nat) (epsilon : L) : Except InversionError (Module L) :=
  if m.defines (functionName n) then .ok m
  else do
    let f ← function n
    return (m.addConstant epsilonName .float (.float epsilon)).addFunction f

end FlowShader.Shader.Inverse
