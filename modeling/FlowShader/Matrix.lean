import FlowShader.Expr.Derivative
import FlowShader.Simplify

namespace FlowShader

inductive InversionError where
  | singular
  | unsupportedDimension (n : Nat)
  | notSquare (rows cols : Nat)
deriving DecidableEq, Repr

def InversionError.message : InversionError → String
  | singular => "matrix is singular: determinant simplifies to zero"
  | unsupportedDimension n => s!"inversion of {n}x{n} matrices is not supported"
  | notSquare rows cols => s!"matrix with {rows} rows and {cols} columns is not square"

structure Matrix (L : Type) where
  rows : List (List (Expr L))

namespace Matrix

variable {L : Type}

def height (m : Matrix L) : Nat := m.rows.length

def width (m : Matrix L) : Nat := (m.rows.head?.map List.length).getD 0

def isSquare (m : Matrix L) : Bool := m.rows.all (·.length == m.height)

def entries (m : Matrix L) : List (Expr L) := m.rows.flatten

def columnEntries (m : Matrix L) : List (Expr L) :=
  (List.range m.height).flatMap fun c => m.rows.filterMap (·[c]?)

def map (f : Expr L → Expr L) (m : Matrix L) : Matrix L := ⟨m.rows.map (·.map f)⟩

def get? (m : Matrix L) (row col : Nat) : Option (Expr L) := m.rows[row]?.bind (·[col]?)

def minor (m : Matrix L) (row col : Nat) : Matrix L := ⟨(m.rows.eraseIdx row).map (·.eraseIdx col)⟩

def chunks {α : Type} (n : Nat) : List α → List (List α)
  | [] => []
  | x :: xs => (x :: xs.take (n - 1)) :: chunks n (xs.drop (n - 1))
termination_by xs => xs.length
decreasing_by simp only [List.length_cons, List.length_drop]; omega

def eval {K : Type} [Scalar K] (ρ : Valuation L K) (m : Matrix L) : Except Unbound (List (List K)) :=
  m.rows.mapM (·.mapM (Expr.eval ρ))

variable [Literal L]

def identity (n : Nat) : Matrix L :=
  ⟨(List.range n).map fun i => (List.range n).map fun j => if i = j then .one else .zero⟩

def text (m : Matrix L) : String :=
  "[\n" ++ String.join (m.rows.map fun row => "  [" ++ ", ".intercalate (row.map Expr.text) ++ "]\n") ++ "]"

/-- The partial derivatives of every function in every variable, not simplified. -/
def partials (functions : List (Expr L)) (names : List String) : List (Expr L) :=
  functions.flatMap fun f => names.map fun x => f.derivative x

def jacobian (functions : List (Expr L)) (names : List String) : Matrix L :=
  ⟨chunks (max 1 names.length) (Expr.simplifyAll (partials functions names))⟩

def expand : Nat → List (List (Expr L)) → Expr L
  | 0, _ => .one
  | 1, rows => (rows.headD []).headD .zero
  | 2, rows =>
    let at' (i j : Nat) := (rows.getD i []).getD j .zero
    at' 0 0 * at' 1 1 - at' 0 1 * at' 1 0
  | n + 1, rows =>
    let first := rows.headD []
    ((List.range (n + 1)).filter fun j => !(first.getD j .zero).isZero).foldl (fun acc j =>
      let term := first.getD j .zero * expand n ((rows.drop 1).map (·.eraseIdx j))
      if j % 2 = 0 then acc + term else acc - term) .zero

def expandDeterminant (m : Matrix L) : Expr L := expand m.height m.rows

def checkSquare (m : Matrix L) : Except InversionError Nat :=
  if m.isSquare then .ok m.height else .error (.notSquare m.height m.width)

def determinant (m : Matrix L) : Except InversionError (Expr L) := do
  let _ ← m.checkSquare
  return m.expandDeterminant.simplify

def expandAdjugate (m : Matrix L) : List (Expr L) :=
  (List.range m.height).flatMap fun i => (List.range m.height).map fun j =>
    let cofactor := (m.minor j i).expandDeterminant
    if (i + j) % 2 = 0 then cofactor else -cofactor

def mulVector (m : Matrix L) (v : List (Expr L)) : List (Expr L) :=
  m.rows.map fun row =>
    ((row.zip v).filter fun (a, x) => !a.isZero && !x.isZero).foldl (fun acc (a, x) => acc + a * x) .zero

/-- The inverse of a matrix as its adjugate over its determinant. -/
structure Inverse (L : Type) where
  determinant : Expr L
  adjugate : Matrix L

namespace Inverse

def toMatrix (inv : Inverse L) : Matrix L := inv.adjugate.map (· / inv.determinant)

/-- The product of the inverse with a column; the determinant divides last. -/
def apply (inv : Inverse L) (v : List (Expr L)) : List (Expr L) :=
  (inv.adjugate.mulVector v).map (· / inv.determinant)

end Inverse

/-- The inverse of a matrix of two to four rows, all entries simplified together. -/
def inverse (m : Matrix L) : Except InversionError (Inverse L) := do
  let n ← m.checkSquare
  if n < 2 || 4 < n then .error (.unsupportedDimension n)
  else
    match Expr.simplifyAll (m.expandDeterminant :: m.expandAdjugate) with
    | [] => .error .singular
    | det :: adjugate => if det.isZero then .error .singular else return ⟨det, ⟨chunks n adjugate⟩⟩

end Matrix

end FlowShader
