import FlowShader.Shader.Stmt
import FlowShader.Shader.Builtin

namespace FlowShader.Shader

/-- Values of matrices stand column by column. -/
inductive Value (K : Type) where
  | float (x : K)
  | bool (b : Bool)
  | vec (xs : List K)
  | mat (n : Nat) (xs : List K)
deriving Repr, Inhabited

inductive Mismatch where
  | scalar (found : Ty)
  | condition (found : Ty)
  | component (i : Nat) (base : Ty)
  | element (col row : Nat) (base : Ty)
  | boolOperand (construct : String)
  | operands (construct : String) (a b : Ty)
  | boolArgument (ty : Ty)
  | argumentCount (ty : Ty) (count : Nat)
  | parameter (function param : String) (declared found : Ty)
  | assignment (place : Place) (found : Ty)
deriving DecidableEq, Repr

namespace Mismatch

def context : Mismatch → String
  | scalar _ => "scalar"
  | condition _ => "condition"
  | component _ _ => "swizzle"
  | element _ _ _ => "matrix element"
  | boolOperand construct | operands construct _ _ => construct
  | boolArgument ty | argumentCount ty _ => ty.text
  | parameter function _ _ _ => function
  | assignment _ _ => "assignment"

def detail : Mismatch → String
  | scalar found => s!"expected float, found {found.text}"
  | condition found => s!"expected bool, found {found.text}"
  | component i base => s!"component {i} of {base.text}"
  | element col row base => s!"[{col}][{row}] of {base.text}"
  | boolOperand _ => "bool operand"
  | operands _ a b => s!"{a.text} and {b.text}"
  | boolArgument _ => "bool constructor argument"
  | argumentCount _ count => s!"{count} scalar argument(s)"
  | parameter _ param declared found => s!"parameter `{param}` is {declared.text}, found {found.text}"
  | assignment place found => s!"{place.text} into {found.text}"

end Mismatch

inductive Fault where
  | unknownFunction (name : String)
  | unknownVariable (name : String)
  | mismatch (m : Mismatch)
  | arity (name : String) (expected found : Nat)
  | missingReturn (name : String)
  | recursionLimit (name : String)
deriving DecidableEq, Repr

def Fault.message : Fault → String
  | unknownFunction name => s!"unknown function `{name}`"
  | unknownVariable name => s!"unknown variable `{name}`"
  | mismatch m => s!"type mismatch in {m.context}: {m.detail}"
  | arity name expected found => s!"`{name}` expects {expected} argument(s), found {found}"
  | missingReturn name => s!"function `{name}` finished without returning"
  | recursionLimit name => s!"call depth exceeded in `{name}`"

namespace Value

variable {K : Type}

def ty : Value K → Ty
  | float _ => .float
  | bool _ => .bool
  | vec xs => .vec xs.length
  | mat n _ => .mat n

def toFloat : Value K → Except Fault K
  | float x => .ok x
  | v => .error (.mismatch (.scalar v.ty))

def toBool : Value K → Except Fault Bool
  | bool b => .ok b
  | v => .error (.mismatch (.condition v.ty))

def component (i : Nat) (v : Value K) : Except Fault K :=
  match v with
  | vec xs =>
    match xs[i]? with
    | some x => .ok x
    | none => .error (.mismatch (.component i v.ty))
  | _ => .error (.mismatch (.component i v.ty))

def element (col row : Nat) (v : Value K) : Except Fault K :=
  match v with
  | mat n xs =>
    match if col < n && row < n then xs[col * n + row]? else none with
    | some x => .ok x
    | none => .error (.mismatch (.element col row v.ty))
  | _ => .error (.mismatch (.element col row v.ty))

def map (construct : String) (f : K → K) : Value K → Except Fault (Value K)
  | float x => .ok (float (f x))
  | vec xs => .ok (vec (xs.map f))
  | mat n xs => .ok (mat n (xs.map f))
  | bool _ => .error (.mismatch (.boolOperand construct))

def zip (construct : String) (f : K → K → K) (a b : Value K) : Except Fault (Value K) :=
  let misfit := .error (.mismatch (.operands construct a.ty b.ty))
  match a, b with
  | float x, float y => .ok (float (f x y))
  | vec xs, vec ys => if xs.length = ys.length then .ok (vec (xs.zipWith f ys)) else misfit
  | mat n xs, mat m ys => if n = m then .ok (mat n (xs.zipWith f ys)) else misfit
  | float x, b => b.map construct (f x)
  | a, float y => a.map construct (f · y)
  | _, _ => misfit

variable [Scalar K]

def diagonal (n : Nat) (x : K) : Value K :=
  mat n ((List.range n).flatMap fun col => (List.range n).map fun row => if col = row then x else 0)

def zero : Ty → Value K
  | .float => float 0
  | .bool => bool false
  | .vec n => vec (List.replicate n 0)
  | .mat n => mat n (List.replicate (n * n) 0)

def entry (n : Nat) (xs : List K) (col row : Nat) : K := xs.getD (col * n + row) 0

/-- Products of matrices and vectors are linear algebra; all others go number by number. -/
def mul (a b : Value K) : Except Fault (Value K) :=
  let range n := List.range n
  match a, b with
  | mat n m, vec v =>
    if v.length = n then
      .ok (vec ((range n).map fun row => Scalar.sum ((range n).map fun col => entry n m col row * v.getD col 0)))
    else zip "*" (· * ·) a b
  | vec v, mat n m =>
    if v.length = n then
      .ok (vec ((range n).map fun col => Scalar.sum ((range n).map fun row => v.getD row 0 * entry n m col row)))
    else zip "*" (· * ·) a b
  | mat n x, mat m y =>
    if n = m then
      .ok (mat n ((range n).flatMap fun col => (range n).map fun row =>
        Scalar.sum ((range n).map fun k => entry n x k row * entry n y col k)))
    else zip "*" (· * ·) a b
  | _, _ => zip "*" (· * ·) a b

def flatten (ty : Ty) : List (Value K) → Except Fault (List K)
  | [] => .ok []
  | v :: vs =>
    match v with
    | float x => (flatten ty vs).map (x :: ·)
    | vec xs | mat _ xs => (flatten ty vs).map (xs ++ ·)
    | bool _ => .error (.mismatch (.boolArgument ty))

/-- One number fills a vector or the diagonal of a matrix; a vector takes its first numbers and a
matrix needs exactly its own. -/
def construct (ty : Ty) (args : List (Value K)) : Except Fault (Value K) :=
  match flatten ty args with
  | .error fault => .error fault
  | .ok xs =>
    let misfit := .error (.mismatch (.argumentCount ty xs.length))
    match ty, xs with
    | .float, x :: _ => .ok (float x)
    | .vec n, [x] => .ok (vec (List.replicate n x))
    | .vec n, xs => if n ≤ xs.length then .ok (vec (xs.take n)) else misfit
    | .mat n, [x] => .ok (diagonal n x)
    | .mat n, xs => if xs.length = n * n then .ok (mat n xs) else misfit
    | _, _ => misfit

def dot (xs ys : List K) : K := Scalar.sum (xs.zipWith (· * ·) ys)

def norm (xs : List K) : K := Scalar.sqrt (dot xs xs)

end Value

def Builtin.eval {K : Type} [Scalar K] (b : Builtin) (name : String) (args : List (Value K)) :
    Except Fault (Value K) :=
  match b, args with
  | func .length, [.vec xs] => .ok (.float (Value.norm xs))
  | func .normalize, [.vec xs] => .ok (.vec (xs.map (· / Value.norm xs)))
  | func f, [x] => x.map name f.apply
  | atan, [x] => x.map name Scalar.atan
  | atan, [y, x] => Value.zip name Scalar.atan2 y x
  | min, [x, y] => Value.zip name Scalar.min x y
  | max, [x, y] => Value.zip name Scalar.max x y
  | pow, [x, y] => Value.zip name Scalar.pow x y
  | mod, [x, y] => Value.zip name Scalar.modulo x y
  | dot, [x, y] =>
    let misfit := .error (.mismatch (.operands name x.ty y.ty))
    match x, y with
    | .vec xs, .vec ys => if xs.length = ys.length then .ok (.float (Value.dot xs ys)) else misfit
    | .float x, .float y => .ok (.float (x * y))
    | _, _ => misfit
  | clamp, [x, lo, hi] =>
    match Value.zip name Scalar.max x lo with
    | .ok x => Value.zip name Scalar.min x hi
    | .error fault => .error fault
  | b, args => .error (.arity name b.arity args.length)

end FlowShader.Shader
