import Std.Data.HashMap
import FlowShader.Names
import FlowShader.Shader.Stmt
import FlowShader.Shader.Builtin

namespace FlowShader

open Shader (Term Stmt Ty Builtin)

variable {L : Type}

structure Bindings (L : Type) where
  entries : List (String × Term L) := []

namespace Bindings

def get? (b : Bindings L) (name : String) : Option (Term L) :=
  (b.entries.find? (·.1 == name)).map (·.2)

def bind (b : Bindings L) (name : String) (t : Term L) : Bindings L := ⟨(name, t) :: b.entries⟩

def bindVector (b : Bindings L) (names : List String) (base : String) : Bindings L :=
  names.zipIdx.foldl (fun b (name, i) => b.bind name (.component (.var base) i)) b

def identity (names : List String) : Bindings L :=
  names.foldl (fun b name => b.bind name (.var name)) {}

end Bindings

structure UnknownIdentifier where
  name : String
deriving DecidableEq, Repr

def UnknownIdentifier.message (u : UnknownIdentifier) : String := s!"unknown identifier `{u.name}`"

/-- How formulas are lowered: what variables stand for, the stem of temporaries if there are any, and
whether arguments of `asin` and `acos` are forced into their domain. -/
structure Lowering (L : Type) where
  bindings : Bindings L
  hoist : Option String := none
  clamp : Bool := false

namespace Lowering

/-- How often subtrees occur, which of them have a temporary, and the declarations not yet taken. -/
structure State (L : Type) where
  counts : Std.HashMap String Nat := {}
  temporaries : Std.HashMap String String := {}
  statements : Array (Stmt L) := #[]

abbrev Action (L : Type) := ExceptT UnknownIdentifier (StateM (State L))

def isLeaf : Expr L → Bool
  | .literal _ | .constant _ | .var _ => true
  | _ => false

variable [Literal L]

/-- Counts the subtrees of a formula. The parts of a subtree seen before count through it. -/
def count (counts : Std.HashMap String Nat) : Expr L → Std.HashMap String Nat
  | .literal _ | .constant _ | .var _ => counts
  | e@(.call _ a) =>
    let key := e.text
    let seen := counts.getD key 0
    let counts := counts.insert key (seen + 1)
    if seen = 0 then count counts a else counts
  | e@(.call₂ _ a b) | e@(.op _ a b) =>
    let key := e.text
    let seen := counts.getD key 0
    let counts := counts.insert key (seen + 1)
    if seen = 0 then count (count counts a) b else counts

def prepare (c : Lowering L) (es : List (Expr L)) : Action L Unit :=
  if c.hoist.isSome then modify fun s => { s with counts := es.foldl count s.counts } else pure ()

def takeStatements : Action L (List (Stmt L)) :=
  modifyGet fun s => (s.statements.toList, { s with statements := #[] })

def declare (stem key : String) (value : Term L) : Action L (Term L) :=
  modifyGet fun s =>
    let name := stem ++ toString s.temporaries.size
    (.var name, { s with
      temporaries := s.temporaries.insert key name
      statements := s.statements.push (.declare .float name value) })

def share (c : Lowering L) (e : Expr L) (lowered : Action L (Term L)) : Action L (Term L) :=
  match c.hoist with
  | none => lowered
  | some stem => do
    let key := e.text
    match (← get).temporaries[key]? with
    | some name => return .var name
    | none =>
      let value ← lowered
      if 1 < (← get).counts.getD key 0 then declare stem key value else return value

def smallExponent? (x : L) : Option Int :=
  [1, 2, 3, 4].findSome? fun n : Nat =>
    if x == Literal.ofNat n then some (n : Int)
    else if x == -Literal.ofNat n then some (-(n : Int))
    else none

def shareFactor (c : Lowering L) (base : Expr L) (n : Nat) (factor : Term L) : Action L (Term L) :=
  match c.hoist with
  | none => return factor
  | some stem =>
    if factor.isTrivial || n ≤ 1 then return factor
    else do
      let key := base.text ++ "#base"
      match (← get).temporaries[key]? with
      | some name => return .var name
      | none => declare stem key factor

def product (factor : Term L) (n : Nat) : Term L :=
  (List.range (n - 1)).foldl (fun acc _ => acc * factor) factor

def power (c : Lowering L) (base : Expr L) (n : Int) (factor : Term L) : Action L (Term L) := do
  let factor ← shareFactor c base n.natAbs factor
  let p := product factor n.natAbs
  return if n < 0 then .float 1 / p else p

def callBuiltin (b : Builtin) (args : List (Term L)) : Term L := .call b.name args

def guardArgument (c : Lowering L) (f : Func) (arg : Term L) : Term L :=
  if c.clamp && (f == .asin || f == .acos) then callBuiltin .clamp [arg, .float (-1), .float 1] else arg

def smallPower? : Operator → Expr L → Option Int
  | .pow, .literal x => smallExponent? x
  | _, _ => none

def binary : Operator → Term L → Term L → Term L
  | .add, x, y => x + y
  | .sub, x, y => x - y
  | .mul, x, y => x * y
  | .div, x, y => x / y
  | .mod, x, y => callBuiltin .mod [x, y]
  | .pow, x, y => callBuiltin .pow [x, y]

def build (c : Lowering L) : Expr L → Action L (Term L)
  | .literal x => return .float x
  | .constant k => return .float k.value
  | .var v =>
    match c.bindings.get? v with
    | some t => return t
    | none => throw ⟨v⟩
  | e@(.call f a) => share c e do return .call f.name [guardArgument c f (← build c a)]
  | e@(.call₂ f a b) => share c e do
    let x ← build c a
    let y ← build c b
    return callBuiltin (.ofBiFunc f) [x, y]
  | e@(.op o a b) => share c e do
    let x ← build c a
    match smallPower? o b with
    | some n => power c a n x
    | none => return binary o x (← build c b)

def buildAll (c : Lowering L) : List (Expr L) → Action L (List (Term L))
  | [] => return []
  | e :: es => do
    let t ← build c e
    let ts ← buildAll c es
    return t :: ts

def emitting (bindings : Bindings L) : Lowering L := ⟨bindings, some Names.temporaryStem, true⟩

def run {α : Type} (action : Action L α) : Except UnknownIdentifier α := (action.run.run {}).1

/-- Counts what all formulas share and lowers them, with the declarations that they need. -/
def lowerAll (c : Lowering L) (shared built : List (Expr L)) :
    Except UnknownIdentifier (List (Stmt L) × List (Term L)) :=
  run do
    c.prepare shared
    let terms ← c.buildAll built
    let declarations ← takeStatements
    return (declarations, terms)

end Lowering

end FlowShader
