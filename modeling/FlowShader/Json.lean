namespace FlowShader

namespace Json

structure Number where
  negative : Bool
  whole : List Nat
  fraction : List Nat
  exponent : Option Int
deriving DecidableEq, Repr

end Json

inductive Json where
  | null
  | bool (b : Bool)
  | number (n : Json.Number)
  | string (s : String)
  | array (items : List Json)
  | object (members : List (String × Json))
  /-- A string, or an object with a name, that has half of a surrogate pair where a character belongs. -/
  | garbled
deriving Repr, Inhabited

namespace Json

namespace Number

def ofNat (n : Nat) : Number := ⟨false, (toString n).toList.map (fun c => c.toNat - 48), [], none⟩

def isInteger (n : Number) : Bool := n.fraction.isEmpty && n.exponent.isNone

def natOfDigits (ds : List Nat) : Nat := ds.foldl (fun n d => 10 * n + d) 0

def count? (n : Number) : Option Nat :=
  if n.isInteger && !n.negative then
    let k := natOfDigits n.whole
    if k < Nat.pow 2 64 then some k else none
  else none

/-- Appends digits to a significand as long as it fits 64 bits. Returns the significand and how many
digits were taken. -/
def absorb (significand : Nat) : List Nat → Nat × Nat
  | [] => (significand, 0)
  | d :: ds =>
    if 10 * significand + d < Nat.pow 2 64 then
      let (s, taken) := absorb (10 * significand + d) ds
      (s, taken + 1)
    else (significand, 0)

def descend : Nat → Float → Nat → Float
  | 0, x, _ => x
  | fuel + 1, x, k =>
    if k ≤ 308 then x / Float.ofScientific 1 false k
    else if x == 0 then x
    else descend fuel (x / 1e308) (k - 308)

def scaled (significand : Nat) (exponent : Int) : Option Float :=
  let x := Float.ofNat significand
  if exponent < 0 then some (descend 4 x exponent.natAbs)
  else if exponent ≤ 308 then
    let y := x * Float.ofScientific 1 false exponent.toNat
    if y.isInf then none else some y
  else if x == 0 then some x
  else none

/-- The double that a number stands for. The first digits that fit 64 bits carry the value, later
ones only its scale. -/
def float? (n : Number) : Option Float :=
  let (s, taken) := absorb 0 n.whole
  let dropped := n.whole.length - taken
  let (s, places) := absorb s n.fraction
  let magnitude :=
    if n.isInteger && dropped == 0 then some (Float.ofNat s)
    else scaled s ((dropped : Int) - places + n.exponent.getD 0)
  magnitude.map fun x => if n.negative then -x else x

end Number

def ofNat (n : Nat) : Json := number (.ofNat n)

def ofOption (f : α → Json) : Option α → Json
  | some a => f a
  | none => null

def get? (name : String) : Json → Option Json
  | object members => (members.reverse.find? (·.1 == name)).map (·.2)
  | _ => none

end Json

end FlowShader
