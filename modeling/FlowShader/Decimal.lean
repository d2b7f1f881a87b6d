namespace FlowShader

structure Decimal where
  digits : Nat
  exponent : Int
deriving DecidableEq, Repr

namespace Decimal

def ofNat (n : Nat) : Decimal := ⟨n, 0⟩

def digitValue (c : Char) : Nat := c.toNat - '0'.toNat

def natOfDigits (cs : List Char) : Nat := cs.foldl (fun n c => 10 * n + digitValue c) 0

def ofPoint (whole fraction : List Char) : Decimal :=
  ⟨natOfDigits (whole ++ fraction), -(fraction.length : Int)⟩

def toFloat (d : Decimal) : Float := Float.ofScientific d.digits (d.exponent < 0) d.exponent.natAbs

def text (d : Decimal) : String :=
  let ds := (toString d.digits).toList
  if 0 ≤ d.exponent then String.ofList (ds ++ List.replicate d.exponent.toNat '0')
  else
    let places := d.exponent.natAbs
    let padded := List.replicate (places + 1 - ds.length) '0' ++ ds
    let cut := padded.length - places
    String.ofList (padded.take cut ++ '.' :: padded.drop cut)

def strip : Nat → Decimal → Decimal
  | 0, d => d
  | fuel + 1, d =>
    if d.digits ≠ 0 ∧ d.digits % 10 = 0 then strip fuel ⟨d.digits / 10, d.exponent + 1⟩ else d

end Decimal

/-- The number `m * 2 ^ q`. With `narrow` the value below is half as far away as the value above. -/
structure Binary where
  m : Nat
  q : Int
  narrow : Bool
deriving DecidableEq, Repr

namespace Binary

def ofBits (b : UInt64) : Binary :=
  let e := ((b >>> 52) &&& 0x7FF).toNat
  let f := (b &&& 0xFFFFFFFFFFFFF).toNat
  if e = 0 then ⟨f, -1074, false⟩ else ⟨Nat.pow 2 52 + f, (e : Int) - 1075, f == 0 && 1 < e⟩

def ofFloat (x : Float) : Binary := ofBits x.toBits

def compareScaled (a : Nat) (i : Int) (n : Nat) (j : Int) : Ordering :=
  compare (a * Nat.pow 10 i.toNat * Nat.pow 2 (-j).toNat) (n * Nat.pow 2 j.toNat * Nat.pow 10 (-i).toNat)

def scale (x : Binary) : Int :=
  let guess := ((x.m.log2 : Int) + x.q) * 30103 / 100000
  let fits (k : Int) : Bool := compareScaled 1 k x.m x.q != .gt
  if fits (guess + 1) then guess + 1 else if fits guess then guess else guess - 1

def quotient (x : Binary) (k : Int) : Nat × Nat :=
  (x.m * Nat.pow 2 x.q.toNat * Nat.pow 10 (-k).toNat, Nat.pow 2 (-x.q).toNat * Nat.pow 10 k.toNat)

def readsBack (x : Binary) (d : Decimal) : Bool :=
  let lower := compareScaled d.digits d.exponent (if x.narrow then 4 * x.m - 1 else 4 * x.m - 2) (x.q - 2)
  let upper := compareScaled d.digits d.exponent (4 * x.m + 2) (x.q - 2)
  let even := x.m % 2 == 0
  (lower == .gt || (even && lower == .eq)) && (upper == .lt || (even && upper == .eq))

/-- The better of the value's two neighbours among the multiples of `10 ^ k`, if one reads back:
the closer one, and the upper one at equal distance. -/
def onGrid (x : Binary) (k : Int) : Option Decimal :=
  let (num, den) := x.quotient k
  let below : Decimal := ⟨num / den, k⟩
  let above : Decimal := ⟨num / den + 1, k⟩
  match x.readsBack below, x.readsBack above with
  | true, true => some (if 2 * (num % den) < den then below else above)
  | true, false => some below
  | false, true => some above
  | false, false => none

def whole? (x : Binary) : Option Nat :=
  let d := Nat.pow 2 (-x.q).toNat
  if -52 ≤ x.q && x.q ≤ 0 && x.m % d == 0 then some (x.m / d) else none

/-- The first grid, from coarse to fine, on which a decimal reads back. Seventeen digits suffice for
every double; the last line is the exact value. Doubles near a whole number below `2 ^ 53` are at
most one apart, so no other decimal with as few digits reads back as that number. -/
def shortest (x : Binary) : Decimal :=
  if x.m = 0 then ⟨0, 0⟩
  else
    match x.whole? with
    | some n => ⟨n, 0⟩
    | none =>
      let k := x.scale
      match (List.range 17).findSome? fun n : Nat => x.onGrid (k - n) with
      | some d => d.strip 17
      | none => if 0 ≤ x.q then ⟨x.m * Nat.pow 2 x.q.toNat, 0⟩ else ⟨x.m * Nat.pow 5 (-x.q).toNat, x.q⟩

end Binary

def floatText (x : Float) : String :=
  if x.isNaN then "NaN"
  else
    let magnitude := if x.isInf then "inf" else (Binary.ofFloat x).shortest.text
    if x.toBits >>> 63 == 1 then "-" ++ magnitude else magnitude

end FlowShader
