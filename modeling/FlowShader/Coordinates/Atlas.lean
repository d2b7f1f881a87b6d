import FlowShader.Lowering

namespace FlowShader.Coordinates

variable {L : Type}

inductive Region (L : Type) where
  | everywhere
  /-- `|a| >= |b|` -/
  | atLeast (a b : Expr L)
  /-- `|a| < |b|` -/
  | below (a b : Expr L)
  /-- `|a| > limit` -/
  | above (a : Expr L) (limit : L)
deriving BEq

namespace Region

def isEverywhere : Region L → Bool
  | everywhere => true
  | _ => false

def text [Literal L] : Region L → String
  | everywhere => "true"
  | atLeast a b => s!"|{a.text}| >= |{b.text}|"
  | below a b => s!"|{a.text}| < |{b.text}|"
  | above a limit => s!"|{a.text}| > {Literal.text limit}"

/-- The point lies in the region; a comparison with what is no number fails. -/
def holds {K : Type} [Scalar K] (ρ : Valuation L K) : Region L → Except Unbound Bool
  | everywhere => .ok true
  | atLeast a b => do
    let x ← a.eval ρ
    let y ← b.eval ρ
    return Scalar.le (Scalar.abs y) (Scalar.abs x)
  | below a b => do
    let x ← a.eval ρ
    let y ← b.eval ρ
    return Scalar.lt (Scalar.abs x) (Scalar.abs y)
  | above a limit => do
    let x ← a.eval ρ
    return Scalar.lt (ρ.literal limit) (Scalar.abs x)

open Shader (Term)

def lower [Literal L] (c : Lowering L) : Region L → Lowering.Action L (Term L)
  | everywhere => return .bool true
  | atLeast a b => do
    let x ← c.build a
    let y ← c.build b
    return .ge (.call "abs" [x]) (.call "abs" [y])
  | below a b => do
    let x ← c.build a
    let y ← c.build b
    return .lt (.call "abs" [x]) (.call "abs" [y])
  | above a limit => do
    let x ← c.build a
    return .gt (.call "abs" [x]) (.float limit)

end Region

inductive ChartKind where
  | primary
  /-- The last `atan2(a, b)` is written as `pi/2 - atan2(b, a)`. -/
  | swapped
  /-- Near a polar axis; Jacobians are taken at a point displaced along a Cartesian axis. -/
  | polarCap (axis : Nat)
deriving DecidableEq, Repr

structure Chart (L : Type) where
  region : Region L
  forward : List (Expr L)
  kind : ChartKind
deriving BEq

/-- Charts with equal keys have equal formulas. -/
def Chart.key [Literal L] (c : Chart L) : String := ";".intercalate (c.forward.map Expr.text)

/-- A point belongs to the first chart whose region has it, or else to the last chart. -/
structure Atlas (L : Type) where
  charts : List (Chart L)
deriving BEq

namespace Atlas

def single (forward : List (Expr L)) : Atlas L := ⟨[⟨.everywhere, forward, .primary⟩]⟩

def hasPolarCaps (a : Atlas L) : Bool :=
  a.charts.any fun c => match c.kind with
    | .polarCap _ => true
    | _ => false

def owner? {K : Type} [Scalar K] (ρ : Valuation L K) : List (Chart L) → Except Unbound (Option Nat)
  | [] => .ok none
  | c :: cs => do
    if ← c.region.holds ρ then return some 0
    else return (← owner? ρ cs).map (· + 1)

def select {K : Type} [Scalar K] (a : Atlas L) (ρ : Valuation L K) : Except Unbound Nat := do
  return (← owner? ρ a.charts).getD (a.charts.length - 1)

def covers {K : Type} [Scalar K] (a : Atlas L) (ρ : Valuation L K) : Except Unbound Bool := do
  return (← owner? ρ a.charts).isSome

variable [Literal L]

def capArguments (forward : List (Expr L)) : List (Expr L) :=
  let calls := forward.flatMap fun f => f.subtrees.filter fun
    | .call .acos _ | .call .asin _ => true
    | _ => false
  let distinct := calls.foldl (fun seen c => if seen.contains c then seen else seen ++ [c]) []
  distinct.filterMap fun
    | .call _ arg => some arg
    | _ => none

def unitPoint (axes : List String) (axis : String) : Valuation L L :=
  .ofList (axes.map fun name => (name, if name == axis then 1 else 0))

def capAxis (axes : List String) (arg : Expr L) : Nat :=
  let best := axes.zipIdx.foldl (fun (best : Option (Nat × L)) (name, i) =>
    match arg.eval (unitPoint axes name) with
    | .error _ => best
    | .ok x =>
      let size := Scalar.abs x
      if !Literal.isFinite x then best
      else match best with
        | none => some (i, size)
        | some (_, least) => if Scalar.lt size least then some (i, size) else best) none
  (best.map (·.1)).getD 0

def capLimit : L := 1 - Literal.ofPlaces 1 6

def lastAzimuth? (forward : List (Expr L)) : Option (Expr L × Expr L) :=
  ((forward.flatMap Expr.subtrees).filterMap fun
    | .call₂ .atan2 a b => some (a, b)
    | _ => none).getLast?

def swapAzimuth (a b : Expr L) : Expr L := Expr.constant .pi / Expr.nat 2 - Expr.call₂ .atan2 b a

/-- One cap for every inverse sine or cosine, then the rest of space, cut in two where the last
azimuth changes its form. -/
def generate (axes : List String) (forward : List (Expr L)) : Atlas L :=
  let caps : List (Chart L) := (capArguments forward).map fun arg =>
    ⟨.above arg capLimit, forward, .polarCap (capAxis axes arg)⟩
  match lastAzimuth? forward with
  | none => ⟨caps ++ (single forward).charts⟩
  | some (a, b) =>
    ⟨caps ++ [⟨.atLeast b a, forward, .primary⟩,
      ⟨.below b a, forward.map (Expr.replace (.call₂ .atan2 a b) (swapAzimuth a b)), .swapped⟩]⟩

end Atlas

end FlowShader.Coordinates
