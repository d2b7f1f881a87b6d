import FlowShader.Lowering
import FlowShader.Names
import FlowShader.Scheme

namespace FlowShader.Scheme

open Shader (Term Stmt Ty Function)

variable {L : Type}

def pos : Term L := .var "pos"

def stepSize : Term L := .var "h"

def velocity (x : Term L) : Term L := .call Names.getVelocity [x]

def advance (v : Term L) : Term L := pos + stepSize * v

def setVar (name : String) (value : Term L) : Stmt L := .assign (.var name) value

variable [Literal L]

def half : Term L := .places 5 1

def halfStep : Term L := stepSize * half

def refine (n rounds : Nat) (guess : Term L) (round : List (Stmt L)) : List (Stmt L) :=
  [.declare (.vec n) "x" guess, .loop rounds round, .result (.var "x")]

def eulerStep : List (Stmt L) := [.result (advance (velocity pos))]

def rk2Step (n : Nat) : List (Stmt L) :=
  [.declare (.vec n) "k1" (velocity pos),
    .declare (.vec n) "k2" (velocity (pos + halfStep * .var "k1")),
    .result (advance (.var "k2"))]

def rk4Step (n : Nat) : List (Stmt L) :=
  let double (name : String) : Term L := .nat 2 * .var name
  [.declare (.vec n) "k1" (velocity pos),
    .declare (.vec n) "k2" (velocity (pos + halfStep * .var "k1")),
    .declare (.vec n) "k3" (velocity (pos + halfStep * .var "k2")),
    .declare (.vec n) "k4" (velocity (advance (.var "k3"))),
    .result (pos + (stepSize / .nat 6) * .sum [.var "k1", double "k2", double "k3", .var "k4"])]

def implicitEulerStep (n rounds : Nat) : List (Stmt L) :=
  refine n rounds (advance (velocity pos)) [setVar "x" (advance (velocity (.var "x")))]

def implicitEulerNewtonStep (n rounds : Nat) : List (Stmt L) :=
  let x : Term L := .var "x"
  refine n rounds (advance (velocity pos))
    [.declare (.vec n) "residual" ((x - pos) - stepSize * velocity x),
      .declare (.mat n) "jac" (.construct (.mat n) [.float 1] - stepSize * .call Names.velocityJacobian [x]),
      setVar "x" (x - .call (Shader.Inverse.functionName n) [.var "jac"] * .var "residual")]

def implicitMidpointStep (n rounds : Nat) : List (Stmt L) :=
  refine n rounds (advance (velocity pos))
    [setVar "x" (advance (velocity (half * (pos + .var "x"))))]

def trapezoidalStep (n rounds : Nat) : List (Stmt L) :=
  .declare (.vec n) "f0" (velocity pos)
    :: refine n rounds (advance (.var "f0"))
      [setVar "x" (pos + halfStep * (.var "f0" + velocity (.var "x")))]

def gaussLegendreStep (n rounds : Nat) : List (Stmt L) :=
  let quarter : L := Literal.ofPlaces 25 2
  let offset : L := Scalar.sqrt (Literal.ofNat 3) / Literal.ofNat 6
  let stage (a b : L) : Term L := velocity (advance (.float a * .var "k1" + .float b * .var "k2"))
  [.declare (.vec n) "k1" (velocity pos),
    .declare (.vec n) "k2" (.var "k1"),
    .loop rounds
      [.declare (.vec n) "n1" (stage quarter (quarter - offset)),
        .declare (.vec n) "n2" (stage (quarter + offset) quarter),
        setVar "k1" (.var "n1"),
        setVar "k2" (.var "n2")],
    .result (pos + halfStep * (.var "k1" + .var "k2"))]

/-- Components `2i` and `2i + 1` are a position and its momentum. Momenta move first, positions then
with the new momenta; an odd last component takes an Euler step. -/
def symplecticEulerStep (n : Nat) : List (Stmt L) :=
  let move (source : String) (i : Nat) : Stmt L :=
    .assign (.component "next" i) (.component pos i + stepSize * .component (.var source) i)
  let pairs := List.range (n / 2)
  [.declare (.vec n) "next" pos, .declare (.vec n) "v" (velocity pos)]
    ++ pairs.map (fun i => move "v" (2 * i + 1))
    ++ [.declare (.vec n) "moved" (velocity (.var "next"))]
    ++ pairs.map (fun i => move "moved" (2 * i))
    ++ (if n % 2 = 1 then [move "v" (n - 1)] else [])
    ++ [.result (.var "next")]

def step (s : Scheme) (n rounds : Nat) (method : Method) : List (Stmt L) :=
  match s with
  | euler => eulerStep
  | rk2 => rk2Step n
  | rk4 => rk4Step n
  | implicitEuler =>
    match method with
    | .newton => implicitEulerNewtonStep n rounds
    | .fixedPoint => implicitEulerStep n rounds
  | implicitMidpoint => implicitMidpointStep n rounds
  | trapezoidal => trapezoidalStep n rounds
  | gaussLegendre => gaussLegendreStep n rounds
  | symplecticEuler => symplecticEulerStep n

/-- The function `integrate`. Rounds matter for implicit schemes only, the method only for implicit
Euler, whose Newton form calls the velocity Jacobian and the inverting function of the module. -/
def integrate (s : Scheme) (n rounds : Nat) (method : Method) : Function L :=
  ⟨Names.integrate, [(.vec n, "pos"), (.float, "h")], .vec n, s.step n rounds method⟩

/-- The function `velocityJacobian`, from a matrix over Cartesian coordinates and the animation
parameter, which stands for a uniform. -/
def velocityJacobian (m : Matrix L) (alpha : String) : Except UnknownIdentifier (Function L) := do
  let n := m.height
  let bindings := ((({} : Bindings L).bindVector (Names.axes n) "pos").bind Names.alpha (.var alpha))
  let (declarations, entries) ← (Lowering.emitting bindings).lowerAll m.entries m.columnEntries
  return ⟨Names.velocityJacobian, [(.vec n, "pos")], .mat n,
    declarations ++ [.result (.construct (.mat n) entries)]⟩

end FlowShader.Scheme
