import FlowShader.EGraph.Basic

namespace FlowShader

inductive Condition where
  /-- The values are known. -/
  | known (vars : List String)
  /-- The values are known and whole. -/
  | whole (vars : List String)
  /-- The value is not known to be zero. -/
  | nonzero (v : String)
deriving DecidableEq, Repr

structure Rule (L : Type) where
  lhs : Expr L
  rhs : Expr L
  condition : Condition := .known []

namespace Rule

variable {L : Type} [Literal L]

def v (name : String) : Expr L := .var name
def plus (x y : Expr L) : Expr L := .op .add x y
def minus (x y : Expr L) : Expr L := .op .sub x y
def times (x y : Expr L) : Expr L := .op .mul x y
def quotient (x y : Expr L) : Expr L := .op .div x y
def power (x y : Expr L) : Expr L := .op .pow x y
def opposite (x : Expr L) : Expr L := minus .zero x

def commutativity : List (Rule L) :=
  [{ lhs := plus (v "a") (v "b"), rhs := plus (v "b") (v "a") },
    { lhs := times (v "a") (v "b"), rhs := times (v "b") (v "a") }]

def identities : List (Rule L) :=
  [{ lhs := plus .zero (v "a"), rhs := v "a" },
    { lhs := minus (v "a") .zero, rhs := v "a" },
    { lhs := times .one (v "a"), rhs := v "a" },
    { lhs := quotient (v "a") .one, rhs := v "a" },
    { lhs := times .zero (v "a"), rhs := .zero },
    { lhs := quotient .zero (v "a"), rhs := .zero, condition := .nonzero "a" },
    { lhs := minus (v "a") (v "a"), rhs := .zero },
    { lhs := quotient (v "a") (v "a"), rhs := .one, condition := .nonzero "a" }]

def negation : List (Rule L) :=
  [{ lhs := opposite (opposite (v "a")), rhs := v "a" },
    { lhs := times (opposite (v "a")) (opposite (v "b")), rhs := times (v "a") (v "b") },
    { lhs := quotient (opposite (v "a")) (opposite (v "b")), rhs := quotient (v "a") (v "b") },
    { lhs := minus (v "a") (opposite (v "b")), rhs := plus (v "a") (v "b") },
    { lhs := plus (v "a") (opposite (v "b")), rhs := minus (v "a") (v "b") },
    { lhs := times (.literal (-1)) (v "a"), rhs := opposite (v "a") },
    { lhs := times (opposite (v "a")) (v "b"), rhs := opposite (times (v "a") (v "b")) },
    { lhs := quotient (opposite (v "a")) (v "b"), rhs := opposite (quotient (v "a") (v "b")) }]

def collection : List (Rule L) :=
  [{ lhs := plus (v "a") (v "a"), rhs := times (.nat 2) (v "a") },
    { lhs := plus (times (v "a") (v "b")) (times (v "a") (v "c")),
      rhs := times (v "a") (plus (v "b") (v "c")) },
    { lhs := minus (times (v "a") (v "b")) (times (v "a") (v "c")),
      rhs := times (v "a") (minus (v "b") (v "c")) },
    { lhs := plus (quotient (v "a") (v "c")) (quotient (v "b") (v "c")),
      rhs := quotient (plus (v "a") (v "b")) (v "c") },
    { lhs := minus (quotient (v "a") (v "c")) (quotient (v "b") (v "c")),
      rhs := quotient (minus (v "a") (v "b")) (v "c") }]

def powers : List (Rule L) :=
  [{ lhs := power (v "a") .one, rhs := v "a" },
    { lhs := power (v "a") .zero, rhs := .one },
    { lhs := times (v "a") (v "a"), rhs := power (v "a") (.nat 2) },
    { lhs := times (power (v "a") (v "b")) (v "a"), rhs := power (v "a") (plus (v "b") .one),
      condition := .known ["b"] },
    { lhs := times (power (v "a") (v "b")) (power (v "a") (v "c")),
      rhs := power (v "a") (plus (v "b") (v "c")), condition := .known ["b", "c"] },
    { lhs := quotient (power (v "a") (v "b")) (v "a"), rhs := power (v "a") (minus (v "b") .one),
      condition := .known ["b"] },
    { lhs := power (power (v "a") (v "b")) (v "c"), rhs := power (v "a") (times (v "b") (v "c")),
      condition := .whole ["b", "c"] },
    { lhs := power (.call .sqrt (v "a")) (.nat 2), rhs := v "a" },
    { lhs := times (.call .sqrt (v "a")) (.call .sqrt (v "a")), rhs := v "a" }]

/-- Constants are brought together. -/
def association : List (Rule L) :=
  [{ lhs := times (v "c") (times (v "d") (v "a")), rhs := times (times (v "c") (v "d")) (v "a"),
      condition := .known ["c", "d"] },
    { lhs := plus (v "c") (plus (v "d") (v "a")), rhs := plus (plus (v "c") (v "d")) (v "a"),
      condition := .known ["c", "d"] },
    { lhs := quotient (times (v "c") (v "a")) (v "d"), rhs := times (quotient (v "c") (v "d")) (v "a"),
      condition := .known ["c", "d"] }]

def trigonometry : List (Rule L) :=
  [{ lhs := plus (power (.call .cos (v "a")) (.nat 2)) (power (.call .sin (v "a")) (.nat 2)), rhs := .one },
    { lhs := .call .sin (opposite (v "a")), rhs := opposite (.call .sin (v "a")) },
    { lhs := .call .cos (opposite (v "a")), rhs := .call .cos (v "a") }]

/-- The rules, in the order in which they are applied. -/
def all : List (Rule L) :=
  commutativity ++ identities ++ negation ++ collection ++ powers ++ association ++ trigonometry

end Rule

end FlowShader
