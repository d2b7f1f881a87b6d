import FlowShader.EGraph.Saturate

namespace FlowShader.EGraph

variable {L : Type} [Literal L]

abbrev Choice (L : Type) := Array (Option (Nat × Node L))

def Choice.price? (choice : Choice L) (i : Nat) : Option Nat := (choice.getD i none).map (·.1)

def improve (state : Choice L × Bool) (entry : Node L × Nat) : Choice L × Bool :=
  let (choice, improved) := state
  let (n, i) := entry
  match ((n.map choice.price?).sequence?).map Layer.price with
  | none => (choice, improved)
  | some p =>
    match choice.price? i with
    | some q => if p < q then (choice.setIfInBounds i (some (p, n)), true) else (choice, improved)
    | none => (choice.setIfInBounds i (some (p, n)), true)

def improveAll (entries : Array (Node L × Nat)) : Nat → Choice L → Choice L
  | 0, choice => choice
  | fuel + 1, choice =>
    match entries.foldl improve (choice, false) with
    | (choice, true) => improveAll entries fuel choice
    | (choice, false) => choice

/-- The cheapest node of every class. A cheapest tree is no deeper than there are classes, so their
number is fuel enough. -/
def choose (g : EGraph L) : Choice L :=
  improveAll g.entries (g.leader.size + 1) (Array.replicate g.leader.size none)

def tree? (choice : Choice L) : Nat → Nat → Option (Expr L)
  | 0, _ => none
  | fuel + 1, i => do
    let (_, n) ← choice.getD i none
    let parts ← (n.map (tree? choice fuel)).sequence?
    return parts.toExpr

def extract? (g : EGraph L) (choice : Choice L) (i : Nat) : Option (Expr L) :=
  tree? choice (g.leader.size + 1) (g.root i)

end FlowShader.EGraph

namespace FlowShader.Expr

variable {L : Type} [Literal L]

def hasNaN : Expr L → Bool
  | literal x => Literal.isNaN x
  | constant _ | var _ => false
  | call _ a => a.hasNaN
  | call₂ _ a b | op _ a b => a.hasNaN || b.hasNaN

def enterAll (g : EGraph L) (es : List (Expr L)) : EGraph L × List (Expr L × Nat) :=
  let (g, entered) := es.foldl (fun (g, entered) e =>
    let (i, g) := g.addExpr (fun _ => none) e
    (g, (e, i) :: entered)) (g, [])
  (g, entered.reverse)

/-- Simplifies formulas together. Formulas with a literal that is not a number stay as they are. -/
def simplifyAll (es : List (Expr L)) (effort : Effort := {}) : List (Expr L) :=
  if es.any hasNaN then es
  else
    let (g, entered) := enterAll {} es
    let g := g.saturate effort Rule.all
    let choice := g.choose
    entered.map fun (e, i) => (g.extract? choice i).getD e

def simplify (e : Expr L) : Expr L := (simplifyAll [e]).headD e

end FlowShader.Expr
