import FlowShader.EGraph.Match

namespace FlowShader

structure Suspension where
  times : Nat := 0
  upTo : Nat := 0

structure Effort where
  rounds : Nat := 12
  nodes : Nat := 20000
  /-- Matches that a rule may have in a round, doubled with every suspension. -/
  matchLimit : Nat := 1000
  /-- Rounds that a suspension lasts, doubled with every suspension. -/
  rest : Nat := 5

namespace EGraph

variable {L : Type} [Literal L]

def search (effort : Effort) (round : Nat) (g : EGraph L) (members : Array (Array (Node L)))
    (rule : Rule L) (s : Suspension) : Array (Nat × Assignment) × Suspension :=
  if round < s.upTo then (#[], s)
  else
    let limit := effort.matchLimit * Nat.pow 2 s.times
    let found := g.occurrences members limit rule.lhs
    if limit < found.size then (#[], ⟨s.times + 1, round + effort.rest * Nat.pow 2 s.times⟩) else (found, s)

def applyAll (effort : Effort) : List (Rule L × Array (Nat × Assignment)) → EGraph L × Bool → EGraph L × Bool
  | [], state => state
  | (rule, found) :: rest, state =>
    let (g, changed) := found.foldl (applyMatch rule) state
    if effort.nodes < g.table.size then (g, changed) else applyAll effort rest (g, changed)

def round (effort : Effort) (rules : List (Rule L)) (k : Nat) (g : EGraph L) (ss : List Suspension) :
    EGraph L × Bool × List Suspension :=
  let members := g.members
  let searched := rules.zipWith (g.search effort k members) ss
  let (g, changed) := applyAll effort (rules.zip (searched.map (·.1))) (g, false)
  (g.rebuild, changed, searched.map (·.2))

def hasten (k : Nat) (ss : List Suspension) : Option (List Suspension) :=
  match (ss.filter (k < ·.upTo)).map (·.upTo) with
  | [] => none
  | first :: others =>
    let soonest := others.foldl min first
    some (ss.map fun s => if k < s.upTo then { s with upTo := s.upTo - (soonest - k) } else s)

/-- Runs up to `fuel` rounds from round `k` on, until nothing is left to do or the graph is too large. -/
def run (effort : Effort) (rules : List (Rule L)) : Nat → Nat → EGraph L → List Suspension → EGraph L
  | 0, _, g, _ => g
  | fuel + 1, k, g, ss =>
    if effort.nodes < g.table.size then g
    else
      match g.round effort rules k ss with
      | (g, true, ss) => run effort rules fuel (k + 1) g ss
      | (g, false, ss) =>
        match hasten k ss with
        | some ss => run effort rules fuel (k + 1) g ss
        | none => g

def saturate (effort : Effort) (rules : List (Rule L)) (g : EGraph L) : EGraph L :=
  run effort rules effort.rounds 0 g.rebuild (rules.map fun _ => {})

end EGraph

end FlowShader
