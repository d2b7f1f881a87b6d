import Std.Data.HashMap
import Std.Data.HashSet
import FlowShader.Expr.Layer

namespace FlowShader

abbrev Node (L : Type) := Layer L Nat

structure EGraph (L : Type) [Literal L] where
  /-- The class that each number stands for. -/
  leader : Array Nat := #[]
  /-- The value of a class, where it is known. -/
  values : Array (Option L) := #[]
  /-- The nodes over a class, one entry for every place it fills, each with its own class. -/
  uses : Array (Array (Node L × Nat)) := #[]
  /-- Every node with its class. -/
  nodes : Array (Node L × Nat) := #[]
  /-- The class of a node, for all nodes ever met. -/
  table : Std.HashMap (Node L) Nat := {}
  /-- Nodes whose parts have changed class, the last one first. -/
  stale : List (Node L × Nat) := []
  /-- Nodes of which a part has got a value, the first one first. -/
  awaiting : Array (Node L × Nat) := #[]

namespace EGraph

variable {L : Type} [Literal L]

def root (g : EGraph L) (i : Nat) : Nat := g.leader.getD i i

def value? (g : EGraph L) (i : Nat) : Option L := g.values.getD (g.root i) none

def usesOf (g : EGraph L) (i : Nat) : Array (Node L × Nat) := g.uses.getD (g.root i) #[]

def canonical (g : EGraph L) (n : Node L) : Node L := n.map g.root

def fold? (g : EGraph L) (n : Node L) : Option L := (n.map g.value?).fold?

def find? (g : EGraph L) (n : Node L) : Option Nat := (g.table[g.canonical n]?).map g.root

/-- Class `i` takes over class `j`. Of two values that of `i` counts; a value that only one of them
has is news to the nodes over the other. -/
def absorb (g : EGraph L) (i j : Nat) : EGraph L :=
  let taken := g.usesOf j
  let news :=
    match g.value? i, g.value? j with
    | none, some _ => g.usesOf i
    | some _, none => taken
    | _, _ => #[]
  let value := (g.value? i).or (g.value? j)
  { g with
    leader := g.leader.map fun k => if k = j then i else k
    values := g.values.setIfInBounds i value
    uses := g.uses.modify i (· ++ taken)
    stale := taken.foldl (fun stale entry => entry :: stale) g.stale
    awaiting := g.awaiting ++ news }

/-- Merges two classes; the one with more nodes over it leads, the first one if they are even. -/
def union (g : EGraph L) (i j : Nat) : EGraph L :=
  let i := g.root i
  let j := g.root j
  if i = j then g
  else if (g.usesOf i).size < (g.usesOf j).size then g.absorb j i
  else g.absorb i j

def grown (g : EGraph L) (n : Node L) : EGraph L :=
  { g with
    leader := g.leader.push g.leader.size
    values := g.values.push (g.fold? n)
    uses := (n.parts.foldl (fun uses part => uses.modify part (·.push (n, g.leader.size))) g.uses).push #[]
    nodes := g.nodes.push (n, g.leader.size)
    table := g.table.insert n g.leader.size }

def enter (g : EGraph L) (n : Node L) : Nat × EGraph L :=
  match g.table[g.canonical n]? with
  | some i => (g.root i, g)
  | none => (g.leader.size, g.grown (g.canonical n))

def settle (g : EGraph L) (i : Nat) : EGraph L :=
  match g.value? i with
  | none => g
  | some x =>
    let (j, g) := g.enter (.literal x)
    g.union i j

def add (g : EGraph L) (n : Node L) : Nat × EGraph L :=
  let (i, g) := g.enter n
  (i, g.settle i)

def addExpr (g : EGraph L) (σ : String → Option Nat) : Expr L → Nat × EGraph L
  | .literal x => g.add (.literal x)
  | .constant c => g.add (.constant c)
  | .var v =>
    match σ v with
    | some i => (i, g)
    | none => g.add (.var v)
  | .call f a =>
    let (i, g) := g.addExpr σ a
    g.add (.call f i)
  | .call₂ f a b =>
    let (i, g) := g.addExpr σ a
    let (j, g) := g.addExpr σ b
    g.add (.call₂ f i j)
  | .op o a b =>
    let (i, g) := g.addExpr σ a
    let (j, g) := g.addExpr σ b
    g.add (.op o i j)

def relocate (g : EGraph L) (entry : Node L × Nat) : EGraph L :=
  let (n, i) := entry
  let n := g.canonical n
  let known := g.table[n]?
  let g := { g with table := g.table.insert n i }
  match known with
  | some j => g.union j i
  | none => g

def relocateAll : Nat → EGraph L → EGraph L
  | 0, g => g
  | fuel + 1, g =>
    match g.stale with
    | [] => g
    | entry :: rest => relocateAll fuel (relocate { g with stale := rest } entry)

def evaluate (g : EGraph L) (entry : Node L × Nat) : EGraph L :=
  let (n, i) := entry
  match g.value? i, g.fold? n with
  | none, some x =>
    let g := { g with
      values := g.values.setIfInBounds (g.root i) (some x)
      awaiting := g.awaiting ++ g.usesOf i }
    g.settle i
  | _, _ => g

def evaluateAll : Nat → EGraph L → EGraph L
  | 0, g => g
  | fuel + 1, g =>
    if g.awaiting.isEmpty then g
    else evaluateAll fuel (g.awaiting.foldl evaluate { g with awaiting := #[] })

/-- Looks up and evaluates in turns until nothing is left to do, at most `fuel` times. A merge makes no
more than two entries for every node stale, and a batch that leaves something awaiting has found a
value, so the fuel of both is enough. -/
def propagate : Nat → EGraph L → EGraph L
  | 0, g => g
  | fuel + 1, g =>
    if g.stale.isEmpty && g.awaiting.isEmpty then g
    else
      let size := g.leader.size
      let g := relocateAll (g.stale.length + 2 * size * size + 1) g
      propagate fuel (evaluateAll (size + 1) g)

def keepNext (g : EGraph L) (state : Array (Node L × Nat) × Std.HashSet (Node L)) (entry : Node L × Nat) :
    Array (Node L × Nat) × Std.HashSet (Node L) :=
  if state.2.contains (g.canonical entry.1) then state
  else (state.1.push (g.canonical entry.1, g.root entry.2), state.2.insert (g.canonical entry.1))

def kept (g : EGraph L) : Array (Node L × Nat) :=
  (g.nodes.foldl g.keepNext (#[], Std.HashSet.emptyWithCapacity g.nodes.size)).1

/-- The nodes class by class, and those of a class in their order. -/
def arrange (nodes : Array (Node L × Nat)) : Array (Node L × Nat) :=
  (nodes.toList.mergeSort fun (n, i) (m, j) => ((compare i j).then (n.compare m)).isLE).toArray

@[simp]
theorem mem_arrange {nodes : Array (Node L × Nat)} {a : Node L × Nat} : a ∈ arrange nodes ↔ a ∈ nodes := by
  simp [arrange, List.mem_mergeSort]

def distinct (g : EGraph L) : Array (Node L × Nat) := arrange g.kept

/-- Restores that equal nodes have equal classes. Every turn merges classes or finds values, so twice
the number of classes is fuel enough. -/
def rebuild (g : EGraph L) : EGraph L :=
  let g := propagate (2 * g.leader.size + 2) g
  { g with nodes := g.distinct }

/-- The nodes that stand for their classes: all of a class, or only the leaves once its value is known. -/
def entries (g : EGraph L) : Array (Node L × Nat) :=
  g.nodes.filter fun (n, i) => n.isLeaf || (g.value? i).isNone

def members (g : EGraph L) : Array (Array (Node L)) :=
  g.entries.foldl (fun found (n, i) => found.modify i (·.push n)) (Array.replicate g.leader.size #[])

end EGraph

end FlowShader
