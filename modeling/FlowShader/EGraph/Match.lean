import FlowShader.EGraph.Rule

namespace FlowShader

abbrev Assignment := List (String × Nat)

def Assignment.get? (σ : Assignment) (v : String) : Option Nat :=
  match σ with
  | [] => none
  | (w, i) :: rest => if w == v then some i else get? rest v

namespace EGraph

variable {L : Type} [Literal L]

/-- All ways to extend an assignment so that class `i` holds an instance of the pattern, given the class of
every leaf and the nodes of every class. -/
def instances (find? : Node L → Option Nat) (members : Array (Array (Node L))) :
    Expr L → Nat → Assignment → List Assignment
  | .literal x, i, σ => if find? (.literal x) == some i then [σ] else []
  | .constant c, i, σ => if find? (.constant c) == some i then [σ] else []
  | .var v, i, σ =>
    match σ.get? v with
    | some j => if i = j then [σ] else []
    | none => [(v, i) :: σ]
  | .call f p, i, σ =>
    (members.getD i #[]).toList.flatMap fun
      | .call h a => if h == f then instances find? members p a σ else []
      | _ => []
  | .call₂ f p q, i, σ =>
    (members.getD i #[]).toList.flatMap fun
      | .call₂ h a b =>
        if h == f then (instances find? members p a σ).flatMap (instances find? members q b) else []
      | _ => []
  | .op o p q, i, σ =>
    (members.getD i #[]).toList.flatMap fun
      | .op h a b => if h == o then (instances find? members p a σ).flatMap (instances find? members q b) else []
      | _ => []

def matchClass (g : EGraph L) (members : Array (Array (Node L))) (p : Expr L) (i : Nat) (σ : Assignment) :
    List Assignment :=
  instances g.find? members p i σ

def occurrences (g : EGraph L) (members : Array (Array (Node L))) (limit : Nat) (p : Expr L) :
    Array (Nat × Assignment) :=
  (List.range members.size).foldl (fun found i =>
    if limit < found.size then found
    else (matchClass g members p i []).foldl (fun found σ => found.push (i, σ)) found) #[]

def holds (g : EGraph L) (σ : Assignment) : Condition → Bool
  | .known vars => vars.all fun v => ((σ.get? v).bind g.value?).isSome
  | .whole vars => vars.all fun v => ((σ.get? v).bind g.value?).any Literal.isWhole
  | .nonzero v => ((σ.get? v).bind g.value?).all fun x => !(x == 0)

def applyMatch (rule : Rule L) (state : EGraph L × Bool) (found : Nat × Assignment) : EGraph L × Bool :=
  let (g, changed) := state
  let (i, σ) := found
  if g.holds σ rule.condition then
    let (j, g) := g.addExpr σ.get? rule.rhs
    if g.root i = g.root j then (g, changed) else (g.union i j, true)
  else (g, changed)

end EGraph

end FlowShader
