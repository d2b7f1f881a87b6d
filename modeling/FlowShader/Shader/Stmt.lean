import FlowShader.Shader.Term

namespace FlowShader.Shader

variable {L : Type}

/-- What an assignment writes to. -/
inductive Place where
  | var (name : String)
  | component (name : String) (i : Nat)
  | element (name : String) (col row : Nat)
deriving DecidableEq, Repr

namespace Place

def name : Place → String
  | var name | component name _ | element name _ _ => name

def text : Place → String
  | var name => name
  | component name i => s!"{name}.{componentName i}"
  | element name col row => s!"{name}[{col}][{row}]"

end Place

inductive Stmt (L : Type) where
  | declare (ty : Ty) (name : String) (value : Term L)
  | assign (place : Place) (value : Term L)
  | branch (cond : Term L) (yes no : List (Stmt L))
  /-- A loop with a fixed number of rounds. -/
  | loop (count : Nat) (body : List (Stmt L))
  | leave
  | result (value : Term L)
  | comment (text : String)
deriving Inhabited

def indent (depth : Nat) : String := String.ofList (List.replicate (4 * depth) ' ')

variable [Literal L]

mutual

def Stmt.lines (depth : Nat) : Stmt L → List String
  | .declare ty name value => [indent depth ++ s!"{ty.text} {name} = {value.text};"]
  | .assign place value => [indent depth ++ s!"{place.text} = {value.text};"]
  | .branch cond yes no =>
    (indent depth ++ s!"if ({cond.text}) \x7b") :: (Stmt.blockLines (depth + 1) yes ++ Stmt.elseLines depth no)
  | .loop count body =>
    (indent depth ++ s!"for (int i = 0; i < {count}; i++) \x7b")
      :: (Stmt.blockLines (depth + 1) body ++ [indent depth ++ "\x7d"])
  | .leave => [indent depth ++ "break;"]
  | .result value => [indent depth ++ s!"return {value.text};"]
  | .comment text => [indent depth ++ s!"// {text}"]

def Stmt.blockLines (depth : Nat) : List (Stmt L) → List String
  | [] => []
  | s :: ss => s.lines depth ++ Stmt.blockLines depth ss

/-- The lines from the closing brace of a first branch on; a lone branch in the other one is
chained to it. -/
def Stmt.elseLines (depth : Nat) : List (Stmt L) → List String
  | [] => [indent depth ++ "\x7d"]
  | [.branch cond yes no] =>
    (indent depth ++ s!"\x7d else if ({cond.text}) \x7b")
      :: (Stmt.blockLines (depth + 1) yes ++ Stmt.elseLines depth no)
  | s :: ss =>
    (indent depth ++ "\x7d else \x7b")
      :: (s.lines (depth + 1) ++ Stmt.blockLines (depth + 1) ss ++ [indent depth ++ "\x7d"])

end

structure Function (L : Type) where
  name : String
  params : List (Ty × String)
  ret : Ty
  body : List (Stmt L)

def unlines (lines : List String) : String := String.join (lines.map (· ++ "\n"))

def Function.text (f : Function L) : String :=
  let params := ", ".intercalate (f.params.map fun (ty, name) => s!"{ty.text} {name}")
  unlines ((s!"{f.ret.text} {f.name}({params}) \x7b" :: Stmt.blockLines 1 f.body) ++ ["\x7d"])

end FlowShader.Shader
