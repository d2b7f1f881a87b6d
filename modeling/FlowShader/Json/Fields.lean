import FlowShader.Json

namespace FlowShader.Json

def string? : Json → Option String
  | string s => some s
  | _ => none

def bool? : Json → Option Bool
  | bool b => some b
  | _ => none

def count? : Json → Option Nat
  | number n => n.count?
  | _ => none

def float? : Json → Option Float
  | number n => n.float?
  | _ => none

def list? {α : Type} (read : Json → Option α) : Json → Option (List α)
  | array items => items.mapM read
  | _ => none

def nullable? {α : Type} (read : Json → Option α) : Json → Option (Option α)
  | null => some none
  | j => (read j).map some

mutual

/-- Every number in the value is in the range of doubles, and no text is garbled. -/
def isSound : Json → Bool
  | null | bool _ | string _ => true
  | number n => n.float?.isSome
  | array items => itemsSound items
  | object members => membersSound members
  | garbled => false

def itemsSound : List Json → Bool
  | [] => true
  | v :: rest => v.isSound && itemsSound rest

def membersSound : List (String × Json) → Bool
  | [] => true
  | (_, v) :: rest => v.isSound && membersSound rest

end

mutual

def depth : Json → Nat
  | array items => itemsDepth items + 1
  | object members => membersDepth members + 1
  | _ => 0

def itemsDepth : List Json → Nat
  | [] => 0
  | v :: rest => max v.depth (itemsDepth rest)

def membersDepth : List (String × Json) → Nat
  | [] => 0
  | (_, v) :: rest => max v.depth (membersDepth rest)

end

/-- The members of an object, of which the known ones occur once at most. -/
structure Fields where
  members : List (String × Json)

namespace Fields

def read? (known : List String) : Json → Option Fields
  | object members =>
    if known.all fun k => (members.filter (·.1 == k)).length ≤ 1 then some ⟨members⟩ else none
  | _ => none

def get? (fs : Fields) (name : String) : Option Json := (fs.members.find? (·.1 == name)).map (·.2)

def required {α : Type} (fs : Fields) (name : String) (read : Json → Option α) : Option α :=
  (fs.get? name).bind read

/-- A member that may be missing, but may not be unreadable. -/
def optional {α : Type} (fs : Fields) (name : String) (default : α) (read : Json → Option α) : Option α :=
  match fs.get? name with
  | none => some default
  | some j => read j

end Fields

end FlowShader.Json
