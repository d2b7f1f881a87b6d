import FlowShader.Shader.Stmt

namespace FlowShader.Shader

variable {L : Type}

structure Global (L : Type) where
  name : String
  ty : Ty
  value : Term L

structure Uniform where
  name : String
  ty : Ty
deriving DecidableEq, Repr

structure Module (L : Type) where
  constants : List (Global L) := []
  uniforms : List Uniform := []
  functions : List (Function L) := []

namespace Module

def function? (m : Module L) (name : String) : Option (Function L) :=
  m.functions.find? (·.name == name)

def defines (m : Module L) (name : String) : Bool := m.functions.any (·.name == name)

def addConstant (m : Module L) (name : String) (ty : Ty) (value : Term L) : Module L :=
  if m.constants.any (·.name == name) then m
  else { m with constants := m.constants ++ [⟨name, ty, value⟩] }

def addUniform (m : Module L) (name : String) (ty : Ty) : Module L :=
  if m.uniforms.any (·.name == name) then m
  else { m with uniforms := m.uniforms ++ [⟨name, ty⟩] }

def addFunction (m : Module L) (f : Function L) : Module L :=
  if m.defines f.name then m else { m with functions := m.functions ++ [f] }

def functionNames (m : Module L) : List String := m.functions.map (·.name)

variable [Literal L]

/-- The lines in front of the functions. -/
def header (m : Module L) : List String :=
  (m.constants.map fun c => s!"const {c.ty.text} {c.name} = {c.value.text};")
    ++ m.uniforms.map fun u => s!"uniform {u.ty.text} {u.name};"

def text (m : Module L) : String :=
  unlines m.header ++ String.join (m.functions.map fun f => "\n" ++ f.text)

end Module

end FlowShader.Shader
