import FlowShader.Primitive

namespace FlowShader.Shader

inductive Builtin where
  | func (f : Func)
  /-- The angle of one quotient or of a pair of coordinates. -/
  | atan
  | min | max | dot | pow | mod
  | clamp
deriving DecidableEq, Repr

namespace Builtin

def ofName? : String → Option Builtin
  | "atan" => some atan
  | "min" => some min
  | "max" => some max
  | "dot" => some dot
  | "pow" => some pow
  | "mod" => some mod
  | "clamp" => some clamp
  | s => (Func.ofName? s).map func

def name : Builtin → String
  | func f => f.name
  | atan => "atan"
  | min => "min"
  | max => "max"
  | dot => "dot"
  | pow => "pow"
  | mod => "mod"
  | clamp => "clamp"

def accepts (argc : Nat) : Builtin → Bool
  | func _ => argc == 1
  | atan => argc == 1 || argc == 2
  | min | max | dot | pow | mod => argc == 2
  | clamp => argc == 3

def arity : Builtin → Nat
  | func _ | atan => 1
  | min | max | dot | pow | mod => 2
  | clamp => 3

/-- The builtin that computes a function of two arguments. -/
def ofBiFunc : BiFunc → Builtin
  | .min => min
  | .max => max
  | .dot => dot
  | .atan2 => atan

end Builtin

def reservedWords : List String :=
  ["attribute", "const", "uniform", "varying", "layout", "centroid", "flat", "smooth",
    "noperspective", "break", "continue", "do", "for", "while", "switch", "case", "default",
    "if", "else", "in", "out", "inout", "invariant", "discard", "return", "struct", "true",
    "false", "void", "bool", "int", "uint", "float", "double", "vec2", "vec3", "vec4", "ivec2",
    "ivec3", "ivec4", "bvec2", "bvec3", "bvec4", "uvec2", "uvec3", "uvec4", "dvec2", "dvec3",
    "dvec4", "mat2", "mat3", "mat4", "mat2x2", "mat2x3", "mat2x4", "mat3x2", "mat3x3",
    "mat3x4", "mat4x2", "mat4x3", "mat4x4", "lowp", "mediump", "highp", "precision",
    "sampler2D", "sampler3D", "samplerCube", "sampler2DShadow", "samplerCubeShadow",
    "sampler2DArray", "sampler2DArrayShadow", "isampler2D", "isampler3D", "isamplerCube",
    "isampler2DArray", "usampler2D", "usampler3D", "usamplerCube", "usampler2DArray",
    "coherent", "volatile", "restrict", "readonly", "writeonly", "resource", "atomic_uint",
    "patch", "sample", "subroutine", "common", "partition", "active", "asm", "class", "union",
    "enum", "typedef", "template", "this", "goto", "inline", "noinline", "public", "static",
    "extern", "external", "interface", "long", "short", "half", "fixed", "unsigned", "superp",
    "input", "output", "hvec2", "hvec3", "hvec4", "fvec2", "fvec3", "fvec4", "filter",
    "sizeof", "cast", "namespace", "using"]

def isReserved (name : String) : Bool := reservedWords.contains name

def hasDoubleUnderscore : List Char → Bool
  | '_' :: '_' :: _ => true
  | _ :: rest => hasDoubleUnderscore rest
  | [] => false

/-- A name that a shader may define: shaped as a name, in no reserved space, neither builtin nor
reserved. -/
def isIdentifier (name : String) : Bool :=
  match name.toList with
  | [] => false
  | cs@(c :: rest) =>
    (c.isAlpha || c == '_') && rest.all (fun d => d.isAlphanum || d == '_')
      && !List.isPrefixOf ['g', 'l', '_'] cs && !hasDoubleUnderscore cs
      && (Builtin.ofName? name).isNone && !isReserved name

end FlowShader.Shader
