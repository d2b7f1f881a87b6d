import FlowShader.Shader.Module
import FlowShader.Shader.Value

namespace FlowShader.Shader

variable {L K : Type}

abbrev Env (K : Type) := List (String × Value K)

namespace Env

def get? (env : Env K) (name : String) : Option (Value K) :=
  match env with
  | [] => none
  | (n, v) :: rest => if n == name then some v else get? rest name

def set (env : Env K) (name : String) (value : Value K) : Env K :=
  match env with
  | [] => [(name, value)]
  | (n, v) :: rest => if n == name then (n, value) :: rest else (n, v) :: set rest name value

end Env

/-- What running code can see beside its local variables. -/
structure Context (L K : Type) where
  literal : L → K
  globals : Env K
  /-- The functions that the module defines. -/
  call? : String → Option (List (Value K) → Except Fault (Value K))

inductive Flow (K : Type) where
  | next
  | leave
  | result (v : Value K)

variable [Scalar K]

/-- The result of an infix operator. Both operands are computed first; a second condition is looked
at only if the first one leaves the outcome open. -/
def BinOp.eval (o : BinOp) (a b : Value K) : Except Fault (Value K) :=
  let compared (p : K → K → Bool) : Except Fault (Value K) := do
    let x ← a.toFloat
    let y ← b.toFloat
    return .bool (p x y)
  match o with
  | add => a.zip "+" (· + ·) b
  | sub => a.zip "-" (· - ·) b
  | mul => a.mul b
  | div => a.zip "/" (· / ·) b
  | lt => compared Scalar.lt
  | le => compared Scalar.le
  | gt => compared fun x y => Scalar.lt y x
  | ge => compared fun x y => Scalar.le y x
  | and => do if ← a.toBool then return .bool (← b.toBool) else return .bool false
  | or => do if ← a.toBool then return .bool true else return .bool (← b.toBool)

def Context.apply (ctx : Context L K) (name : String) (args : List (Value K)) :
    Except Fault (Value K) :=
  match ctx.call? name with
  | some f => f args
  | none =>
    match Builtin.ofName? name with
    | some b => b.eval name args
    | none => .error (.unknownFunction name)

mutual

def Term.eval (ctx : Context L K) (env : Env K) : Term L → Except Fault (Value K)
  | .float x => .ok (.float (ctx.literal x))
  | .bool b => .ok (.bool b)
  | .var name =>
    match (env.get? name).or (ctx.globals.get? name) with
    | some v => .ok v
    | none => .error (.unknownVariable name)
  | .component base i => do return .float (← (← base.eval ctx env).component i)
  | .element base col row => do return .float (← (← base.eval ctx env).element col row)
  | .neg a => do (← a.eval ctx env).map "negation" (- ·)
  | .not a => do return .bool !(← (← a.eval ctx env).toBool)
  | .binary o a b => do
    let x ← a.eval ctx env
    let y ← b.eval ctx env
    o.eval x y
  | .call name args => do ctx.apply name (← Term.evalAll ctx env args)
  | .construct ty args => do Value.construct ty (← Term.evalAll ctx env args)

def Term.evalAll (ctx : Context L K) (env : Env K) : List (Term L) → Except Fault (List (Value K))
  | [] => .ok []
  | t :: ts => do
    let v ← t.eval ctx env
    let vs ← Term.evalAll ctx env ts
    return v :: vs

end

def Place.write (place : Place) (value : Value K) (env : Env K) : Except Fault (Env K) :=
  match env.get? place.name with
  | none => .error (.unknownVariable place.name)
  | some old =>
    let misfit := .error (.mismatch (.assignment place old.ty))
    match place, old with
    | var name, _ => .ok (env.set name value)
    | component name i, .vec xs =>
      if i < xs.length then do return env.set name (.vec (xs.set i (← value.toFloat))) else misfit
    | element name col row, .mat n xs =>
      if col < n && row < n then do
        return env.set name (.mat n (xs.set (col * n + row) (← value.toFloat)))
      else misfit
    | _, _ => misfit

def rounds (body : Env K → Except Fault (Env K × Flow K)) :
    Nat → Env K → Except Fault (Env K × Flow K)
  | 0, env => .ok (env, .next)
  | count + 1, env => do
    match ← body env with
    | (env, .next) => rounds body count env
    | (env, .leave) => return (env, .next)
    | (env, .result v) => return (env, .result v)

mutual

def Stmt.exec (ctx : Context L K) : Stmt L → Env K → Except Fault (Env K × Flow K)
  | .declare _ name value, env => do return (env.set name (← value.eval ctx env), .next)
  | .assign place value, env => do return (← place.write (← value.eval ctx env) env, .next)
  | .branch cond yes no, env => do
    if ← (← cond.eval ctx env).toBool then Stmt.execAll ctx yes env else Stmt.execAll ctx no env
  | .loop count body, env => rounds (fun env => Stmt.execAll ctx body env) count env
  | .leave, env => .ok (env, .leave)
  | .result value, env => do return (env, .result (← value.eval ctx env))
  | .comment _, env => .ok (env, .next)

def Stmt.execAll (ctx : Context L K) : List (Stmt L) → Env K → Except Fault (Env K × Flow K)
  | [], env => .ok (env, .next)
  | s :: ss, env => do
    match ← s.exec ctx env with
    | (env, .next) => Stmt.execAll ctx ss env
    | (env, flow) => return (env, flow)

end

namespace Function

def bind (name : String) : List (Ty × String) → List (Value K) → Env K → Except Fault (Env K)
  | (ty, param) :: params, arg :: args, env =>
    if arg.ty = ty then bind name params args (env.set param arg)
    else .error (.mismatch (.parameter name param ty arg.ty))
  | _, _, env => .ok env

def run (f : Function L) (ctx : Context L K) (args : List (Value K)) : Except Fault (Value K) :=
  if f.params.length = args.length then do
    let env ← bind f.name f.params args []
    match ← Stmt.execAll ctx f.body env with
    | (_, .result v) => return v
    | _ => .error (.missingReturn f.name)
  else .error (.arity f.name f.params.length args.length)

end Function

namespace Module

def callAt (m : Module L) (literal : L → K) (globals : Env K) :
    Nat → String → List (Value K) → Except Fault (Value K)
  | 0, name, _ => .error (.recursionLimit name)
  | depth + 1, name, args =>
    match m.function? name with
    | none => .error (.unknownFunction name)
    | some f =>
      f.run ⟨literal, globals, fun callee =>
        if m.defines callee then some (callAt m literal globals depth callee) else none⟩ args

def maxDepth : Nat := 65

def call (m : Module L) (literal : L → K) (globals : Env K) (name : String) (args : List (Value K)) :
    Except Fault (Value K) :=
  callAt m literal globals maxDepth name args

def evalConstants (m : Module L) (literal : L → K) : List (Global L) → Env K → Except Fault (Env K)
  | [], globals => .ok globals
  | c :: cs, globals => do
    let ctx : Context L K := ⟨literal, globals, fun callee =>
      if m.defines callee then some (callAt m literal globals (maxDepth - 1) callee) else none⟩
    let v ← c.value.eval ctx []
    evalConstants m literal cs (globals.set c.name v)

/-- Global variables at the start: uniforms are zero, constants have their values. -/
def globals (m : Module L) (literal : L → K) : Except Fault (Env K) :=
  evalConstants m literal m.constants (m.uniforms.foldl (fun env u => env.set u.name (.zero u.ty)) [])

end Module

end FlowShader.Shader
