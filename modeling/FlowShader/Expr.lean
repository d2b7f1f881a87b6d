import FlowShader.Scalar

namespace FlowShader

inductive Expr (L : Type) where
  | literal (x : L)
  | constant (c : Constant)
  | var (name : String)
  | call (f : Func) (arg : Expr L)
  | call₂ (f : BiFunc) (lhs rhs : Expr L)
  | op (o : Operator) (lhs rhs : Expr L)
deriving Repr, Inhabited

namespace Expr

variable {L : Type}

def beq [BEq L] : Expr L → Expr L → Bool
  | literal x, literal y => x == y
  | constant c, constant d => c == d
  | var a, var b => a == b
  | call f a, call g b => f == g && beq a b
  | call₂ f a b, call₂ g c d => f == g && beq a c && beq b d
  | op o a b, op p c d => o == p && beq a c && beq b d
  | _, _ => false

instance [BEq L] : BEq (Expr L) := ⟨beq⟩

def size : Expr L → Nat
  | literal _ | constant _ | var _ => 1
  | call _ a => 1 + a.size
  | call₂ _ a b | op _ a b => 1 + a.size + b.size

def names : Expr L → List String
  | literal _ | constant _ => []
  | var v => [v]
  | call _ a => a.names
  | call₂ _ a b | op _ a b => a.names ++ b.names

def sortNames (names : List String) : List String := names.eraseDups.mergeSort (· ≤ ·)

def vars (e : Expr L) : List String := sortNames e.names

def contains (v : String) : Expr L → Bool
  | literal _ | constant _ => false
  | var w => w == v
  | call _ a => a.contains v
  | call₂ _ a b | op _ a b => a.contains v || b.contains v

def isConstant : Expr L → Bool
  | literal _ | constant _ => true
  | var _ => false
  | call _ a => a.isConstant
  | call₂ _ a b | op _ a b => a.isConstant && b.isConstant

/-- Every subtree, a tree before its parts and parts from left to right. -/
def subtrees : Expr L → List (Expr L)
  | e@(literal _) | e@(constant _) | e@(var _) => [e]
  | e@(call _ a) => e :: a.subtrees
  | e@(call₂ _ a b) | e@(op _ a b) => e :: (a.subtrees ++ b.subtrees)

/-- Names of functions without a derivative that are applied to something depending on `v`. -/
def roughCalls (v : String) (e : Expr L) : List String :=
  sortNames <| e.subtrees.filterMap fun
    | call f a => if !f.differentiable && a.contains v then some f.name else none
    | call₂ f a b => if !f.differentiable && (a.contains v || b.contains v) then some f.name else none
    | _ => none

def head? : Expr L → Option String
  | literal _ => none
  | constant c => some c.name
  | var v => some v
  | call f _ => some f.name
  | call₂ f _ _ => some f.name
  | op o _ _ => some o.symbol.toString

def replace [BEq L] (old new : Expr L) : Expr L → Expr L
  | e@(literal _) | e@(constant _) | e@(var _) => if e == old then new else e
  | e@(call f a) => if e == old then new else call f (replace old new a)
  | e@(call₂ f a b) =>
    if e == old then new else call₂ f (replace old new a) (replace old new b)
  | e@(op o a b) => if e == old then new else op o (replace old new a) (replace old new b)

def subst (σ : String → Option (Expr L)) : Expr L → Expr L
  | literal x => literal x
  | constant c => constant c
  | var v => (σ v).getD (var v)
  | call f a => call f (a.subst σ)
  | call₂ f a b => call₂ f (a.subst σ) (b.subst σ)
  | op o a b => op o (a.subst σ) (b.subst σ)

/-- The substitution that a list of entries gives; a later entry overrides an earlier one. -/
def bindings (entries : List (String × Expr L)) (v : String) : Option (Expr L) :=
  (entries.reverse.find? (·.1 == v)).map (·.2)

def rename (old new : String) (e : Expr L) : Expr L := e.subst (bindings [(old, var new)])

variable [Literal L]

def isZero : Expr L → Bool
  | literal x => x == 0
  | _ => false

def isOne : Expr L → Bool
  | literal x => x == 1
  | _ => false

def number? : Expr L → Option L
  | literal x => some x
  | constant c => some c.value
  | _ => none

def literalText (x : L) : String := if x == 0 then "0" else Literal.text x

def write (acc : String) : Expr L → String
  | literal x => acc ++ if Scalar.lt x 0 then s!"(-{literalText (-x)})" else literalText x
  | constant c => acc ++ c.name
  | var v => acc ++ v
  | call f a => a.write (acc ++ f.name ++ "(") ++ ")"
  | call₂ f a b => b.write (a.write (acc ++ f.name ++ "(") ++ ", ") ++ ")"
  | op o a b => b.write (a.write (acc ++ "(") ++ " " ++ o.symbol.toString ++ " ") ++ ")"

def text (e : Expr L) : String := e.write ""

theorem write_eq (e : Expr L) (acc : String) : e.write acc = acc ++ e.text := by
  induction e generalizing acc with
  | literal x | constant c | var v => rw [text, write, write, String.empty_append]
  | call f a ih =>
    rw [text, write, write, ih, ih ("" ++ f.name ++ "(")]
    simp only [String.append_assoc, String.empty_append]
  | call₂ f a b iha ihb =>
    rw [text, write, write, ihb, iha, ihb, iha ("" ++ f.name ++ "(")]
    simp only [String.append_assoc, String.empty_append]
  | op o a b iha ihb =>
    rw [text, write, write, ihb, iha, ihb, iha ("" ++ "(")]
    simp only [String.append_assoc, String.empty_append]

theorem text_call (f : Func) (a : Expr L) : (call f a).text = f.name ++ "(" ++ a.text ++ ")" := by
  rw [text, write, write_eq, String.empty_append]

theorem text_call₂ (f : BiFunc) (a b : Expr L) :
    (call₂ f a b).text = f.name ++ "(" ++ a.text ++ ", " ++ b.text ++ ")" := by
  rw [text, write, write_eq, write_eq, String.empty_append]

theorem text_op (o : Operator) (a b : Expr L) :
    (op o a b).text = "(" ++ a.text ++ " " ++ o.symbol.toString ++ " " ++ b.text ++ ")" := by
  rw [text, write, write_eq, write_eq, String.empty_append]

def zero : Expr L := literal 0

def one : Expr L := literal 1

def nat (n : Nat) : Expr L := literal (Literal.ofNat n)

def add : Expr L → Expr L → Expr L
  | literal x, literal y => literal (x + y)
  | a, b => if b.isZero then a else if a.isZero then b else op .add a b

def sub : Expr L → Expr L → Expr L
  | literal x, literal y => literal (x - y)
  | a, b => if b.isZero then a else op .sub a b

def mul : Expr L → Expr L → Expr L
  | literal x, literal y => literal (x * y)
  | a, b =>
    if b.isZero || a.isZero then zero else if b.isOne then a else if a.isOne then b else op .mul a b

/-- A literal zero divided by anything but a literal zero is zero; a literal is not divided by a
literal zero. -/
def div : Expr L → Expr L → Expr L
  | literal x, literal y => if !(y == 0) then literal (x / y) else op .div (literal x) (literal y)
  | a, b => if b.isOne then a else if a.isZero && !b.isZero then zero else op .div a b

def neg : Expr L → Expr L
  | literal x => literal (-x)
  | a => op .sub zero a

instance : Add (Expr L) := ⟨add⟩
instance : Sub (Expr L) := ⟨sub⟩
instance : Mul (Expr L) := ⟨mul⟩
instance : Div (Expr L) := ⟨div⟩
instance : Neg (Expr L) := ⟨neg⟩

def square (a : Expr L) : Expr L := op .pow a (nat 2)

end Expr

/-- What literals mean and which variables have a value. -/
structure Valuation (L K : Type) where
  literal : L → K
  binding : String → Option K

namespace Valuation

/-- Variables looked up in a list, where a later entry overrides an earlier one. -/
def ofList {L : Type} (entries : List (String × L)) : Valuation L L :=
  ⟨id, fun v => (entries.reverse.find? (·.1 == v)).map (·.2)⟩

end Valuation

structure Unbound where
  name : String
deriving DecidableEq, Repr

def Unbound.message (u : Unbound) : String := s!"variable `{u.name}` is not bound"

namespace Expr

variable {L K : Type} [Scalar K]

/-- The value at a valuation, or the first variable from the left that has none. -/
def eval (ρ : Valuation L K) : Expr L → Except Unbound K
  | literal x => .ok (ρ.literal x)
  | constant c => .ok c.value
  | var v =>
    match ρ.binding v with
    | some x => .ok x
    | none => .error ⟨v⟩
  | call f a => do return f.apply (← a.eval ρ)
  | call₂ f a b => do
    let x ← a.eval ρ
    let y ← b.eval ρ
    return f.apply x y
  | op o a b => do
    let x ← a.eval ρ
    let y ← b.eval ρ
    return o.apply x y

end Expr

end FlowShader
