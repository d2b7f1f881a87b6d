import FlowShader.Expr

namespace FlowShader

inductive Layer (L α : Type) where
  | literal (x : L)
  | constant (c : Constant)
  | var (name : String)
  | call (f : Func) (a : α)
  | call₂ (f : BiFunc) (a b : α)
  | op (o : Operator) (a b : α)
deriving Repr

namespace Layer

variable {L α β : Type}

section Equality

variable [BEq L]

/-- Literals are the same if they are equal, or if neither is equal even to itself and so neither is a number. -/
def sameLiteral (x y : L) : Bool := x == y || (x != x && y != y)

def beq [BEq α] : Layer L α → Layer L α → Bool
  | literal x, literal y => sameLiteral x y
  | constant c, constant d => c == d
  | var v, var w => v == w
  | call f a, call g b => f == g && a == b
  | call₂ f a b, call₂ g c d => f == g && a == c && b == d
  | op o a b, op p c d => o == p && a == c && b == d
  | _, _ => false

instance [BEq α] : BEq (Layer L α) := ⟨beq⟩

def hashed [Hashable L] [Hashable α] : Layer L α → UInt64
  | literal x => mixHash 0 (if x == x then hash x else 0)
  | constant c => mixHash 1 (hash c)
  | var v => mixHash 2 (hash v)
  | call f a => mixHash 3 (mixHash (hash f) (hash a))
  | call₂ f a b => mixHash 4 (mixHash (hash f) (mixHash (hash a) (hash b)))
  | op o a b => mixHash 5 (mixHash (hash o) (mixHash (hash a) (hash b)))

instance [Hashable L] [Hashable α] : Hashable (Layer L α) := ⟨hashed⟩

theorem sameLiteral_self (x : L) : sameLiteral x x = true := by
  cases h : x == x <;> simp [sameLiteral, bne, h]

instance [BEq α] [ReflBEq α] : ReflBEq (Layer L α) where
  rfl {n} := by
    cases n with
    | literal x => exact sameLiteral_self x
    | constant | var | call | call₂ | op => simp [BEq.beq, beq]

instance [LawfulBEq L] [BEq α] [LawfulBEq α] : LawfulBEq (Layer L α) where
  eq_of_beq {n m} h := by
    cases n <;> cases m <;> simp_all [BEq.beq, beq, sameLiteral]

end Equality

def map (f : α → β) : Layer L α → Layer L β
  | literal x => literal x
  | constant c => constant c
  | var v => var v
  | call g a => call g (f a)
  | call₂ g a b => call₂ g (f a) (f b)
  | op o a b => op o (f a) (f b)

def parts : Layer L α → List α
  | literal _ | constant _ | var _ => []
  | call _ a => [a]
  | call₂ _ a b | op _ a b => [a, b]

def isLeaf : Layer L α → Bool
  | literal _ | constant _ | var _ => true
  | _ => false

def toExpr : Layer L (Expr L) → Expr L
  | literal x => .literal x
  | constant c => .constant c
  | var v => .var v
  | call f a => .call f a
  | call₂ f a b => .call₂ f a b
  | op o a b => .op o a b

def sequence? : Layer L (Option α) → Option (Layer L α)
  | literal x => some (literal x)
  | constant c => some (constant c)
  | var v => some (var v)
  | call f a => a.map (call f)
  | call₂ f a b => a.bind fun a => b.map (call₂ f a)
  | op o a b => a.bind fun a => b.map (op o a)

section Value

variable [Literal L]

def finite? (x : L) : Option L := if Literal.isFinite x then some x else none

/-- The value of a node whose parts have values. What is not finite is not folded, a literal apart. -/
def fold? : Layer L (Option L) → Option L
  | literal x => some x
  | constant c => finite? c.value
  | var _ => none
  | call f a => a.bind fun x => finite? (f.apply x)
  | call₂ f a b => a.bind fun x => b.bind fun y => finite? (f.apply x y)
  | op o a b => a.bind fun x => b.bind fun y => finite? (o.apply x y)

end Value

section Order

variable [Scalar L] [Ord α]

def compareLiterals (x y : L) : Ordering :=
  if Scalar.lt x y then .lt else if Scalar.lt y x then .gt else .eq

def kind : Layer L α → Nat
  | constant _ => 0
  | op _ _ _ => 1
  | call₂ _ _ _ => 2
  | call _ _ => 3
  | literal _ => 4
  | var _ => 5

/-- The order of nodes: by what they apply, then by their parts from left to right, literals by their values. -/
def compare : Layer L α → Layer L α → Ordering
  | literal x, literal y => compareLiterals x y
  | constant c, constant d => Ord.compare c d
  | var v, var w => Ord.compare v w
  | call f a, call g b => (Ord.compare f g).then (Ord.compare a b)
  | call₂ f a b, call₂ g c d => (Ord.compare f g).then ((Ord.compare a c).then (Ord.compare b d))
  | op o a b, op p c d => (Ord.compare o p).then ((Ord.compare a c).then (Ord.compare b d))
  | n, m => Ord.compare n.kind m.kind

end Order

/-- The price of a node by itself, in halves of a unit. Calls of transcendental functions outweigh
arithmetic, and a power is a little cheaper than the product it becomes. -/
def ownPrice : Layer L α → Nat
  | literal _ | constant _ => 1
  | var _ => 2
  | call f _ =>
    match f with
    | .abs | .floor | .ceil | .fract | .sign | .length | .normalize => 4
    | .sqrt => 8
    | _ => 16
  | call₂ f _ _ =>
    match f with
    | .min | .max | .dot => 4
    | .atan2 => 20
  | op o _ _ =>
    match o with
    | .add | .sub | .mul => 4
    | .pow => 3
    | .div | .mod => 6

def price (n : Layer L Nat) : Nat :=
  n.ownPrice + match n with
    | literal _ | constant _ | var _ => 0
    | call _ a => a
    | call₂ _ a b | op _ a b => a + b

end Layer

/-- The price of a tree; a repeated subtree is paid each time. -/
def Expr.price {L : Type} : Expr L → Nat
  | .literal x => Layer.price (.literal x : Layer L Nat)
  | .constant c => Layer.price (.constant c : Layer L Nat)
  | .var v => Layer.price (.var v : Layer L Nat)
  | .call f a => Layer.price (.call f a.price : Layer L Nat)
  | .call₂ f a b => Layer.price (.call₂ f a.price b.price : Layer L Nat)
  | .op o a b => Layer.price (.op o a.price b.price : Layer L Nat)

end FlowShader
