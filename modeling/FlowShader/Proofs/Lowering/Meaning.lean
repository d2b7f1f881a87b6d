import FlowShader.Lowering
import FlowShader.Proofs.Except
import FlowShader.Shader.Interpreter

namespace FlowShader

section Meaning

variable {L K : Type} [Literal L] [Scalar K]

/-- Literals stand for the numbers that a lowering itself writes: one, minus one and the constants. -/
structure Literal.Interprets (literal : L → K) : Prop where
  one : literal 1 = 1
  negOne : literal (-1) = -1
  constant (c : Constant) : literal c.value = c.value

def Literal.ofInt (n : Int) : L := if n < 0 then -ofNat n.natAbs else ofNat n.natAbs

namespace Expr

def productExponents : List Int := [1, -1, 2, -2, 3, -3, 4, -4]

def productExponent? : Operator → Expr L → Option Int
  | .pow, literal x => productExponents.find? fun n => x == Literal.ofInt n
  | _, _ => none

def repeated (x : K) (n : Nat) : K := (List.range (n - 1)).foldl (fun acc _ => acc * x) x

def wholePower (x : K) (n : Int) : K :=
  if n < 0 then 1 / repeated x n.natAbs else repeated x n.natAbs

def clamped (x : K) : K := Scalar.min (Scalar.max x (-1)) 1

def guarded (clamp : Bool) (f : Func) (x : K) : K :=
  if clamp && (f == .asin || f == .acos) then clamped x else x

/-- The value of a formula as a shader computes it, or the first variable that has none. -/
def meaning (clamp : Bool) (ρ : Valuation L K) : Expr L → Except Unbound K
  | literal x => .ok (ρ.literal x)
  | constant c => .ok c.value
  | var v =>
    match ρ.binding v with
    | some x => .ok x
    | none => .error ⟨v⟩
  | call f a => do return f.apply (guarded clamp f (← a.meaning clamp ρ))
  | call₂ f a b => do
    let x ← a.meaning clamp ρ
    let y ← b.meaning clamp ρ
    return f.apply x y
  | op o a b => do
    let x ← a.meaning clamp ρ
    match productExponent? o b with
    | some n => return wholePower x n
    | none => return o.apply x (← b.meaning clamp ρ)

/-- The small whole powers in a formula have the values of the products that are written for them. -/
def PowersAreProducts (literal : L → K) (e : Expr L) : Prop :=
  ∀ a z n, op .pow a (.literal z) ∈ e.subtrees → productExponent? .pow (.literal z) = some n →
    ∀ x : K, Scalar.pow x (literal z) = wholePower x n

end Expr

theorem Lowering.smallExponent?_eq (x : L) :
    smallExponent? x = Expr.productExponents.find? fun n => x == Literal.ofInt n := by
  have hlist : Expr.productExponents = [1, 2, 3, 4].flatMap fun n : Nat => [(n : Int), -n] := rfl
  have hsign (n : Nat) (hn : 0 < n) : [(n : Int), -n].find? (fun k => x == Literal.ofInt k) =
      if x == Literal.ofNat n then some (n : Int) else if x == -Literal.ofNat n then some (-(n : Int)) else none := by
    have hle : ¬ (n : Int) < 0 := by omega
    cases h : x == Literal.ofNat n <;> cases h' : x == -Literal.ofNat n <;>
      simp [Literal.ofInt, h, h', hn, hle, List.find?]
  rw [hlist, List.find?_flatMap, smallExponent?]
  simp only [List.findSome?_cons, List.findSome?_nil, hsign _ Nat.one_pos, hsign 2 (by decide), hsign 3 (by decide),
    hsign 4 (by decide)]

theorem Lowering.smallPower?_eq (o : Operator) (b : Expr L) : smallPower? o b = Expr.productExponent? o b := by
  fun_cases smallPower? o b with
  | case1 x => exact smallExponent?_eq x
  | case2 o b h => rw [Expr.productExponent?.eq_2 _ _ h]

end Meaning

namespace Shader

variable {L K : Type} [Scalar K]

/-- Expressions see the builtins under their names. -/
def Context.Plain (ctx : Context L K) : Prop := ∀ b : Builtin, ctx.call? b.name = none

variable {ctx : Context L K} {env : Env K}

theorem Builtin.ofName?_func (f : Func) :
    Builtin.ofName? f.name = some (if f = .atan then .atan else .func f) := by
  cases f <;> rfl

theorem Builtin.ofName?_biFunc (f : BiFunc) :
    Builtin.ofName? (Builtin.ofBiFunc f).name = some (.ofBiFunc f) := by
  cases f <;> rfl

theorem Context.Plain.apply (hctx : ctx.Plain) (b : Builtin) {b' : Builtin} (hb : Builtin.ofName? b.name = some b')
    (args : List (Value K)) : ctx.apply b.name args = b'.eval b.name args := by
  rw [Context.apply, hctx b, hb]

theorem Term.evalAll_cons {t : Term L} {ts : List (Term L)} {v : Value K} {vs : List (Value K)}
    (ht : t.eval ctx env = .ok v) (hts : Term.evalAll ctx env ts = .ok vs) :
    Term.evalAll ctx env (t :: ts) = .ok (v :: vs) :=
  bind_eq_ok_of ht (bind_eq_ok_of hts rfl)

theorem eval_func (hctx : ctx.Plain) (f : Func) {t : Term L} {x : K} (ht : t.eval ctx env = .ok (.float x)) :
    (Term.call f.name [t]).eval ctx env = .ok (.float (f.apply x)) := by
  refine bind_eq_ok_of (Term.evalAll_cons ht rfl) ((hctx.apply (.func f) (Builtin.ofName?_func f) _).trans ?_)
  cases f <;> rfl

theorem eval_biFunc (hctx : ctx.Plain) (f : BiFunc) {s t : Term L} {x y : K}
    (hs : s.eval ctx env = .ok (.float x)) (ht : t.eval ctx env = .ok (.float y)) :
    (Lowering.callBuiltin (.ofBiFunc f) [s, t]).eval ctx env = .ok (.float (f.apply x y)) := by
  refine bind_eq_ok_of (Term.evalAll_cons hs (Term.evalAll_cons ht rfl))
    ((hctx.apply _ (Builtin.ofName?_biFunc f) _).trans ?_)
  cases f <;> rfl

theorem eval_binary (hctx : ctx.Plain) (o : Operator) {s t : Term L} {x y : K}
    (hs : s.eval ctx env = .ok (.float x)) (ht : t.eval ctx env = .ok (.float y)) :
    (Lowering.binary o s t).eval ctx env = .ok (.float (o.apply x y)) := by
  have hargs : Term.evalAll ctx env [s, t] = .ok [.float x, .float y] :=
    Term.evalAll_cons hs (Term.evalAll_cons ht rfl)
  cases o with
  | add | sub | mul | div => exact bind_eq_ok_of hs (bind_eq_ok_of ht rfl)
  | pow => exact bind_eq_ok_of hargs (hctx.apply .pow rfl _)
  | mod => exact bind_eq_ok_of hargs (hctx.apply .mod rfl _)

theorem eval_mul {s t : Term L} {x y : K} (hs : s.eval ctx env = .ok (.float x))
    (ht : t.eval ctx env = .ok (.float y)) : (s * t).eval ctx env = .ok (.float (x * y)) :=
  bind_eq_ok_of hs (bind_eq_ok_of ht rfl)

theorem eval_product {t : Term L} {x : K} (ht : t.eval ctx env = .ok (.float x)) (n : Nat) :
    (Lowering.product t n).eval ctx env = .ok (.float (Expr.repeated x n)) := by
  unfold Lowering.product Expr.repeated
  -- The accumulated product is the same on both sides at every step.
  suffices h : ∀ (indices : List Nat) (s : Term L) (y : K), s.eval ctx env = .ok (.float y) →
      (indices.foldl (fun acc _ => acc * t) s).eval ctx env =
        .ok (.float (indices.foldl (fun acc _ => acc * x) y)) from h _ t x ht
  intro indices
  induction indices with
  | nil => exact fun s y hs => hs
  | cons _ indices ih => exact fun s y hs => ih _ _ (eval_mul hs ht)

variable [Literal L]

theorem eval_one (hl : Literal.Interprets ctx.literal) : (Term.float 1 : Term L).eval ctx env = .ok (.float 1) :=
  congrArg (Except.ok ∘ Value.float) hl.one

theorem eval_clamp (hctx : ctx.Plain) (hl : Literal.Interprets ctx.literal) {t : Term L} {x : K}
    (ht : t.eval ctx env = .ok (.float x)) :
    (Lowering.callBuiltin .clamp [t, .float (-1), .float 1]).eval ctx env = .ok (.float (Expr.clamped x)) := by
  have hnegOne : (Term.float (-1) : Term L).eval ctx env = .ok (.float (-1)) :=
    congrArg (Except.ok ∘ Value.float) hl.negOne
  have hargs : Term.evalAll ctx env [t, .float (-1), .float 1] = .ok [.float x, .float (-1), .float 1] :=
    Term.evalAll_cons ht (Term.evalAll_cons hnegOne (Term.evalAll_cons (eval_one hl) rfl))
  exact bind_eq_ok_of hargs (hctx.apply .clamp rfl _)

theorem eval_guardArgument (hctx : ctx.Plain) (hl : Literal.Interprets ctx.literal) (c : Lowering L) (f : Func)
    {t : Term L} {x : K} (ht : t.eval ctx env = .ok (.float x)) :
    (c.guardArgument f t).eval ctx env = .ok (.float (Expr.guarded c.clamp f x)) := by
  unfold Lowering.guardArgument Expr.guarded
  split
  · exact eval_clamp hctx hl ht
  · exact ht

theorem eval_reciprocal (hl : Literal.Interprets ctx.literal) {t : Term L} {x : K}
    (ht : t.eval ctx env = .ok (.float x)) : (.float 1 / t : Term L).eval ctx env = .ok (.float (1 / x)) :=
  bind_eq_ok_of (eval_one hl) (bind_eq_ok_of ht rfl)

end Shader

end FlowShader
