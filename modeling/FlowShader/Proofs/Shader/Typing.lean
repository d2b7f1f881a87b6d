import FlowShader.Proofs.Except
import FlowShader.Proofs.Shader.Environment

namespace FlowShader.Shader

variable {L K : Type}

/-- Values of a type; matrices have all their entries. -/
inductive Value.Fits : Value K → Ty → Prop
  | float (x : K) : Fits (.float x) .float
  | bool (b : Bool) : Fits (.bool b) .bool
  | vec {xs : List K} {n : Nat} : xs.length = n → Fits (.vec xs) (.vec n)
  | mat {n : Nat} {xs : List K} : xs.length = n * n → Fits (.mat n xs) (.mat n)

namespace Ty

/-- Functions of numbers apply to everything but conditions. -/
def map? : Ty → Option Ty
  | .bool => none
  | τ => some τ

def zip? : Ty → Ty → Option Ty
  | .float, .float => some .float
  | .vec n, .vec m => if n = m then some (.vec n) else none
  | .mat n, .mat m => if n = m then some (.mat n) else none
  | .float, τ | τ, .float => τ.map?
  | _, _ => none

def mul? : Ty → Ty → Option Ty
  | .mat n, .vec m | .vec m, .mat n => if m = n then some (.vec n) else none
  | σ, τ => σ.zip? τ

def dot? : Ty → Ty → Option Ty
  | .float, .float => some .float
  | .vec n, .vec m => if n = m then some .float else none
  | _, _ => none

def component? (i : Nat) : Ty → Option Ty
  | .vec n => if i < n then some .float else none
  | _ => none

def element? (col row : Nat) : Ty → Option Ty
  | .mat n => if col < n ∧ row < n then some .float else none
  | _ => none

/-- Constructors take numbers, either one or as many as there are places. -/
def construct? (τ : Ty) (args : List Ty) : Option Ty :=
  if args.all (· = .float) then
    match τ with
    | .vec n => if args.length = 1 ∨ args.length = n then some τ else none
    | .mat n => if args.length = 1 ∨ args.length = n * n then some τ else none
    | _ => none
  else none

end Ty

def BinOp.ty? : BinOp → Ty → Ty → Option Ty
  | .mul, σ, τ => σ.mul? τ
  | .add, σ, τ | .sub, σ, τ | .div, σ, τ => σ.zip? τ
  | .lt, .float, .float | .le, .float, .float | .gt, .float, .float | .ge, .float, .float => some .bool
  | .and, .bool, .bool | .or, .bool, .bool => some .bool
  | _, _, _ => none

def Builtin.funcTy? : Func → Ty → Option Ty
  | .length, .vec _ => some .float
  | _, τ => τ.map?

def Builtin.ty? (b : Builtin) : List Ty → Option Ty
  | [σ] =>
    match b with
    | func f => funcTy? f σ
    | atan => σ.map?
    | _ => none
  | [σ, τ] =>
    match b with
    | atan | min | max | pow | mod => σ.zip? τ
    | dot => σ.dot? τ
    | _ => none
  | [σ, τ, υ] =>
    match b with
    | clamp => (σ.zip? τ).bind (·.zip? υ)
    | _ => none
  | _ => none

section Values

variable {a b v : Value K} {σ τ υ : Ty}

theorem Value.Fits.ty_eq (h : v.Fits τ) : v.ty = τ := by
  cases h with
  | float | bool | mat => rfl
  | vec h => rw [Value.ty, h]

theorem Value.Fits.map (h : v.Fits σ) (hτ : σ.map? = some τ) (construct : String) (f : K → K) :
    ∃ w, v.map construct f = .ok w ∧ w.Fits τ := by
  cases h with
  | bool => cases hτ
  | float x =>
      obtain rfl := Option.some.inj hτ
      exact ⟨_, rfl, .float _⟩
  | vec hlength =>
      obtain rfl := Option.some.inj hτ
      exact ⟨_, rfl, .vec (by rwa [List.length_map])⟩
  | mat hlength =>
      obtain rfl := Option.some.inj hτ
      exact ⟨_, rfl, .mat (by rwa [List.length_map])⟩

theorem Value.Fits.zip (ha : a.Fits σ) (hb : b.Fits τ) (hυ : σ.zip? τ = some υ) (construct : String)
    (f : K → K → K) : ∃ w, a.zip construct f b = .ok w ∧ w.Fits υ := by
  cases ha with
  | bool => cases hb <;> cases hυ
  | float x =>
      cases hb with
      | float y =>
          obtain rfl := Option.some.inj hυ
          exact ⟨_, rfl, .float _⟩
      | bool => cases hυ
      | vec hm => exact (Fits.vec hm).map hυ construct (f x)
      | mat hm => exact (Fits.mat hm).map hυ construct (f x)
  | vec hn =>
      cases hb with
      | float y => exact (Fits.vec hn).map hυ construct (f · y)
      | vec hm =>
          rw [Ty.zip?] at hυ
          split at hυ
          · next hnm =>
              obtain rfl := Option.some.inj hυ
              refine ⟨_, if_pos (by rw [hn, hm, hnm]), .vec ?_⟩
              rw [List.length_zipWith, hn, hm, hnm, Nat.min_self]
          · cases hυ
      | bool | mat => cases hυ
  | mat hn =>
      cases hb with
      | float y => exact (Fits.mat hn).map hυ construct (f · y)
      | mat hm =>
          rw [Ty.zip?] at hυ
          split at hυ
          · next hnm =>
              obtain rfl := Option.some.inj hυ
              refine ⟨_, if_pos hnm, .mat ?_⟩
              rw [List.length_zipWith, hn, hm, hnm, Nat.min_self]
          · cases hυ
      | bool | vec => cases hυ

theorem Value.Fits.component {i : Nat} (h : v.Fits σ) (hτ : σ.component? i = some τ) :
    ∃ x, v.component i = .ok x ∧ τ = .float := by
  cases h with
  | float | bool | mat => cases hτ
  | @vec xs n hlength =>
      rw [Ty.component?] at hτ
      split at hτ
      · next hi =>
          rw [← hlength] at hi
          refine ⟨xs[i], ?_, (Option.some.inj hτ).symm⟩
          rw [Value.component, List.getElem?_eq_getElem hi]
      · cases hτ

theorem Value.Fits.element {col row : Nat} (h : v.Fits σ) (hτ : σ.element? col row = some τ) :
    ∃ x, v.element col row = .ok x ∧ τ = .float := by
  cases h with
  | float | bool | vec => cases hτ
  | @mat n xs hlength =>
      rw [Ty.element?] at hτ
      split at hτ
      · next hi =>
          have hlt : col * n + row < xs.length := by
            rw [hlength]
            calc col * n + row < col * n + n := Nat.add_lt_add_left hi.2 _
              _ = (col + 1) * n := (Nat.succ_mul col n).symm
              _ ≤ n * n := Nat.mul_le_mul_right n hi.1
          refine ⟨xs[col * n + row], ?_, (Option.some.inj hτ).symm⟩
          simp only [Value.element, hi.1, hi.2, decide_true, Bool.and_self, if_true, List.getElem?_eq_getElem hlt]
      · cases hτ

variable [Scalar K]

theorem Value.fits_zero (τ : Ty) : (Value.zero τ : Value K).Fits τ := by
  cases τ with
  | float => exact .float _
  | bool => exact .bool _
  | vec n => exact .vec List.length_replicate
  | mat n => exact .mat List.length_replicate

omit [Scalar K] in
theorem length_square (f : Nat → Nat → K) (n : Nat) :
    ((List.range n).flatMap fun col => (List.range n).map (f col)).length = n * n := by
  simp

theorem Value.fits_diagonal (n : Nat) (x : K) : (Value.diagonal n x).Fits (.mat n) :=
  .mat (length_square (fun col row => if col = row then x else 0) n)

theorem Value.Fits.mul (ha : a.Fits σ) (hb : b.Fits τ) (hυ : σ.mul? τ = some υ) :
    ∃ w, a.mul b = .ok w ∧ w.Fits υ := by
  cases ha with
  | bool => cases hb <;> cases hυ
  | float x =>
      have hmul : (Value.float x).mul b = (Value.float x).zip "*" (· * ·) b := by cases b <;> rfl
      have hty : Ty.float.mul? τ = Ty.float.zip? τ := by cases τ <;> rfl
      rw [hty] at hυ
      rw [hmul]
      exact (Fits.float x).zip hb hυ _ _
  | vec hn =>
      cases hb with
      | mat hm =>
          rw [Ty.mul?] at hυ
          split at hυ
          · next hnm =>
              obtain rfl := Option.some.inj hυ
              exact ⟨_, if_pos (by rw [hn, hnm]), .vec (by simp)⟩
          · cases hυ
      | float y => exact (Fits.vec hn).zip (.float y) hυ "*" _
      | vec hm => exact (Fits.vec hn).zip (.vec hm) hυ _ _
      | bool => cases hυ
  | mat hn =>
      cases hb with
      | vec hm =>
          rw [Ty.mul?] at hυ
          split at hυ
          · next hnm =>
              obtain rfl := Option.some.inj hυ
              exact ⟨_, if_pos (by rw [hm, hnm]), .vec (by simp)⟩
          · cases hυ
      | mat hm =>
          have hυ : (if _ = _ then some (Ty.mat _) else none) = some υ := hυ
          split at hυ
          · next hnm =>
              obtain rfl := Option.some.inj hυ
              exact ⟨_, if_pos hnm, .mat (length_square _ _)⟩
          · cases hυ
      | float y => exact (Fits.mat hn).zip (.float y) hυ "*" _
      | bool => cases hυ

theorem BinOp.eval_fits {o : BinOp} (ha : a.Fits σ) (hb : b.Fits τ) (hυ : o.ty? σ τ = some υ) :
    ∃ w, o.eval a b = .ok w ∧ w.Fits υ := by
  cases o with
  | add | sub | div => exact ha.zip hb hυ _ _
  | mul => exact ha.mul hb hυ
  | lt | le | gt | ge =>
      cases ha with
      | float x =>
          cases hb with
          | float y =>
              obtain rfl := Option.some.inj hυ
              exact ⟨_, rfl, .bool _⟩
          | bool | vec | mat => cases hυ
      | bool | vec | mat => cases hb <;> cases hυ
  | and =>
      cases ha with
      | bool x =>
          cases hb with
          | bool y =>
              obtain rfl := Option.some.inj hυ
              cases x with
              | true => exact ⟨_, rfl, .bool y⟩
              | false => exact ⟨_, rfl, .bool false⟩
          | float | vec | mat => cases hυ
      | float | vec | mat => cases hb <;> cases hυ
  | or =>
      cases ha with
      | bool x =>
          cases hb with
          | bool y =>
              obtain rfl := Option.some.inj hυ
              cases x with
              | true => exact ⟨_, rfl, .bool true⟩
              | false => exact ⟨_, rfl, .bool y⟩
          | float | vec | mat => cases hυ
      | float | vec | mat => cases hb <;> cases hυ

theorem Value.Fits.func {f : Func} (h : v.Fits σ) (hτ : Builtin.funcTy? f σ = some τ) (name : String) :
    ∃ w, (Builtin.func f).eval name [v] = .ok w ∧ w.Fits τ := by
  cases h with
  | bool => cases f <;> cases hτ
  | float x =>
      obtain rfl : Ty.float = τ := by cases f <;> exact Option.some.inj hτ
      exact ⟨_, by cases f <;> rfl, .float (f.apply x)⟩
  | @mat n xs hlength =>
      obtain rfl : Ty.mat n = τ := by cases f <;> exact Option.some.inj hτ
      exact ⟨.mat n (xs.map f.apply), by cases f <;> rfl, .mat (by rwa [List.length_map])⟩
  | @vec xs n hlength =>
      cases f with
      | length =>
          obtain rfl := Option.some.inj hτ
          exact ⟨_, rfl, .float _⟩
      | _ =>
          obtain rfl := Option.some.inj hτ
          exact ⟨_, rfl, .vec (by rwa [List.length_map])⟩

theorem Value.Fits.dot (ha : a.Fits σ) (hb : b.Fits τ) (hυ : σ.dot? τ = some υ) (name : String) :
    ∃ w, Builtin.dot.eval name [a, b] = .ok w ∧ w.Fits υ := by
  cases ha with
  | float x =>
      cases hb with
      | float y =>
          obtain rfl := Option.some.inj hυ
          exact ⟨_, rfl, .float _⟩
      | bool | vec | mat => cases hυ
  | vec hn =>
      cases hb with
      | vec hm =>
          rw [Ty.dot?] at hυ
          split at hυ
          · next hnm =>
              obtain rfl := Option.some.inj hυ
              exact ⟨_, if_pos (by rw [hn, hm, hnm]), .float _⟩
          · cases hυ
      | float | bool | mat => cases hυ
  | bool | mat => cases hb <;> cases hυ

theorem Builtin.eval_fits {b : Builtin} {args : List (Value K)} {types : List Ty}
    (h : List.Forall₂ Value.Fits args types) (hτ : b.ty? types = some τ) (name : String) :
    ∃ w, b.eval name args = .ok w ∧ w.Fits τ := by
  match types, h with
  | [], _ => cases hτ
  | [σ], .cons hv .nil =>
      cases b with
      | func f => exact hv.func hτ name
      | atan => exact hv.map hτ name Scalar.atan
      | min | max | dot | pow | mod | clamp => cases hτ
  | [σ, υ], .cons hv (.cons hw .nil) =>
      cases b with
      | func | clamp => cases hτ
      | atan | min | max | pow | mod => exact hv.zip hw hτ name _
      | dot => exact hv.dot hw hτ name
  | [σ, υ, ω], .cons hv (.cons hw (.cons hz .nil)) =>
      cases b with
      | clamp =>
          obtain ⟨μ, hμ, hτ⟩ := Option.bind_eq_some_iff.1 hτ
          obtain ⟨x, hx, hfits⟩ := hv.zip hw hμ name Scalar.max
          obtain ⟨y, hy, hfits⟩ := hfits.zip hz hτ name Scalar.min
          exact ⟨y, by simpa only [Builtin.eval, hx] using hy, hfits⟩
      | func | atan | min | max | dot | pow | mod => cases hτ
  | _ :: _ :: _ :: _ :: _, _ => cases hτ

omit [Scalar K] in
theorem Value.flatten_of_floats {args : List (Value K)} {types : List Ty} (h : List.Forall₂ Value.Fits args types)
    (hall : types.all (· = .float) = true) (τ : Ty) :
    ∃ xs, Value.flatten τ args = .ok xs ∧ xs.length = types.length := by
  induction h with
  | nil => exact ⟨[], rfl, rfl⟩
  | cons hv _ ih =>
      rw [List.all_cons, Bool.and_eq_true, decide_eq_true_eq] at hall
      obtain ⟨rfl, hall⟩ := hall
      obtain ⟨xs, hxs, hlength⟩ := ih hall
      cases hv with
      | float x =>
          refine ⟨x :: xs, ?_, congrArg Nat.succ hlength⟩
          rw [Value.flatten, hxs]
          rfl

theorem Value.construct_fits {args : List (Value K)} {types : List Ty} (h : List.Forall₂ Value.Fits args types)
    (hυ : σ.construct? types = some υ) : ∃ w, Value.construct σ args = .ok w ∧ w.Fits υ := by
  unfold Ty.construct? at hυ
  split at hυ
  · next hall =>
      obtain ⟨xs, hxs, hlength⟩ := Value.flatten_of_floats h hall σ
      simp only [← hlength] at hυ
      unfold Value.construct
      rw [hxs]
      cases σ with
      | float | bool => cases hυ
      | vec n =>
          dsimp only at hυ
          split at hυ
          · next hcount =>
              obtain rfl := Option.some.inj hυ
              match xs, hcount with
              | [x], _ => exact ⟨_, rfl, .vec List.length_replicate⟩
              | [], hcount => exact ⟨_, if_pos (by simp at hcount; omega), .vec (by simp at hcount ⊢; omega)⟩
              | x :: y :: rest, hcount =>
                  have hn : (x :: y :: rest).length = n := hcount.resolve_left (by simp)
                  exact ⟨_, if_pos (Nat.le_of_eq hn.symm), .vec (by rw [List.length_take, hn, Nat.min_self])⟩
          · cases hυ
      | mat n =>
          dsimp only at hυ
          split at hυ
          · next hcount =>
              obtain rfl := Option.some.inj hυ
              match xs, hcount with
              | [x], _ => exact ⟨_, rfl, Value.fits_diagonal n x⟩
              | [], hcount =>
                  have hn : ([] : List K).length = n * n := hcount.resolve_left (by simp)
                  exact ⟨_, if_pos hn, .mat hn⟩
              | x :: y :: rest, hcount =>
                  have hn : (x :: y :: rest).length = n * n := hcount.resolve_left (by simp)
                  exact ⟨_, if_pos hn, .mat hn⟩
          · cases hυ
  · cases hυ

end Values

/-- Parameter types and the type of the result. -/
structure Signature where
  params : List Ty
  ret : Ty
deriving DecidableEq

abbrev Types := List (String × Ty)

abbrev Signatures := List (String × Signature)

mutual

/-- The type of an expression, given those of variables and of the functions that the module defines. -/
def Term.ty? (fs : Signatures) (Γ : Types) : Term L → Option Ty
  | .float _ => some .float
  | .bool _ => some .bool
  | .var name => Γ.lookup name
  | .component base i => (base.ty? fs Γ).bind (Ty.component? i)
  | .element base col row => (base.ty? fs Γ).bind (Ty.element? col row)
  | .neg a => (a.ty? fs Γ).bind Ty.map?
  | .not a => (a.ty? fs Γ).bind fun τ => if τ = .bool then some .bool else none
  | .binary o a b => (a.ty? fs Γ).bind fun σ => (b.ty? fs Γ).bind fun τ => o.ty? σ τ
  | .call name args => (Term.tys? fs Γ args).bind fun types =>
    match Builtin.ofName? name with
    | some b => b.ty? types
    | none => (fs.lookup name).bind fun sig => if types = sig.params then some sig.ret else none
  | .construct ty args => (Term.tys? fs Γ args).bind ty.construct?

def Term.tys? (fs : Signatures) (Γ : Types) : List (Term L) → Option (List Ty)
  | [] => some []
  | t :: ts => (t.ty? fs Γ).bind fun τ => (Term.tys? fs Γ ts).map (τ :: ·)

end

def Env.Provides (globals env : Env K) (Γ : Types) : Prop :=
  ∀ name τ, Γ.lookup name = some τ → ∃ v, (env.get? name).or (globals.get? name) = some v ∧ v.Fits τ

/-- Functions of the module do what their signatures say, and hide no builtin. -/
structure Context.Serves [Scalar K] (ctx : Context L K) (fs : Signatures) : Prop where
  builtin (name : String) (b : Builtin) : Builtin.ofName? name = some b → ctx.call? name = none
  function (name : String) (sig : Signature) : fs.lookup name = some sig →
    ∃ f, ctx.call? name = some f ∧ ∀ args, List.Forall₂ Value.Fits args sig.params → ∃ v, f args = .ok v ∧ v.Fits sig.ret

section Terms

variable [Scalar K] {ctx : Context L K} {env : Env K} {fs : Signatures} {Γ : Types}

theorem Context.Serves.apply (h : ctx.Serves fs) {name : String} {args : List (Value K)} {types : List Ty} {τ : Ty}
    (hargs : List.Forall₂ Value.Fits args types)
    (hτ : (match Builtin.ofName? name with
      | some b => b.ty? types
      | none => (fs.lookup name).bind fun sig => if types = sig.params then some sig.ret else none) = some τ) :
    ∃ v, ctx.apply name args = .ok v ∧ v.Fits τ := by
  unfold Context.apply
  cases hb : Builtin.ofName? name with
  | some b =>
      rw [hb] at hτ
      rw [h.builtin name b hb]
      exact Builtin.eval_fits hargs hτ name
  | none =>
      rw [hb] at hτ
      obtain ⟨sig, hsig, hτ⟩ := Option.bind_eq_some_iff.1 hτ
      obtain ⟨f, hf, hcall⟩ := h.function name sig hsig
      rw [hf]
      split at hτ
      · next htypes =>
          obtain rfl := Option.some.inj hτ
          exact hcall args (htypes ▸ hargs)
      · cases hτ

mutual

/-- An expression with a type evaluates to a value of that type. -/
theorem Term.eval_fits (h : ctx.Serves fs) (henv : Env.Provides ctx.globals env Γ) : ∀ (t : Term L) (τ : Ty),
    t.ty? fs Γ = some τ → ∃ v, t.eval ctx env = .ok v ∧ v.Fits τ
  | .float x, τ, ht => by
      obtain rfl := Option.some.inj ht
      exact ⟨_, rfl, .float _⟩
  | .bool b, τ, ht => by
      obtain rfl := Option.some.inj ht
      exact ⟨_, rfl, .bool b⟩
  | .var name, τ, ht => by
      obtain ⟨v, hv, hfits⟩ := henv name τ ht
      exact ⟨v, by rw [Term.eval, hv], hfits⟩
  | .component base i, τ, ht => by
      obtain ⟨σ, hσ, ht⟩ := Option.bind_eq_some_iff.1 ht
      obtain ⟨v, hv, hfits⟩ := Term.eval_fits h henv base σ hσ
      obtain ⟨x, hx, rfl⟩ := hfits.component ht
      exact ⟨.float x, bind_eq_ok_of hv (bind_eq_ok_of hx rfl), .float x⟩
  | .element base col row, τ, ht => by
      obtain ⟨σ, hσ, ht⟩ := Option.bind_eq_some_iff.1 ht
      obtain ⟨v, hv, hfits⟩ := Term.eval_fits h henv base σ hσ
      obtain ⟨x, hx, rfl⟩ := hfits.element ht
      exact ⟨.float x, bind_eq_ok_of hv (bind_eq_ok_of hx rfl), .float x⟩
  | .neg a, τ, ht => by
      obtain ⟨σ, hσ, ht⟩ := Option.bind_eq_some_iff.1 ht
      obtain ⟨v, hv, hfits⟩ := Term.eval_fits h henv a σ hσ
      obtain ⟨w, hw, hfits⟩ := hfits.map ht "negation" (- ·)
      exact ⟨w, bind_eq_ok_of hv hw, hfits⟩
  | .not a, τ, ht => by
      obtain ⟨σ, hσ, ht⟩ := Option.bind_eq_some_iff.1 ht
      obtain ⟨v, hv, hfits⟩ := Term.eval_fits h henv a σ hσ
      split at ht
      · next hbool =>
          subst hbool
          obtain rfl := Option.some.inj ht
          cases hfits with
          | bool b => exact ⟨.bool !b, bind_eq_ok_of hv rfl, .bool _⟩
      · cases ht
  | .binary o a b, τ, ht => by
      obtain ⟨σ, hσ, ht⟩ := Option.bind_eq_some_iff.1 ht
      obtain ⟨υ, hυ, ht⟩ := Option.bind_eq_some_iff.1 ht
      obtain ⟨v, hv, hfits⟩ := Term.eval_fits h henv a σ hσ
      obtain ⟨w, hw, hfits'⟩ := Term.eval_fits h henv b υ hυ
      obtain ⟨z, hz, hfits⟩ := BinOp.eval_fits hfits hfits' ht
      exact ⟨z, (Term.eval_binary_of o hv hw).trans hz, hfits⟩
  | .call name args, τ, ht => by
      obtain ⟨types, htypes, ht⟩ := Option.bind_eq_some_iff.1 ht
      obtain ⟨vs, hvs, hfits⟩ := Term.evalAll_fits h henv args types htypes
      obtain ⟨v, hv, hfits⟩ := h.apply hfits ht
      exact ⟨v, bind_eq_ok_of hvs hv, hfits⟩
  | .construct ty args, τ, ht => by
      obtain ⟨types, htypes, ht⟩ := Option.bind_eq_some_iff.1 ht
      obtain ⟨vs, hvs, hfits⟩ := Term.evalAll_fits h henv args types htypes
      obtain ⟨v, hv, hfits⟩ := Value.construct_fits hfits ht
      exact ⟨v, bind_eq_ok_of hvs hv, hfits⟩

theorem Term.evalAll_fits (h : ctx.Serves fs) (henv : Env.Provides ctx.globals env Γ) :
    ∀ (ts : List (Term L)) (types : List Ty), Term.tys? fs Γ ts = some types →
      ∃ vs, Term.evalAll ctx env ts = .ok vs ∧ List.Forall₂ Value.Fits vs types
  | [], types, ht => by
      obtain rfl := Option.some.inj ht
      exact ⟨[], rfl, .nil⟩
  | t :: ts, types, ht => by
      obtain ⟨τ, hτ, ht⟩ := Option.bind_eq_some_iff.1 ht
      obtain ⟨rest, hrest, rfl⟩ := Option.map_eq_some_iff.1 ht
      obtain ⟨v, hv, hfits⟩ := Term.eval_fits h henv t τ hτ
      obtain ⟨vs, hvs, hall⟩ := Term.evalAll_fits h henv ts rest hrest
      exact ⟨v :: vs, bind_eq_ok_of hv (bind_eq_ok_of hvs rfl), .cons hfits hall⟩

end

end Terms

section Rules

variable {fs : Signatures} {Γ : Types}

theorem Term.ty?_binary {o : BinOp} {a b : Term L} {σ τ υ : Ty} (ha : a.ty? fs Γ = some σ) (hb : b.ty? fs Γ = some τ)
    (h : o.ty? σ τ = some υ) : (Term.binary o a b).ty? fs Γ = some υ :=
  Option.bind_eq_some_iff.2 ⟨σ, ha, Option.bind_eq_some_iff.2 ⟨τ, hb, h⟩⟩

theorem Term.tys?_of_forall₂ {ts : List (Term L)} {types : List Ty}
    (h : List.Forall₂ (fun t τ => t.ty? fs Γ = some τ) ts types) : Term.tys? fs Γ ts = some types := by
  induction h with
  | nil => rfl
  | cons ht _ ih => exact Option.bind_eq_some_iff.2 ⟨_, ht, Option.map_eq_some_iff.2 ⟨_, ih, rfl⟩⟩

theorem Term.ty?_call {name : String} {args : List (Term L)} {sig : Signature} (hname : Builtin.ofName? name = none)
    (hsig : fs.lookup name = some sig) (hargs : List.Forall₂ (fun t τ => t.ty? fs Γ = some τ) args sig.params) :
    (Term.call name args).ty? fs Γ = some sig.ret := by
  refine Option.bind_eq_some_iff.2 ⟨_, Term.tys?_of_forall₂ hargs, ?_⟩
  rw [hname, hsig]
  exact if_pos rfl

theorem Term.ty?_builtin {name : String} {args : List (Term L)} {b : Builtin} {types : List Ty} {τ : Ty}
    (hname : Builtin.ofName? name = some b) (hargs : List.Forall₂ (fun t τ => t.ty? fs Γ = some τ) args types)
    (h : b.ty? types = some τ) : (Term.call name args).ty? fs Γ = some τ := by
  refine Option.bind_eq_some_iff.2 ⟨_, Term.tys?_of_forall₂ hargs, ?_⟩
  rw [hname]
  exact h

theorem Term.ty?_component {t : Term L} {n i : Nat} (ht : t.ty? fs Γ = some (.vec n)) (hi : i < n) :
    (Term.component t i).ty? fs Γ = some .float :=
  Option.bind_eq_some_iff.2 ⟨_, ht, if_pos hi⟩

theorem Term.ty?_element {t : Term L} {n col row : Nat} (ht : t.ty? fs Γ = some (.mat n)) (hcol : col < n)
    (hrow : row < n) : (Term.element t col row).ty? fs Γ = some .float :=
  Option.bind_eq_some_iff.2 ⟨_, ht, if_pos ⟨hcol, hrow⟩⟩

theorem Term.ty?_construct {ty : Ty} {args : List (Term L)} {types : List Ty} {τ : Ty}
    (hargs : List.Forall₂ (fun t τ => t.ty? fs Γ = some τ) args types) (h : ty.construct? types = some τ) :
    (Term.construct ty args).ty? fs Γ = some τ :=
  Option.bind_eq_some_iff.2 ⟨_, Term.tys?_of_forall₂ hargs, h⟩

theorem Term.ty?_diagonal {n : Nat} (x : L) : (Term.construct (.mat n) [.float x]).ty? fs Γ = some (.mat n) :=
  Term.ty?_construct (.cons rfl .nil) (by simp [Ty.construct?])

end Rules

section Weakening

def Types.Extends (Γ Γ' : Types) : Prop := ∀ name τ, Γ.lookup name = some τ → Γ'.lookup name = some τ

variable {fs : Signatures} {Γ Γ' : Types}

mutual

theorem Term.ty?_extends (h : Types.Extends Γ Γ') : ∀ (t : Term L) (τ : Ty),
    t.ty? fs Γ = some τ → t.ty? fs Γ' = some τ
  | .float _, _, ht | .bool _, _, ht => ht
  | .var name, τ, ht => h name τ ht
  | .component base i, τ, ht => by
      obtain ⟨σ, hσ, ht⟩ := Option.bind_eq_some_iff.1 ht
      exact Option.bind_eq_some_iff.2 ⟨σ, Term.ty?_extends h base σ hσ, ht⟩
  | .element base col row, τ, ht => by
      obtain ⟨σ, hσ, ht⟩ := Option.bind_eq_some_iff.1 ht
      exact Option.bind_eq_some_iff.2 ⟨σ, Term.ty?_extends h base σ hσ, ht⟩
  | .neg a, τ, ht => by
      obtain ⟨σ, hσ, ht⟩ := Option.bind_eq_some_iff.1 ht
      exact Option.bind_eq_some_iff.2 ⟨σ, Term.ty?_extends h a σ hσ, ht⟩
  | .not a, τ, ht => by
      obtain ⟨σ, hσ, ht⟩ := Option.bind_eq_some_iff.1 ht
      exact Option.bind_eq_some_iff.2 ⟨σ, Term.ty?_extends h a σ hσ, ht⟩
  | .binary o a b, τ, ht => by
      obtain ⟨σ, hσ, ht⟩ := Option.bind_eq_some_iff.1 ht
      obtain ⟨υ, hυ, ht⟩ := Option.bind_eq_some_iff.1 ht
      exact Option.bind_eq_some_iff.2 ⟨σ, Term.ty?_extends h a σ hσ,
        Option.bind_eq_some_iff.2 ⟨υ, Term.ty?_extends h b υ hυ, ht⟩⟩
  | .call name args, τ, ht => by
      obtain ⟨types, htypes, ht⟩ := Option.bind_eq_some_iff.1 ht
      exact Option.bind_eq_some_iff.2 ⟨types, Term.tys?_extends h args types htypes, ht⟩
  | .construct ty args, τ, ht => by
      obtain ⟨types, htypes, ht⟩ := Option.bind_eq_some_iff.1 ht
      exact Option.bind_eq_some_iff.2 ⟨types, Term.tys?_extends h args types htypes, ht⟩

theorem Term.tys?_extends (h : Types.Extends Γ Γ') : ∀ (ts : List (Term L)) (types : List Ty),
    Term.tys? fs Γ ts = some types → Term.tys? fs Γ' ts = some types
  | [], _, ht => ht
  | t :: ts, types, ht => by
      obtain ⟨τ, hτ, ht⟩ := Option.bind_eq_some_iff.1 ht
      obtain ⟨rest, hrest, rfl⟩ := Option.map_eq_some_iff.1 ht
      exact Option.bind_eq_some_iff.2 ⟨τ, Term.ty?_extends h t τ hτ,
        Option.map_eq_some_iff.2 ⟨rest, Term.tys?_extends h ts rest hrest, rfl⟩⟩

end

end Weakening

end FlowShader.Shader
