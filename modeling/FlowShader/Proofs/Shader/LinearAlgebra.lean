import FlowShader.Proofs.Scalar.Real
import FlowShader.Proofs.Shader.Environment

namespace FlowShader

theorem Scalar.sum_eq {K : Type} [RingScalar K] (xs : List K) : Scalar.sum xs = xs.sum := by
  have hfoldl (y : K) : xs.foldl (· + ·) y = y + xs.sum := by
    induction xs generalizing y with
    | nil => simp
    | cons x xs ih => rw [List.foldl_cons, ih, List.sum_cons, add_assoc]
  rw [Scalar.sum, hfoldl, neg_zero, zero_add]

namespace Shader.Value

variable {n : Nat}

section Lists

variable {α β γ : Type}

theorem zipWith_ofFn (f : Fin n → α) (g : Fin n → β) (op : α → β → γ) :
    (List.ofFn f).zipWith op (List.ofFn g) = List.ofFn fun i => op (f i) (g i) := by
  apply List.ext_getElem
  · simp
  · intro i _ _
    simp

theorem map_range_eq_ofFn (f : Nat → α) : (List.range n).map f = List.ofFn fun i : Fin n => f i := by
  rw [List.ofFn_eq_map, ← List.map_coe_finRange_eq_range, List.map_map]
  rfl

/-- The entries of a matrix column by column. -/
def columns (a : Fin n → Fin n → α) : List α := List.ofFn fun i : Fin (n * n) => a i.modNat i.divNat

theorem columns_eq_flatten (a : Fin n → Fin n → α) :
    columns a = (List.ofFn fun c => List.ofFn fun r => a r c).flatten := by
  have hentry (c r : Fin n) (i : Fin (n * n)) (hi : i.val = c * n + r) : a i.modNat i.divNat = a r c := by
    obtain rfl : i = Fin.mkDivMod c r := Fin.ext (by rw [hi, Fin.coe_mkDivMod, Nat.mul_comm])
    rw [Fin.modNat_mkDivMod, Fin.divNat_mkDivMod]
  rw [columns, List.ofFn_mul]
  exact congrArg List.flatten (congrArg List.ofFn (funext fun c =>
    congrArg List.ofFn (funext fun r => hentry c r _ rfl)))

theorem getElem?_columns (a : Fin n → Fin n → α) (c r : Fin n) : (columns a)[c.val * n + r.val]? = some (a r c) := by
  have hindex : c.val * n + r.val = (Fin.mkDivMod c r).val := by rw [Fin.coe_mkDivMod, Nat.mul_comm]
  rw [hindex, columns, List.getElem?_ofFn, dif_pos (Fin.mkDivMod c r).isLt, Fin.eta, Fin.modNat_mkDivMod,
    Fin.divNat_mkDivMod]

theorem ofFn_set {m : Nat} (f : Fin m → α) (i : Fin m) (x : α) :
    (List.ofFn f).set i x = List.ofFn (Function.update f i x) := by
  apply List.ext_getElem
  · simp
  · intro j _ _
    simp [List.getElem_set, Function.update_apply, Fin.ext_iff, eq_comm]

theorem set_columns (a : Fin n → Fin n → α) (c r : Fin n) (x : α) :
    (columns a).set (c.val * n + r.val) x = columns (Function.update a r (Function.update (a r) c x)) := by
  have hindex : c.val * n + r.val = (Fin.mkDivMod c r).val := by rw [Fin.coe_mkDivMod, Nat.mul_comm]
  have hinj (i : Fin (n * n)) : i = Fin.mkDivMod c r ↔ i.modNat = r ∧ i.divNat = c := by
    refine ⟨fun hi => ?_, fun ⟨hr, hc⟩ => ?_⟩
    · rw [hi, Fin.modNat_mkDivMod, Fin.divNat_mkDivMod]
      exact ⟨rfl, rfl⟩
    · rw [← Fin.divNat_mkDivMod_modNat i, hr, hc]
  rw [hindex, columns, ofFn_set]
  refine congrArg List.ofFn (funext fun i => ?_)
  by_cases hr : i.modNat = r
  · by_cases hc : i.divNat = c <;> simp [Function.update_apply, hinj, hr, hc]
  · simp [hinj, hr]

theorem exists_columns_eq {xs : List α} (h : xs.length = n * n) : ∃ a : Fin n → Fin n → α, columns a = xs := by
  refine ⟨fun r c => xs.get ((Fin.mkDivMod c r).cast h.symm), ?_⟩
  rw [columns]
  simp only [Fin.divNat_mkDivMod_modNat]
  apply List.ext_getElem
  · simp [h]
  · intro i _ _
    simp

theorem columns_injective : Function.Injective (columns (n := n) (α := α)) := by
  intro a b h
  funext r c
  have hentry := getElem?_columns a c r
  rw [h, getElem?_columns b c r] at hentry
  exact (Option.some.inj hentry).symm

/-- Matrices are stored column by column. -/
def ofMatrix (a : Fin n → Fin n → α) : Value α := .mat n (columns a)

theorem ofMatrix_injective : Function.Injective (ofMatrix (n := n) (α := α)) :=
  fun _ _ h => columns_injective (Value.mat.inj h).2

theorem element_ofMatrix (a : Fin n → Fin n → α) (c r : Fin n) : (ofMatrix a).element c r = .ok (a r c) := by
  simp only [ofMatrix, element, c.isLt, r.isLt, decide_true, Bool.and_self, if_true, getElem?_columns]

theorem zip_vec (construct : String) (op : α → α → α) (u v : Fin n → α) :
    zip construct op (.vec (List.ofFn u)) (.vec (List.ofFn v)) = .ok (.vec (List.ofFn fun i => op (u i) (v i))) := by
  simp only [zip, List.length_ofFn, if_true, zipWith_ofFn]

theorem zip_ofMatrix (construct : String) (op : α → α → α) (a b : Fin n → Fin n → α) :
    zip construct op (ofMatrix a) (ofMatrix b) = .ok (ofMatrix fun r c => op (a r c) (b r c)) := by
  simp only [ofMatrix, columns, zip, if_true, zipWith_ofFn]

theorem map_ofMatrix (construct : String) (f : α → α) (a : Fin n → Fin n → α) :
    map construct f (ofMatrix a) = .ok (ofMatrix fun r c => f (a r c)) := by
  simp only [ofMatrix, columns, map, List.map_ofFn, Function.comp_def]

end Lists

section Construction

variable {K : Type}

theorem flatten_floats (ty : Ty) (xs : List K) : flatten ty (xs.map .float) = .ok xs := by
  induction xs with
  | nil => rfl
  | cons x xs ih =>
      rw [List.map_cons, flatten, ih]
      rfl

variable [Scalar K]

theorem construct_vec (hn : 1 < n) {xs : List K} (hxs : xs.length = n) :
    construct (.vec n) (xs.map .float) = .ok (.vec xs) := by
  rw [construct, flatten_floats]
  match xs with
  | [] | [x] =>
      rw [← hxs] at hn
      simp at hn
  | x :: y :: xs =>
      dsimp only
      rw [if_pos hxs.ge, ← hxs, List.take_length]

theorem construct_mat (hn : 1 < n) (a : Fin n → Fin n → K) :
    construct (.mat n) ((columns a).map .float) = .ok (ofMatrix a) := by
  have hlength : (columns a).length = n * n := List.length_ofFn
  have hlt : 1 < n * n := Nat.lt_of_lt_of_le hn (Nat.le_mul_self n)
  rw [construct, flatten_floats, ofMatrix]
  generalize columns a = xs at hlength
  match xs with
  | [] | [x] =>
      rw [← hlength] at hlt
      simp at hlt
  | x :: y :: xs =>
      dsimp only
      rw [if_pos hlength]

theorem entry_columns (a : Fin n → Fin n → K) (c r : Fin n) : entry n (columns a) c r = a r c := by
  rw [entry, List.getD_eq_getElem?_getD, getElem?_columns, Option.getD_some]

/-- The product of a matrix and a vector, with sums from left to right. -/
def mulVec (a : Fin n → Fin n → K) (v : Fin n → K) : Fin n → K := fun r => Scalar.sum (List.ofFn fun c => a r c * v c)

theorem mul_ofMatrix_vec (a : Fin n → Fin n → K) (v : Fin n → K) :
    (ofMatrix a).mul (.vec (List.ofFn v)) = .ok (.vec (List.ofFn (mulVec a v))) := by
  have hentry (c : Fin n) : (List.ofFn v).getD c 0 = v c := by simp
  simp only [ofMatrix, mul, List.length_ofFn, if_true, map_range_eq_ofFn, entry_columns, hentry]
  rfl

end Construction

variable {K : Type} [RingScalar K]

theorem mulVec_eq (a : Fin n → Fin n → K) (v : Fin n → K) : mulVec a v = (Matrix.of a).mulVec v := by
  funext r
  rw [mulVec, Scalar.sum_eq, List.sum_ofFn]
  rfl

theorem mul_vec (a : Fin n → Fin n → K) (v : Fin n → K) :
    (ofMatrix a).mul (.vec (List.ofFn v)) = .ok (.vec (List.ofFn ((Matrix.of a).mulVec v))) := by
  rw [mul_ofMatrix_vec, mulVec_eq]

theorem mul_float_vec (x : K) (v : Fin n → K) :
    mul (.float x) (.vec (List.ofFn v)) = .ok (.vec (List.ofFn (x • v))) := by
  simp only [mul, zip, map, List.map_ofFn]
  rfl

theorem mul_float_ofMatrix (x : K) (a : Fin n → Fin n → K) :
    mul (.float x) (ofMatrix a) = .ok (ofMatrix fun r c => x * a r c) :=
  map_ofMatrix "*" (x * ·) a

theorem diagonal_eq (n : Nat) (x : K) : diagonal n x = ofMatrix fun r : Fin n => Pi.single r x := by
  rw [ofMatrix, columns_eq_flatten]
  simp only [diagonal, List.flatMap_def, map_range_eq_ofFn, Pi.single_apply, Fin.ext_iff]

end Shader.Value

section Terms

open Shader (Term Context Env Value)

variable {L K : Type} [RingScalar K] {ctx : Context L K} {env : Env K} {n : Nat} {s t : Term L} {u v : Fin n → K}

theorem Shader.Term.eval_add_vec (hs : s.eval ctx env = .ok (.vec (List.ofFn u)))
    (ht : t.eval ctx env = .ok (.vec (List.ofFn v))) : (s + t).eval ctx env = .ok (.vec (List.ofFn (u + v))) :=
  (Term.eval_binary_of .add hs ht).trans (Value.zip_vec _ _ u v)

theorem Shader.Term.eval_sub_vec (hs : s.eval ctx env = .ok (.vec (List.ofFn u)))
    (ht : t.eval ctx env = .ok (.vec (List.ofFn v))) : (s - t).eval ctx env = .ok (.vec (List.ofFn (u - v))) :=
  (Term.eval_binary_of .sub hs ht).trans (Value.zip_vec _ _ u v)

theorem Shader.Term.eval_smul_vec {x : K} (hs : s.eval ctx env = .ok (.float x))
    (ht : t.eval ctx env = .ok (.vec (List.ofFn v))) : (s * t).eval ctx env = .ok (.vec (List.ofFn (x • v))) :=
  (Term.eval_binary_of .mul hs ht).trans (Value.mul_float_vec x v)

theorem Shader.Term.eval_mulVec {a : Fin n → Fin n → K} (hs : s.eval ctx env = .ok (Value.ofMatrix a))
    (ht : t.eval ctx env = .ok (.vec (List.ofFn v))) :
    (s * t).eval ctx env = .ok (.vec (List.ofFn ((Matrix.of a).mulVec v))) :=
  (Term.eval_binary_of .mul hs ht).trans (Value.mul_vec a v)

theorem Shader.Term.eval_identity [Literal L] (hone : ctx.literal 1 = 1) (n : Nat) :
    (Term.construct (.mat n) [.float 1] : Term L).eval ctx env =
      .ok (Value.ofMatrix fun r : Fin n => Pi.single r 1) := by
  simp only [Term.eval, Term.evalAll, hone]
  exact congrArg Except.ok (Value.diagonal_eq n 1)

end Terms

end FlowShader
