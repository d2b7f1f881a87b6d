import Mathlib.LinearAlgebra.Matrix.Determinant.Basic

namespace FlowShader.Shader.Inverse

abbrev Rows (K : Type) (n : Nat) := Fin n → (Fin n → K) × (Fin n → K)

namespace Rows

variable {K : Type} [Field K] {n : Nat}

def start (M : Fin n → Fin n → K) : Rows K n := fun i => (M i, Pi.single i 1)

def scale (k : Fin n) (S : Rows K n) : Rows K n := Function.update S k (((S k).1 k)⁻¹ • S k)

def clear (k : Fin n) (S : Rows K n) : Rows K n := fun i => if i = k then S k else S i - (S i).1 k • S k

/-- Every row on the left is what the row on the right makes of the rows of `M`, and the first `k` columns
on the left are those of the identity. -/
structure Reduced (M : Fin n → Fin n → K) (k : Nat) (S : Rows K n) : Prop where
  combines (i : Fin n) : Matrix.vecMul (S i).2 (Matrix.of M) = (S i).1
  unit (i j : Fin n) : j.val < k → (S i).1 j = if i = j then 1 else 0

variable {M : Fin n → Fin n → K} {S : Rows K n} {k : Fin n}

theorem reduced_start (M : Fin n → Fin n → K) : Reduced M 0 (start M) where
  combines i := Matrix.single_one_vecMul i (Matrix.of M)
  unit _ _ hj := absurd hj (Nat.not_lt_zero _)

theorem Reduced.zero_of_lt (h : Reduced M k.val S) {i j : Fin n} (hi : k ≤ i) (hj : j < k) : (S i).1 j = 0 := by
  rw [h.unit i j hj, if_neg (ne_of_gt (lt_of_lt_of_le hj hi))]

theorem Reduced.scale (h : Reduced M k.val S) : Reduced M k.val (scale k S) := by
  refine ⟨fun i => ?_, fun i j hj => ?_⟩
  · by_cases hi : i = k
    · rw [Rows.scale, hi, Function.update_self, Prod.smul_snd, Prod.smul_fst, Matrix.smul_vecMul, h.combines]
    · rw [Rows.scale, Function.update_of_ne hi, h.combines]
  · by_cases hi : i = k
    · rw [Rows.scale, hi, Function.update_self, Prod.smul_fst, Pi.smul_apply, h.zero_of_lt le_rfl hj, smul_zero,
        if_neg (Fin.ne_of_gt hj)]
    · rw [Rows.scale, Function.update_of_ne hi, h.unit i j hj]

theorem scale_diagonal (hp : (S k).1 k ≠ 0) : (scale k S k).1 k = 1 := by
  rw [scale, Function.update_self, Prod.smul_fst, Pi.smul_apply, smul_eq_mul, inv_mul_cancel₀ hp]

theorem Reduced.clear (h : Reduced M k.val S) (hone : (S k).1 k = 1) : Reduced M (k.val + 1) (clear k S) := by
  refine ⟨fun i => ?_, fun i j hj => ?_⟩
  · by_cases hi : i = k
    · rw [Rows.clear, if_pos hi, h.combines]
    · rw [Rows.clear, if_neg hi, Prod.snd_sub, Prod.smul_snd, Matrix.sub_vecMul, Matrix.smul_vecMul, h.combines,
        h.combines, Prod.fst_sub, Prod.smul_fst]
  · have hzero (hj : j < k) : (S k).1 j = 0 := h.zero_of_lt le_rfl hj
    by_cases hi : i = k
    · rw [Rows.clear, if_pos hi, hi]
      rcases Nat.lt_succ_iff_lt_or_eq.1 hj with hj | hj
      · rw [hzero hj, if_neg (Fin.ne_of_gt hj)]
      · rw [Fin.ext hj, hone, if_pos rfl]
    · rw [Rows.clear, if_neg hi, Prod.fst_sub, Prod.smul_fst, Pi.sub_apply, Pi.smul_apply, smul_eq_mul]
      rcases Nat.lt_succ_iff_lt_or_eq.1 hj with hj | hj
      · rw [hzero hj, mul_zero, sub_zero, h.unit i j hj]
      · rw [Fin.ext hj, hone, mul_one, sub_self, if_neg hi]

theorem Reduced.mul_eq_one (h : Reduced M n S) : Matrix.of (fun i => (S i).2) * Matrix.of M = 1 := by
  funext i j
  have hrow : (Matrix.of (fun i => (S i).2) * Matrix.of M) i = (S i).1 := h.combines i
  rw [hrow, h.unit i j j.isLt, Matrix.one_apply]

section Pivots

variable [LinearOrder K]

/-- Exchanges rows `k` and `r` if the entry of `r` in column `k` is larger in size. -/
def exchange (k : Fin n) (S : Rows K n) (r : Fin n) : Rows K n :=
  if |(S k).1 k| < |(S r).1 k| then S ∘ Equiv.swap k r else S

def pivot (k : Fin n) (S : Rows K n) : Rows K n :=
  ((List.finRange n).filter (k < ·)).foldl (exchange k) S

def step (k : Fin n) (S : Rows K n) : Rows K n := clear k (scale k (pivot k S))

def Pivots (ε : K) : List (Fin n) → Rows K n → Prop
  | [], _ => True
  | k :: ks, S => ε ≤ |(pivot k S k).1 k| ∧ Pivots ε ks (step k S)

theorem Reduced.exchange (h : Reduced M k.val S) {r : Fin n} (hr : k < r) : Reduced M k.val (exchange k S r) := by
  rw [Rows.exchange]
  split
  · refine ⟨fun i => h.combines _, fun i j hj => ?_⟩
    have hswap : Equiv.swap k r i = j ↔ i = j := by
      rw [Equiv.swap_apply_eq_iff, Equiv.swap_apply_of_ne_of_ne (Fin.ne_of_lt hj) (Fin.ne_of_lt (lt_trans hj hr))]
    rw [Function.comp_apply, h.unit _ j hj]
    simp only [hswap]
  · exact h

theorem Reduced.pivot (h : Reduced M k.val S) : Reduced M k.val (pivot k S) := by
  have hbelow : ∀ r ∈ (List.finRange n).filter (k < ·), k < r := fun r hr => of_decide_eq_true (List.mem_filter.1 hr).2
  rw [Rows.pivot]
  generalize (List.finRange n).filter (k < ·) = rs at hbelow ⊢
  induction rs generalizing S with
  | nil => exact h
  | cons r rs ih =>
      obtain ⟨hr, hbelow⟩ := List.forall_mem_cons.1 hbelow
      exact ih (h.exchange hr) hbelow

theorem Reduced.step (h : Reduced M k.val S) (hp : (Rows.pivot k S k).1 k ≠ 0) : Reduced M (k.val + 1) (step k S) :=
  h.pivot.scale.clear (scale_diagonal hp)

end Pivots

end Rows

/-- Nothing is clamped in the inversion of `M`: neither the determinant, in two dimensions, nor a pivot of the
elimination, in more. -/
def Unclamped {K : Type} [Field K] [LinearOrder K] {n : Nat} (ε : K) (M : Fin n → Fin n → K) : Prop :=
  if n = 2 then ε ≤ |(Matrix.of M).det| else Rows.Pivots ε (List.finRange n) (Rows.start M)

end FlowShader.Shader.Inverse
