import Mathlib.LinearAlgebra.Matrix.Adjugate
import FlowShader.Proofs.Lowering.Meaning
import FlowShader.Proofs.Shader.Elimination
import FlowShader.Proofs.Shader.Execution
import FlowShader.Proofs.Shader.Inverse
import FlowShader.Proofs.Shader.LinearAlgebra

namespace FlowShader.Shader.Inverse

open Value (ofMatrix)
open Stmt (Takes)
open Rows (Reduced)

section Matrices

variable {L K : Type} [Scalar K] {ctx : Context L K} {env : Env K} {n : Nat}

section Cells

variable {matrix : String} {a : Fin n → Fin n → K} {t : Term L} {x : K}

theorem eval_cell (h : env.get? matrix = some (ofMatrix a)) (c r : Fin n) :
    (cell matrix c r : Term L).eval ctx env = .ok (.float (a r c)) := by
  rw [cell, Term.eval]
  exact bind_eq_ok_of (Term.eval_var h) (bind_eq_ok_of (Value.element_ofMatrix a c r) rfl)

theorem exec_setCell (h : env.get? matrix = some (ofMatrix a)) (c r : Fin n) (ht : t.eval ctx env = .ok (.float x)) :
    (setCell matrix c r t).exec ctx env =
      .ok (env.set matrix (ofMatrix (Function.update a r (Function.update (a r) c x))), .next) := by
  have hwrite : Place.write (.element matrix c r) (.float x) env =
      .ok (env.set matrix (ofMatrix (Function.update a r (Function.update (a r) c x)))) := by
    rw [Place.write, Place.name, h]
    simp only [ofMatrix, c.isLt, r.isLt, decide_true, Bool.and_self, if_true, ← Value.set_columns]
    rfl
  rw [setCell, Stmt.exec]
  exact bind_eq_ok_of ht (bind_eq_ok_of hwrite rfl)

end Cells

section Columns

def onColumns (g : (Fin n → K) → Fin n → K) (cs : List (Fin n)) (a : Fin n → Fin n → K) : Fin n → Fin n → K :=
  fun r c => if c ∈ cs then g (fun i => a i c) r else a r c

variable {matrix : String} {a : Fin n → Fin n → K} {g : (Fin n → K) → Fin n → K} {env₀ : Env K}

/-- A variable holds the matrix `a`. Beside it only `s` may have changed. -/
structure Became (matrix : String) (a : Fin n → Fin n → K) (env₀ env : Env K) : Prop where
  value : env.get? matrix = some (ofMatrix a)
  spare : ∃ x, env.get? "s" = some x
  same (v : String) : v ≠ matrix → v ≠ "s" → env.get? v = env₀.get? v

omit [Scalar K] in
theorem Became.set (h : Became matrix a env₀ env) (hs : matrix ≠ "s") (b : Fin n → Fin n → K) :
    Became matrix b env₀ (env.set matrix (ofMatrix b)) where
  value := Env.get?_set_self _ _ _
  spare := by
    rw [Env.get?_set_ne _ hs]
    exact h.spare
  same v hv hv' := by rw [Env.get?_set_ne _ (Ne.symm hv), h.same v hv hv']

omit [Scalar K] in
theorem Became.setSpare (h : Became matrix a env₀ env) (hs : matrix ≠ "s") (x : K) :
    Became matrix a env₀ (env.set "s" (.float x)) where
  value := by rw [Env.get?_set_ne _ (Ne.symm hs), h.value]
  spare := ⟨_, Env.get?_set_self _ _ _⟩
  same v hv hv' := by rw [Env.get?_set_ne _ (Ne.symm hv'), h.same v hv hv']

theorem not_mem_done {ι : Type} {is done rest : List ι} {i : ι} (hnodup : is.Nodup) (h : is = done ++ i :: rest) :
    i ∉ done := by
  rw [h, List.nodup_middle, List.nodup_cons, List.mem_append, not_or] at hnodup
  exact hnodup.1.1

theorem takes_columns {code : Nat → List (Stmt L)} {cs : List (Fin n)} (hnodup : cs.Nodup)
    (hcode : ∀ b (c : Fin n), Takes ctx (Became matrix b env₀) (code c) (Became matrix (onColumns g [c] b) env₀)) :
    Takes ctx (Became matrix a env₀) ((cs.map Fin.val).flatMap code) (Became matrix (onColumns g cs a) env₀) := by
  have hnil : onColumns g [] a = a := by
    funext r c
    simp [onColumns]
  rw [List.flatMap_map, ← hnil]
  -- A column is changed from its own entries, which the columns before it have left alone.
  refine Takes.flatMap (I := fun done => Became matrix (onColumns g done a) env₀) cs fun done c rest hcs => ?_
  have hc : c ∉ done := not_mem_done hnodup hcs
  have hstep : onColumns g [c] (onColumns g done a) = onColumns g (done ++ [c]) a := by
    funext r j
    by_cases hj : j = c
    · simp [onColumns, hj, hc]
    · simp [onColumns, hj]
  rw [← hstep]
  exact hcode _ c

theorem takes_setCell (hs : matrix ≠ "s") {r c : Fin n} {t : Term L} {y : (Fin n → K) → K} {b : Fin n → Fin n → K}
    (ht : ∀ env, Became matrix b env₀ env → t.eval ctx env = .ok (.float (y fun i => b i c))) :
    Takes ctx (Became matrix b env₀) [setCell matrix c r t]
      (Became matrix (onColumns (fun v => Function.update v r (y v)) [c] b) env₀) := by
  have heq : Function.update b r (Function.update (b r) c (y fun i => b i c)) =
      onColumns (fun v => Function.update v r (y v)) [c] b := by
    funext i j
    by_cases hi : i = r
    · subst hi
      by_cases hj : j = c
      · subst hj
        simp [onColumns]
      · simp [onColumns, hj]
    · by_cases hj : j = c
      · subst hj
        simp [onColumns, hi]
      · simp [onColumns, hi, hj]
  refine .single fun env h => ⟨_, exec_setCell h.value c r (ht env h), ?_⟩
  rw [heq]
  exact h.set hs _

theorem takes_swap (hs : matrix ≠ "s") {r₁ r₂ : Fin n} (b : Fin n → Fin n → K) (c : Fin n) :
    Takes (L := L) ctx (Became matrix b env₀)
      [setVar "s" (cell matrix c r₁), setCell matrix c r₁ (cell matrix c r₂), setCell matrix c r₂ (.var "s")]
      (Became matrix (onColumns (· ∘ Equiv.swap r₁ r₂) [c] b) env₀) := by
  let spare (env : Env K) : Prop := env.get? "s" = some (.float (b r₁ c))
  let b₁ := Function.update b r₁ (Function.update (b r₁) c (b r₂ c))
  let b₂ := Function.update b₁ r₂ (Function.update (b₁ r₂) c (b r₁ c))
  have heq : b₂ = onColumns (· ∘ Equiv.swap r₁ r₂) [c] b := by
    funext i j
    simp only [b₂, b₁, onColumns, Function.update_apply, List.mem_singleton, Function.comp_apply, Equiv.swap_apply_def]
    grind
  have hsave : Takes (L := L) ctx (Became matrix b env₀) [setVar "s" (cell matrix c r₁)]
      fun env => Became matrix b env₀ env ∧ spare env := by
    refine .assign fun env h => ?_
    obtain ⟨x, hx⟩ := h.spare
    exact ⟨x, _, hx, eval_cell h.value c r₁, h.setSpare hs _, Env.get?_set_self _ _ _⟩
  have hfirst : Takes (L := L) ctx (fun env => Became matrix b env₀ env ∧ spare env)
      [setCell matrix c r₁ (cell matrix c r₂)] fun env => Became matrix b₁ env₀ env ∧ spare env := by
    refine .single fun env ⟨h, hspare⟩ => ⟨_, exec_setCell h.value c r₁ (eval_cell h.value c r₂), h.set hs _, ?_⟩
    exact (Env.get?_set_ne _ hs _).trans hspare
  have hsecond : Takes (L := L) ctx (fun env => Became matrix b₁ env₀ env ∧ spare env)
      [setCell matrix c r₂ (.var "s")] (Became matrix b₂ env₀) :=
    .single fun env ⟨h, hspare⟩ => ⟨_, exec_setCell h.value c r₂ (Term.eval_var hspare), h.set hs _⟩
  rw [← heq]
  exact hsave.cons (hfirst.cons hsecond)

end Columns

end Matrices

variable {L K : Type} [FieldScalar K] {ctx : Context L K} {env : Env K} {n : Nat} {ε : K}

section Clamping

variable [LinearOrder K] [OrderedScalar K] (habs : ctx.call? "abs" = none)
include habs

theorem eval_abs {t : Term L} {x : K} (ht : t.eval ctx env = .ok (.float x)) :
    (abs t).eval ctx env = .ok (.float |x|) := by
  rw [abs, Term.eval_call ht, Context.apply, habs, ← OrderedScalar.abs_eq]
  rfl

/-- A number is moved to where it is large enough. Where it is so already, it is left alone. -/
theorem takes_clampPivot [IsStrictOrderedRing K] [Literal L] (hε : ctx.globals.get? epsilonName = some (.float ε))
    (hpos : 0 < ε) {name : String} {x : K} {P : Env K → Prop} {Q : K → Env K → Prop}
    (hP : ∀ env, P env → env.get? name = some (.float x) ∧ env.get? epsilonName = none ∧
      ∀ y, Q y (env.set name (.float y))) :
    Takes (L := L) ctx P [clampPivot name] fun env => ∃ y, ε ≤ |y| ∧ (ε ≤ |x| → y = x) ∧ Q y env := by
  have hname {env : Env K} (h : P env) : (Term.var name : Term L).eval ctx env = .ok (.float x) :=
    Term.eval_var (hP env h).1
  have heps {env : Env K} (h : P env) : (Term.var epsilonName : Term L).eval ctx env = .ok (.float ε) := by
    rw [Term.eval, (hP env h).2.1, Option.none_or, hε]
  refine .branch (Scalar.lt |x| ε) (fun env h => Term.eval_binary_of .lt (eval_abs habs (hname h)) (heps h)) ?_
  by_cases hlt : |x| < ε
  · have hmoved (y : K) (hy : |y| = ε) : ε ≤ |y| ∧ (ε ≤ |x| → y = x) :=
      ⟨hy.ge, fun hx => absurd hlt (not_lt_of_ge hx)⟩
    rw [if_pos ((OrderedScalar.lt_iff _ _).2 hlt)]
    refine .branch (Scalar.lt x (ctx.literal 0)) (fun env h => ?_) ?_
    · exact Term.eval_binary_of .lt (b := .float 0) (hname h) rfl
    · cases Scalar.lt x (ctx.literal 0) with
      | true =>
          refine .assign fun env h => ⟨_, .float (-ε), (hP env h).1, bind_eq_ok_of (heps h) rfl, -ε, ?_⟩
          obtain ⟨hlarge, hsame⟩ := hmoved (-ε) (by rw [abs_neg, abs_of_pos hpos])
          exact ⟨hlarge, hsame, (hP env h).2.2 _⟩
      | false =>
          refine .assign fun env h => ⟨_, .float ε, (hP env h).1, heps h, ε, ?_⟩
          obtain ⟨hlarge, hsame⟩ := hmoved ε (abs_of_pos hpos)
          exact ⟨hlarge, hsame, (hP env h).2.2 _⟩
  · rw [if_neg (mt (OrderedScalar.lt_iff _ _).1 hlt)]
    refine fun env h => ⟨env, rfl, x, le_of_not_gt hlt, fun _ => rfl, ?_⟩
    rw [← Env.set_eq_self (hP env h).1]
    exact (hP env h).2.2 x

end Clamping

section Rows

variable {S : Rows K n} {M : Fin n → Fin n → K} {k : Fin n} {x : String → K}

/-- The variables of the elimination; `p` and `f` hold the numbers that `x` gives. -/
structure Working (S : Rows K n) (x : String → K) (env : Env K) : Prop where
  left : env.get? "a" = some (ofMatrix fun i => (S i).1)
  right : env.get? "inv" = some (ofMatrix fun i => (S i).2)
  spare : ∃ v, env.get? "s" = some v
  number : ∀ v ∈ ["p", "f"], env.get? v = some (.float (x v))
  epsilon : env.get? epsilonName = none

omit [FieldScalar K] in
theorem Working.set (h : Working S x env) {v : String} (hv : v ∈ ["p", "f"]) (y : K) :
    Working S (Function.update x v y) (env.set v (.float y)) := by
  have hne : ∀ w ∈ ["a", "inv", "s", epsilonName], v ≠ w := by
    rintro w hw rfl
    exact absurd hw ((by decide : ∀ v ∈ ["p", "f"], v ∉ ["a", "inv", "s", epsilonName]) v hv)
  refine ⟨?_, ?_, ?_, fun w hw => ?_, ?_⟩
  · rw [Env.get?_set_ne _ (hne _ (by decide)), h.left]
  · rw [Env.get?_set_ne _ (hne _ (by decide)), h.right]
  · rw [Env.get?_set_ne _ (hne _ (by decide))]
    exact h.spare
  · by_cases hvw : v = w
    · rw [hvw, Env.get?_set_self, Function.update_self]
    · rw [Env.get?_set_ne _ hvw, Function.update_of_ne (Ne.symm hvw), h.number w hw]
  · rw [Env.get?_set_ne _ (hne _ (by decide)), h.epsilon]

/-- An operation applied to the columns of both matrices, on the left from column `k` on only. -/
def act (k : Fin n) (g : (Fin n → K) → Fin n → K) (S : Rows K n) : Rows K n :=
  fun i => (fun c => if k ≤ c then g (fun r => (S r).1 c) i else (S i).1 c, fun c => g (fun r => (S r).2 c) i)

theorem span_eq (lo n : Nat) : span lo n = ((List.finRange n).filter fun i => lo ≤ i.val).map Fin.val := by
  have hfilter : span lo n = (List.range n).filter (lo ≤ ·) := by
    rw [span]
    induction n with
    | zero => simp
    | succ n ih =>
        rw [List.range_succ, List.filter_append, ← ih, List.filter_singleton]
        by_cases hlo : lo ≤ n
        · rw [Nat.succ_sub hlo, List.range'_concat, decide_eq_true hlo, Nat.one_mul, Nat.add_sub_cancel' hlo]
          rfl
        · rw [decide_eq_false hlo, Nat.sub_eq_zero_of_le (by omega), Nat.sub_eq_zero_of_le (by omega)]
          rfl
  rw [hfilter, ← List.map_coe_finRange_eq_range, List.filter_map]
  rfl

theorem takes_act (code : String → Nat → List (Stmt L)) (k : Fin n) {g : (Fin n → K) → Fin n → K}
    (hcode : ∀ matrix ∈ ["a", "inv"], ∀ env₀ : Env K, (∀ v ∈ ["p", "f"], env₀.get? v = some (.float (x v))) →
      ∀ b (c : Fin n), Takes ctx (Became matrix b env₀) (code matrix c) (Became matrix (onColumns g [c] b) env₀)) :
    Takes ctx (Working S x) ((span k n).flatMap (code "a") ++ (span 0 n).flatMap (code "inv"))
      (Working (act k g S) x) := by
  intro env h
  have hnodup (lo : Nat) : ((List.finRange n).filter fun i => lo ≤ i.val).Nodup := (List.nodup_finRange n).filter _
  have hother : ∀ v ∈ ["p", "f"], ∀ w ∈ ["a", "inv", "s"], v ≠ w := by decide
  obtain ⟨env₁, hexec₁, h₁⟩ := takes_columns (a := fun i => (S i).1) (hnodup k)
    (hcode "a" (by decide) env h.number) env ⟨h.left, h.spare, fun _ _ _ => rfl⟩
  have hnumber : ∀ v ∈ ["p", "f"], env₁.get? v = some (.float (x v)) := fun v hv => by
    rw [h₁.same v (hother v hv _ (by decide)) (hother v hv _ (by decide)), h.number v hv]
  have hright := (h₁.same "inv" (by decide) (by decide)).trans h.right
  obtain ⟨env₂, hexec₂, h₂⟩ := takes_columns (a := fun i => (S i).2) (hnodup 0)
    (hcode "inv" (by decide) env₁ hnumber) env₁ ⟨hright, h₁.spare, fun _ _ _ => rfl⟩
  rw [← span_eq] at hexec₁ hexec₂
  refine ⟨env₂, (Stmt.execAll_append hexec₁).trans hexec₂, ?_⟩
  have hleft : onColumns g ((List.finRange n).filter fun i => k.val ≤ i.val) (fun i => (S i).1) =
      fun i => (act k g S i).1 := by
    funext r c
    simp [onColumns, act]
  have hall : onColumns g ((List.finRange n).filter fun i => 0 ≤ i.val) (fun i => (S i).2) =
      fun i => (act k g S i).2 := by
    funext r c
    simp [onColumns, act]
  refine ⟨?_, ?_, h₂.spare, fun v hv => ?_, ?_⟩
  · rw [h₂.same _ (by decide) (by decide), h₁.value, hleft]
  · rw [h₂.value, hall]
  · rw [h₂.same v (hother v hv _ (by decide)) (hother v hv _ (by decide)), hnumber v hv]
  · rw [h₂.same _ (by decide) (by decide), h₁.same _ (by decide) (by decide), h.epsilon]

theorem takes_onBoth {r : Fin n} {value : String → Nat → Term L} {y : (Fin n → K) → K}
    (hvalue : ∀ matrix env b (c : Fin n), env.get? matrix = some (ofMatrix b) →
      (∀ v ∈ ["p", "f"], env.get? v = some (.float (x v))) →
      (value matrix c).eval ctx env = .ok (.float (y fun i => b i c))) :
    Takes ctx (Working S x) (onBoth n k fun matrix c => setCell matrix c r (value matrix c))
      (Working (act k (fun v => Function.update v r (y v)) S) x) := by
  rw [onBoth, List.map_eq_flatMap, List.map_eq_flatMap]
  refine takes_act (fun matrix c => [setCell matrix c r (value matrix c)]) k fun matrix hmatrix env₀ hnumber b c => ?_
  have hother : ∀ matrix ∈ ["a", "inv"], matrix ≠ "s" ∧ ∀ v ∈ ["p", "f"], v ≠ matrix ∧ v ≠ "s" := by decide
  obtain ⟨hs, hother⟩ := hother matrix hmatrix
  refine takes_setCell hs fun env h => hvalue matrix env b c h.value fun v hv => ?_
  rw [h.same v (hother v hv).1 (hother v hv).2, hnumber v hv]

section Reduction

theorem act_swap (h : Reduced M k.val S) {r : Fin n} (hr : k < r) :
    act k (· ∘ Equiv.swap k r) S = S ∘ Equiv.swap k r := by
  funext i
  refine Prod.ext (funext fun c => ?_) rfl
  simp only [act]
  split
  · rfl
  · next hc =>
      have hc : c < k := lt_of_not_ge hc
      rw [Function.comp_apply, Equiv.swap_apply_def]
      split
      · next hi => rw [hi, h.zero_of_lt hr.le hc, h.zero_of_lt le_rfl hc]
      · split
        · next hi => rw [hi, h.zero_of_lt hr.le hc, h.zero_of_lt le_rfl hc]
        · rfl

omit [FieldScalar K] in
theorem act_update {r : Fin n} {y : (Fin n → K) → K} (hfixed : ∀ c < k, y (fun i => (S i).1 c) = (S r).1 c) :
    act k (fun v => Function.update v r (y v)) S =
      Function.update S r (fun c => y fun i => (S i).1 c, fun c => y fun i => (S i).2 c) := by
  funext i
  by_cases hi : i = r
  · subst hi
    rw [Function.update_self]
    refine Prod.ext (funext fun c => ?_) (funext fun c => ?_)
    · simp only [act, Function.update_self]
      split
      · rfl
      · next hc => exact (hfixed c (lt_of_not_ge hc)).symm
    · simp only [act, Function.update_self]
  · rw [Function.update_of_ne hi]
    simp [act, hi]

theorem act_quotient (h : Reduced M k.val S) :
    act k (fun v => Function.update v k (v k / (S k).1 k)) S = Rows.scale k S := by
  rw [act_update fun c hc => by simp only [h.zero_of_lt le_rfl hc, zero_div], Rows.scale]
  exact congrArg _ (Prod.ext (funext fun c => div_eq_inv_mul _ _) (funext fun c => div_eq_inv_mul _ _))

theorem act_multiple (hzero : ∀ c < k, (S k).1 c = 0) (r : Fin n) :
    act k (fun v => Function.update v r (v r - (S r).1 k * v k)) S =
      Function.update S r (S r - (S r).1 k • S k) := by
  rw [act_update fun c hc => by simp only [hzero c hc, mul_zero, sub_zero]]
  rfl

end Reduction

def Holds (Q : Rows K n → Prop) (env : Env K) : Prop := ∃ S, Q S ∧ ∃ x, Working S x env

theorem takes_exchange [LinearOrder K] [OrderedScalar K] (habs : ctx.call? "abs" = none) (M : Fin n → Fin n → K)
    (S : Rows K n) {k r : Fin n} (hr : k < r) :
    Takes (L := L) ctx (Holds (· = S)) [.branch (.gt (abs (cell "a" k r)) (abs (cell "a" k k)))
      (swapRows n "a" k k r ++ swapRows n "inv" 0 k r) []]
      (Holds fun S' => Reduced M k.val S → S' = Rows.exchange k S r) := by
  refine .branch (Scalar.lt |(S k).1 k| |(S r).1 k|) ?_ ?_
  · rintro env ⟨S, rfl, x, h⟩
    exact Term.eval_binary_of .gt (eval_abs habs (eval_cell h.left k r)) (eval_abs habs (eval_cell h.left k k))
  · by_cases hlt : |(S k).1 k| < |(S r).1 k|
    · rw [if_pos ((OrderedScalar.lt_iff _ _).2 hlt)]
      rintro env ⟨S, rfl, x, hworking⟩
      have hswap : Takes (L := L) ctx (Working S x) (swapRows n "a" k k r ++ swapRows n "inv" 0 k r)
          (Working (act k (· ∘ Equiv.swap k r) S) x) := by
        refine takes_act (fun matrix c => [setVar "s" (cell matrix c k), setCell matrix c k (cell matrix c r),
          setCell matrix c r (.var "s")]) k fun matrix hmatrix env₀ _ b c => ?_
        exact takes_swap ((by decide : ∀ matrix ∈ ["a", "inv"], matrix ≠ "s") matrix hmatrix) b c
      obtain ⟨env', hexec, hworking'⟩ := hswap env hworking
      exact ⟨env', hexec, _, fun hreduced => by rw [act_swap hreduced hr, Rows.exchange, if_pos hlt], x, hworking'⟩
    · rw [if_neg (mt (OrderedScalar.lt_iff _ _).1 hlt)]
      rintro env ⟨S, rfl, hworking⟩
      exact ⟨env, rfl, S, fun _ => by rw [Rows.exchange, if_neg hlt], hworking⟩

theorem takes_pivotRows [LinearOrder K] [OrderedScalar K] (habs : ctx.call? "abs" = none) (M : Fin n → Fin n → K)
    (S : Rows K n) (k : Fin n) :
    Takes (L := L) ctx (Holds (· = S)) (pivotRows n k) (Holds fun S' => Reduced M k.val S → S' = Rows.pivot k S) := by
  let rows := (List.finRange n).filter (k < ·)
  have hspan : span (k.val + 1) n = rows.map Fin.val := span_eq _ _
  let Q (done : List (Fin n)) (S' : Rows K n) : Prop :=
    Reduced M k.val S → Reduced M k.val S' ∧ S' = done.foldl (Rows.exchange k) S
  have hrows : Takes (L := L) ctx (Holds (Q [])) (pivotRows n k) (Holds (Q rows)) := by
    rw [pivotRows, hspan, List.map_map, List.map_eq_flatMap]
    refine .flatMap (I := fun done => Holds (Q done)) rows fun done r rest hdone env ⟨S₁, hS₁, hworking⟩ => ?_
    have hr : k < r := of_decide_eq_true (List.mem_filter.1 (hdone ▸ by simp : r ∈ rows)).2
    obtain ⟨env', hexec, S₂, hS₂, hworking'⟩ := takes_exchange habs M S₁ hr env ⟨S₁, rfl, hworking⟩
    refine ⟨env', hexec, S₂, fun hreduced => ?_, hworking'⟩
    obtain ⟨hreduced₁, heq⟩ := hS₁ hreduced
    rw [hS₂ hreduced₁, List.foldl_append]
    exact ⟨hreduced₁.exchange hr, by rw [heq]; rfl⟩
  rintro env ⟨S, rfl, hworking⟩
  obtain ⟨env', hexec, S', hS', hworking'⟩ := hrows env ⟨S, fun hreduced => ⟨hreduced, rfl⟩, hworking⟩
  exact ⟨env', hexec, S', fun hreduced => (hS' hreduced).2, hworking'⟩

/-- The rows are to be scaled by `p`, which is no smaller than the epsilon and is the pivot if that is not either. -/
def Scales [LinearOrder K] (ε : K) (k : Fin n) (S : Rows K n) (env : Env K) : Prop :=
  ∃ x, ε ≤ |x "p"| ∧ (ε ≤ |(S k).1 k| → x "p" = (S k).1 k) ∧ Working S x env

theorem takes_pivot [LinearOrder K] [OrderedScalar K] [IsStrictOrderedRing K] [Literal L]
    (habs : ctx.call? "abs" = none) (hε : ctx.globals.get? epsilonName = some (.float ε)) (hpos : 0 < ε) (k : Fin n)
    (S : Rows K n) :
    Takes (L := L) ctx (Holds (· = S)) [setVar "p" (cell "a" k k), clampPivot "p"] (Scales ε k S) := by
  rintro env ⟨S, rfl, x, h⟩
  let x' := Function.update x "p" ((S k).1 k)
  have hx' : x' "p" = (S k).1 k := Function.update_self _ _ _
  have hset : Takes (L := L) ctx (Working S x) [setVar "p" (cell "a" k k)] (Working S x') :=
    .assign fun env h => ⟨_, _, h.number "p" (by decide), eval_cell h.left k k, h.set (by decide) _⟩
  have hclamp := takes_clampPivot (L := L) habs hε hpos (P := Working S x')
    (Q := fun y => Working S (Function.update x' "p" y)) fun env h =>
      ⟨hx' ▸ h.number "p" (by decide), h.epsilon, fun y => h.set (by decide) y⟩
  obtain ⟨env', hexec, y, hlarge, hsame, hworking⟩ := (hset.cons hclamp) env h
  have hy : Function.update x' "p" y "p" = y := Function.update_self _ _ _
  exact ⟨env', hexec, _, hy.symm ▸ hlarge, fun h => hy.trans (hsame h), hworking⟩

theorem takes_quotients (k : Fin n) (S : Rows K n) (x : String → K) :
    Takes (L := L) ctx (Working S x) (onBoth n k fun matrix c => setCell matrix c k (cell matrix c k / .var "p"))
      (Working (act k (fun v => Function.update v k (v k / x "p")) S) x) :=
  takes_onBoth fun _ _ _ c hb hnumber =>
    Term.eval_binary_of .div (eval_cell hb c k) (Term.eval_var (hnumber "p" (by decide)))

theorem takes_clearRow (ctx : Context L K) (k r : Fin n) (S : Rows K n) :
    Takes (L := L) ctx (Holds (· = S)) (clearRow n k r)
      (Holds fun S' => (∀ c < k, (S k).1 c = 0) → S' = Function.update S r (S r - (S r).1 k • S k)) := by
  rintro env ⟨S, rfl, x, h⟩
  let x' := Function.update x "f" ((S r).1 k)
  have hx' : x' "f" = (S r).1 k := Function.update_self _ _ _
  have hset : Takes (L := L) ctx (Working S x) [setVar "f" (cell "a" k r)] (Working S x') :=
    .assign fun env h => ⟨_, _, h.number "f" (by decide), eval_cell h.left k r, h.set (by decide) _⟩
  have hmultiple : Takes (L := L) ctx (Working S x')
      (onBoth n k fun matrix c => setCell matrix c r (cell matrix c r - .var "f" * cell matrix c k))
      (Working (act k (fun v => Function.update v r (v r - x' "f" * v k)) S) x') :=
    takes_onBoth fun _ _ _ c hb hnumber => Term.eval_binary_of .sub (eval_cell hb c r)
      (eval_mul (Term.eval_var (hnumber "f" (by decide))) (eval_cell hb c k))
  obtain ⟨env', hexec, hworking⟩ := (hset.cons hmultiple) env h
  rw [hx'] at hworking
  exact ⟨env', hexec, _, fun hzero => act_multiple hzero r, x', hworking⟩

theorem takes_clear (ctx : Context L K) (k : Fin n) (S : Rows K n) :
    Takes (L := L) ctx (Holds (· = S)) (((span 0 n).filter (· ≠ k.val)).flatMap (clearRow n k))
      (Holds fun S' => (∀ c < k, (S k).1 c = 0) → S' = Rows.clear k S) := by
  let rows := (List.finRange n).filter (· ≠ k)
  have hspan : (span 0 n).filter (· ≠ k.val) = rows.map Fin.val := by
    rw [span_eq, List.filter_map, List.filter_filter]
    exact congrArg (List.map Fin.val) (List.filter_congr fun i _ => by simp [Fin.ext_iff])
  let cleared (done : List (Fin n)) : Rows K n := fun i => if i ∈ done then S i - (S i).1 k • S k else S i
  let Q (done : List (Fin n)) (S' : Rows K n) : Prop := (∀ c < k, (S k).1 c = 0) → S' = cleared done
  have hrows : Takes (L := L) ctx (Holds (Q [])) (rows.flatMap fun r : Fin n => clearRow n k r.val)
      (Holds (Q rows)) := by
    refine .flatMap (I := fun done => Holds (Q done)) rows fun done r rest hdone env ⟨S₁, hS₁, hworking⟩ => ?_
    have hr : r ∉ done := not_mem_done ((List.nodup_finRange n).filter _) hdone
    -- Row `k` is never among those that are done, so that the same row is subtracted from all.
    have hk : k ∉ done := fun hmem =>
      (of_decide_eq_true (List.mem_filter.1 (hdone ▸ List.mem_append_left _ hmem : k ∈ rows)).2) rfl
    have hrow : cleared done r = S r := if_neg hr
    have hpivot : cleared done k = S k := if_neg hk
    have hstep : Function.update (cleared done) r (cleared done r - (cleared done r).1 k • cleared done k) =
        cleared (done ++ [r]) := by
      rw [hrow, hpivot]
      funext i
      by_cases hi : i = r
      · rw [hi, Function.update_self]
        exact (if_pos (by simp)).symm
      · rw [Function.update_of_ne hi]
        simp [cleared, hi]
    obtain ⟨env', hexec, S₂, hS₂, hworking'⟩ := takes_clearRow ctx k r S₁ env ⟨S₁, rfl, hworking⟩
    refine ⟨env', hexec, S₂, fun hzero => ?_, hworking'⟩
    obtain rfl := hS₁ hzero
    rw [hS₂ (by rwa [hpivot]), hstep]
  have hstart : cleared [] = S := by simp [cleared]
  have hend : cleared rows = Rows.clear k S := by
    funext i
    by_cases hi : i = k
    · subst hi
      simp [cleared, rows, Rows.clear]
    · simp [cleared, rows, Rows.clear, hi]
  rw [hspan, List.flatMap_map]
  rintro env ⟨S, rfl, hworking⟩
  obtain ⟨env', hexec, S', hS', hworking'⟩ := hrows env ⟨S, fun _ => hstart.symm, hworking⟩
  exact ⟨env', hexec, S', fun hzero => (hS' hzero).trans hend, hworking'⟩

section Elimination

variable [LinearOrder K] [OrderedScalar K] [IsStrictOrderedRing K] [Literal L] (habs : ctx.call? "abs" = none)
  (hε : ctx.globals.get? epsilonName = some (.float ε)) (hpos : 0 < ε)
include habs hε hpos

/-- The code for one column is a step of the elimination, if its pivot is large enough. -/
theorem takes_eliminate (M : Fin n → Fin n → K) (k : Fin n) (S : Rows K n) :
    Takes (L := L) ctx (Holds (· = S)) (eliminate n k)
      (Holds fun S' => Reduced M k.val S → ε ≤ |(Rows.pivot k S k).1 k| → S' = Rows.step k S) := by
  intro env hS
  have hcomment : Takes (L := L) ctx (Holds (· = S)) [.comment s!"column {k.val}"] (Holds (· = S)) :=
    .single fun env h => ⟨env, rfl, h⟩
  obtain ⟨env₁, hexec₁, S₁, hS₁, hworking₁⟩ := (hcomment.cons (takes_pivotRows habs M S k)) env hS
  obtain ⟨env₂, hexec₂, x, -, hsame, hworking₂⟩ := takes_pivot (L := L) habs hε hpos k S₁ env₁ ⟨S₁, rfl, hworking₁⟩
  obtain ⟨env₃, hexec₃, hworking₃⟩ := takes_quotients (L := L) k S₁ x env₂ hworking₂
  obtain ⟨env₄, hexec₄, S₄, hS₄, hworking₄⟩ := takes_clear ctx k _ env₃ ⟨_, rfl, x, hworking₃⟩
  refine ⟨env₄, ?_, S₄, fun hreduced hp => ?_, hworking₄⟩
  · have hexec := (Stmt.execAll_append hexec₁).trans ((Stmt.execAll_append hexec₂).trans
      ((Stmt.execAll_append hexec₃).trans hexec₄))
    simpa only [eliminate, List.append_assoc, List.cons_append] using hexec
  · obtain rfl := hS₁ hreduced
    rw [hsame hp, act_quotient hreduced.pivot] at hS₄
    exact hS₄ fun c hc => hreduced.pivot.scale.zero_of_lt le_rfl hc

theorem takes_elimination (M : Fin n → Fin n → K) :
    Takes (L := L) ctx (Holds (· = Rows.start M)) ((span 0 n).flatMap (eliminate n))
      (Holds fun S => Rows.Pivots ε (List.finRange n) (Rows.start M) → Reduced M n S) := by
  have hspan : span 0 n = (List.finRange n).map Fin.val := by
    rw [span_eq]
    simp
  -- What is left to do is what the pivots are known for.
  let Q (done : List (Fin n)) (S : Rows K n) : Prop := Rows.Pivots ε (List.finRange n) (Rows.start M) →
    Reduced M done.length S ∧ Rows.Pivots ε ((List.finRange n).drop done.length) S
  have hsteps : Takes (L := L) ctx (Holds (Q [])) ((List.finRange n).flatMap fun k : Fin n => eliminate n k.val)
      (Holds (Q (List.finRange n))) := by
    refine .flatMap (I := fun done => Holds (Q done)) _ fun done k rest hdone env ⟨S, hS, hworking⟩ => ?_
    have hk : k.val = done.length := by
      have hget : (List.finRange n)[done.length]? = some k := by simp [hdone]
      obtain ⟨hlt, hget⟩ := List.getElem?_eq_some_iff.1 hget
      rw [← hget, List.getElem_finRange]
      rfl
    have hdrop : (List.finRange n).drop done.length = k :: (List.finRange n).drop (done.length + 1) := by
      simp [hdone]
    obtain ⟨env', hexec, S', hS', hworking'⟩ := takes_eliminate habs hε hpos M k S env ⟨S, rfl, hworking⟩
    refine ⟨env', hexec, S', fun hpivots => ?_, hworking'⟩
    obtain ⟨hreduced, hpivots⟩ := hS hpivots
    rw [hdrop] at hpivots
    rw [← hk] at hreduced
    obtain rfl := hS' hreduced hpivots.1
    have hne : (Rows.pivot k S k).1 k ≠ 0 := abs_pos.1 (lt_of_lt_of_le hpos hpivots.1)
    rw [List.length_append, List.length_singleton]
    exact ⟨hk ▸ hreduced.step hne, hpivots.2⟩
  rw [hspan, List.flatMap_map]
  rintro env ⟨S, rfl, hworking⟩
  obtain ⟨env', hexec, S, hS, hworking'⟩ :=
    hsteps env ⟨Rows.start M, fun hpivots => ⟨Rows.reduced_start M, hpivots⟩, hworking⟩
  refine ⟨env', hexec, S, fun hpivots => ?_, hworking'⟩
  have hreduced := (hS hpivots).1
  rwa [List.length_finRange] at hreduced

end Elimination

end Rows

section Functions

theorem exists_of_function [Literal L] (hn : 2 ≤ n) (hn' : n ≤ 4) {f : Function L} (hf : function n = .ok f) :
    ∃ body, f = ⟨functionName n, [(.mat n, "m")], .mat n, body⟩ := by
  interval_cases n <;> exact ⟨_, (Except.ok.inj hf).symm⟩

theorem name_of_function [Literal L] (hn : 2 ≤ n) (hn' : n ≤ 4) {f : Function L} (hf : function n = .ok f) :
    f.name = functionName n := by
  obtain ⟨_, rfl⟩ := exists_of_function hn hn' hf
  rfl

omit [FieldScalar K] in
theorem bind_matrix (name : String) (M : Fin n → Fin n → K) :
    Function.bind name [(.mat n, "m")] [ofMatrix M] [] = .ok [("m", ofMatrix M)] :=
  if_pos rfl

theorem takes_declarations [Literal L] (hone : ctx.literal 1 = 1) (M : Fin n → Fin n → K) :
    Takes (L := L) ctx (· = [("m", ofMatrix M)]) [.declare (.mat n) "a" (.var "m"),
      .declare (.mat n) "inv" (.construct (.mat n) [.float 1]), .declare .float "s" (.float 0),
      .declare .float "p" (.float 0), .declare .float "f" (.float 0)] (Holds (· = Rows.start M)) := by
  let env₀ : Env K := [("m", ofMatrix M)]
  let env₁ : Env K := env₀.set "a" (ofMatrix M)
  have hmatrix : Takes (L := L) ctx (· = env₀) [.declare (.mat n) "a" (.var "m")] (· = env₁) :=
    .declare_eq _ _ (Term.eval_var rfl)
  have hnumber (name : String) (env : Env K) : Takes (L := L) ctx (· = env) [.declare .float name (.float 0)]
      (· = env.set name (.float (ctx.literal 0))) := .declare_eq _ _ rfl
  have hidentity : (Term.construct (.mat n) [.float 1]).eval ctx env₁ = .ok (ofMatrix fun r : Fin n => Pi.single r 1) :=
    Term.eval_identity hone n
  have hinv := Takes.declare_eq (.mat n) "inv" hidentity
  refine (hmatrix.cons (hinv.cons ((hnumber "s" _).cons ((hnumber "p" _).cons (hnumber "f" _))))).weaken ?_
  rintro _ rfl
  refine ⟨_, rfl, fun _ => ctx.literal 0, rfl, rfl, ⟨_, rfl⟩, fun v hv => ?_, rfl⟩
  simp only [List.mem_cons, List.not_mem_nil, or_false] at hv
  rcases hv with rfl | rfl <;> rfl

variable [LinearOrder K] [OrderedScalar K] [IsStrictOrderedRing K] [Literal L] (habs : ctx.call? "abs" = none)
  (hone : ctx.literal 1 = 1) (hε : ctx.globals.get? epsilonName = some (.float ε)) (hpos : 0 < ε)
include habs hε hpos

include hone in
theorem gaussJordan_run (name : String) (M : Fin n → Fin n → K) :
    ∃ N : Fin n → Fin n → K, (⟨name, [(.mat n, "m")], .mat n, gaussJordan n⟩ : Function L).run ctx [ofMatrix M] =
      .ok (ofMatrix N) ∧ (Rows.Pivots ε (List.finRange n) (Rows.start M) → Matrix.of N * Matrix.of M = 1) := by
  obtain ⟨env', hexec, S, hS, x, hworking⟩ :=
    ((takes_declarations hone M).append (takes_elimination habs hε hpos M)) _ rfl
  refine ⟨fun i => (S i).2, ?_, fun hpivots => (hS hpivots).mul_eq_one⟩
  exact Function.run_eq_ok rfl (bind_matrix name M) (Stmt.execAll_result hexec (Term.eval_var hworking.right))

theorem takes_determinant (M : Fin 2 → Fin 2 → K) :
    Takes (L := L) ctx (· = [("m", ofMatrix M)])
      [.declare .float "det" (cell "m" 0 0 * cell "m" 1 1 - cell "m" 1 0 * cell "m" 0 1), clampPivot "det"]
      fun env => ∃ y, ε ≤ |y| ∧ (ε ≤ |(Matrix.of M).det| → y = (Matrix.of M).det) ∧
        env = [("m", ofMatrix M), ("det", .float y)] := by
  let env₀ : Env K := [("m", ofMatrix M)]
  have hcell (c r : Fin 2) : (cell "m" c r : Term L).eval ctx env₀ = .ok (.float (M r c)) := eval_cell rfl c r
  have hdeterminant : (cell "m" 0 0 * cell "m" 1 1 - cell "m" 1 0 * cell "m" 0 1 : Term L).eval ctx env₀ =
      .ok (.float (Matrix.of M).det) := by
    have hvalue : (Matrix.of M).det = M 0 0 * M 1 1 - M 0 1 * M 1 0 := Matrix.det_fin_two _
    rw [hvalue]
    exact Term.eval_binary_of .sub (eval_mul (hcell 0 0) (hcell 1 1)) (eval_mul (hcell 1 0) (hcell 0 1))
  refine (Takes.declare_eq .float "det" hdeterminant).cons (takes_clampPivot habs hε hpos ?_)
  rintro _ rfl
  exact ⟨rfl, rfl, fun _ => rfl⟩

theorem closedForm_run (name : String) (M : Fin 2 → Fin 2 → K) :
    ∃ N : Fin 2 → Fin 2 → K, (⟨name, [(.mat 2, "m")], .mat 2, closedForm⟩ : Function L).run ctx [ofMatrix M] =
      .ok (ofMatrix N) ∧ (ε ≤ |(Matrix.of M).det| → Matrix.of N * Matrix.of M = 1) := by
  obtain ⟨env', hexec, d, hlarge, hsame, rfl⟩ := takes_determinant (L := L) habs hε hpos M _ rfl
  have hcell (c r : Fin 2) : (cell "m" c r : Term L).eval ctx [("m", ofMatrix M), ("det", .float d)] =
      .ok (.float (M r c)) := eval_cell rfl c r
  let N : Fin 2 → Fin 2 → K := (Matrix.of M).adjugate
  refine ⟨fun r c => N r c / d, Function.run_eq_ok rfl (bind_matrix name M) (Stmt.execAll_result hexec ?_), ?_⟩
  · have hcolumns : Value.columns N = [M 1 1, -M 1 0, -M 0 1, M 0 0] :=
      congrArg Value.columns (Matrix.adjugate_fin_two (Matrix.of M))
    have hneg {t : Term L} {x : K} (ht : t.eval ctx [("m", ofMatrix M), ("det", .float d)] = .ok (.float x)) :
        (Term.neg t).eval ctx [("m", ofMatrix M), ("det", .float d)] = .ok (.float (-x)) := bind_eq_ok_of ht rfl
    have hadjugate : (Term.construct (.mat 2) [cell "m" 1 1, .neg (cell "m" 0 1), .neg (cell "m" 1 0),
        cell "m" 0 0] : Term L).eval ctx [("m", ofMatrix M), ("det", .float d)] = .ok (ofMatrix N) :=
      bind_eq_ok_of (Term.evalAll_floats (.cons (hcell 1 1) (.cons (hneg (hcell 0 1))
        (.cons (hneg (hcell 1 0)) (.cons (hcell 0 0) .nil))))) (hcolumns ▸ Value.construct_mat (by decide) N)
    exact (Term.eval_binary_of .div hadjugate (Term.eval_var rfl)).trans (Value.map_ofMatrix "/" (· / d) N)
  · intro hdet
    have hd : d ≠ 0 := abs_pos.1 (lt_of_lt_of_le hpos hlarge)
    have hinverse : Matrix.of (fun r c => N r c / d) = d⁻¹ • (Matrix.of M).adjugate :=
      funext fun r => funext fun c => div_eq_inv_mul _ _
    rw [hinverse, Matrix.smul_mul, Matrix.adjugate_mul, ← hsame hdet, smul_smul, inv_mul_cancel₀ hd, one_smul]

include hone in
theorem function_run (M : Fin n → Fin n → K) (hn : 2 ≤ n) (hn' : n ≤ 4) {f : Function L} (hf : function n = .ok f) :
    ∃ N : Fin n → Fin n → K, f.run ctx [ofMatrix M] = .ok (ofMatrix N) ∧
      (Unclamped ε M → Matrix.of N * Matrix.of M = 1) := by
  have helimination := gaussJordan_run habs hone hε hpos (functionName n) M
  rw [Unclamped]
  interval_cases n
  · obtain rfl := Except.ok.inj hf
    exact closedForm_run habs hε hpos _ M
  · obtain rfl := Except.ok.inj hf
    exact helimination
  · obtain rfl := Except.ok.inj hf
    exact helimination

end Functions

end FlowShader.Shader.Inverse
