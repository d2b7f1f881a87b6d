import FlowShader.Proofs.EGraph.Evaluation
import FlowShader.Proofs.EGraph.Folding
import FlowShader.Proofs.Matrix.Determinant
import FlowShader.Proofs.Simplify.Independence
import FlowShader.Proofs.Simplify.Price

namespace FlowShader

open EGraph (Explores Folds Retains Complete WellFormed)

namespace Expr

variable {L : Type} [Literal L] {e : Expr L}

/-- Every part of the formula has a finite value without any variable being bound. -/
def Ground (e : Expr L) : Prop :=
  ∀ s ∈ e.subtrees, ∃ x : L, s.eval (Valuation.ofList []) = .ok x ∧ Literal.isFinite x = true

def IsNumber (e : Expr L) : Prop := (∃ x, e = .literal x) ∨ ∃ c, e = .constant c

section Values

theorem finite?_eq_some {x : L} (h : Literal.isFinite x = true) : Layer.finite? x = some x := if_pos h

theorem Ground.eval_eq_folded? (h : e.Ground) :
    ∃ x : L, e.eval (Valuation.ofList []) = .ok x ∧ e.folded? = some x := by
  obtain ⟨x, hx, hfinite⟩ := h e e.mem_subtrees_self
  refine ⟨x, hx, ?_⟩
  induction e generalizing x with
  | literal y =>
      obtain rfl : y = x := Except.ok.inj hx
      rfl
  | constant c =>
      obtain rfl : c.value = x := Except.ok.inj hx
      exact finite?_eq_some hfinite
  | var v => cases hx
  | call f a ih =>
      obtain ⟨y, hy, hfinite'⟩ := h a (by simp [subtrees, mem_subtrees_self])
      rw [eval, hy] at hx
      obtain rfl : f.apply y = x := Except.ok.inj hx
      rw [folded?, ih (fun s hs => h s (by simp [subtrees, hs])) y hy hfinite']
      exact finite?_eq_some hfinite
  | call₂ f a b iha ihb =>
      obtain ⟨y, hy, hfinitea⟩ := h a (by simp [subtrees, mem_subtrees_self])
      obtain ⟨z, hz, hfiniteb⟩ := h b (by simp [subtrees, mem_subtrees_self])
      rw [eval, hy, hz] at hx
      obtain rfl : f.apply y z = x := Except.ok.inj hx
      rw [folded?, iha (fun s hs => h s (by simp [subtrees, hs])) y hy hfinitea,
        ihb (fun s hs => h s (by simp [subtrees, hs])) z hz hfiniteb]
      exact finite?_eq_some hfinite
  | op o a b iha ihb =>
      obtain ⟨y, hy, hfinitea⟩ := h a (by simp [subtrees, mem_subtrees_self])
      obtain ⟨z, hz, hfiniteb⟩ := h b (by simp [subtrees, mem_subtrees_self])
      rw [eval, hy, hz] at hx
      obtain rfl : o.apply y z = x := Except.ok.inj hx
      rw [folded?, iha (fun s hs => h s (by simp [subtrees, hs])) y hy hfinitea,
        ihb (fun s hs => h s (by simp [subtrees, hs])) z hz hfiniteb]
      exact finite?_eq_some hfinite

end Values

section Enter

variable [LawfulBEq L]

theorem foldl_enterNext_folds (es : List (Expr L)) (state : EGraph L × List (Expr L × Nat)) (h : WellFormed state.1)
    (hfolds : Folds state.1)
    (hstate : ∀ p ∈ state.2, p.2 < state.1.leader.size ∧ state.1.value? p.2 = p.1.folded?) :
    ∀ p ∈ (es.foldl enterNext state).2, p.2 < (es.foldl enterNext state).1.leader.size ∧
      (es.foldl enterNext state).1.value? p.2 = p.1.folded? := by
  induction es generalizing state with
  | nil => exact hstate
  | cons e es ih =>
      have hgains := hfolds.addExpr h e
      refine ih (enterNext state e) hgains.wellFormed hgains.folds fun p hp => ?_
      rcases List.mem_cons.1 hp with rfl | hp
      · exact ⟨hgains.lt, hgains.value⟩
      · obtain ⟨hlt, hvalue⟩ := hstate p hp
        exact ⟨hlt.trans_le hgains.grows.le, (hgains.retains _ hlt).trans hvalue⟩

theorem enterAll_folds (es : List (Expr L)) {p : Expr L × Nat} (hp : p ∈ (enterAll {} es).2) :
    p.2 < (enterAll {} es).1.leader.size ∧ (enterAll {} es).1.value? p.2 = p.1.folded? :=
  foldl_enterNext_folds es ({}, []) .empty Complete.empty.folds (by simp) p (List.mem_reverse.1 hp)

theorem foldl_enterNext_complete {es : List (Expr L)} (hes : ∀ e ∈ es, e.Ground)
    (state : EGraph L × List (Expr L × Nat)) (h : Complete state.1) : Complete (es.foldl enterNext state).1 := by
  induction es generalizing state with
  | nil => exact h
  | cons e es ih =>
      obtain ⟨x, -, hx⟩ := (hes e List.mem_cons_self).eval_eq_folded?
      have hgains := h.folds.addExpr h.toWellFormed e
      rw [hx] at hgains
      exact ih (fun e he => hes e (List.mem_cons_of_mem _ he)) (enterNext state e) (hgains.complete h)

end Enter

section Simplify

variable [LawfulBEq L]

/-- A formula without variables is in one class with a literal from the start, and nothing is cheaper. -/
theorem simplifyAll_isNumber {es : List (Expr L)} (hnumbers : es.any hasNaN = false) (effort : Effort) :
    List.Forall₂ (fun e t => e.Ground → t.IsNumber) es (simplifyAll es effort) := by
  refine forall₂_simplifyAll hnumbers (fun g hg p hp => ?_) effort
  obtain ⟨t, ht, -⟩ := exists_extract?_of_explores hg hp
  refine ⟨t, ht, fun hground => ?_⟩
  obtain ⟨x, -, hx⟩ := hground.eval_eq_folded?
  have hwell := (enterAll_affords es).1
  obtain ⟨hrestored, hgrows⟩ := hwell.rebuild
  obtain ⟨hrestored', hgrows'⟩ := hg.restored hrestored
  have hvalue : ((enterAll {} es).1.value? p.2).isSome = true := by rw [(enterAll_folds es hp).2, hx]; rfl
  have hliteral := (hwell.settled p.2 hvalue).mono (hgrows.trans hgrows')
  obtain ⟨t', ht', hprice⟩ := hrestored'.exists_extract? hliteral.affords
  obtain rfl := Option.some.inj (ht.symm.trans ht')
  exact leaf_of_price_le_one hprice

omit [LawfulBEq L] in
theorem eval_of_extract? {g : EGraph L} (h : Complete g) {i : Nat} {x : L} (hx : g.value? i = some x) {t : Expr L}
    (ht : g.extract? g.choose i = some t) : t.eval (Valuation.ofList []) = .ok x := by
  refine g.choose_from.extract? (P := fun k t => ∀ x, g.value? k = some x → t.eval (Valuation.ofList []) = .ok x)
    (fun n k m tree hn _ hm x hx => ?_) ht x ((EGraph.value?_congr (h.coherent.root_root i)).trans hx)
  have hleaf := h.isLeaf hn
  rw [h.folds _ (Array.mem_filter.1 hn).1] at hx
  cases n with
  | literal y =>
      obtain rfl := Option.some.inj hm
      obtain rfl := Option.some.inj hx
      rfl
  | constant c =>
      obtain rfl := Option.some.inj hm
      have hfinite : Layer.finite? (c.value : L) = some x := hx
      unfold Layer.finite? at hfinite
      split at hfinite
      · obtain rfl := Option.some.inj hfinite
        rfl
      · cases hfinite
  | var v => cases hx
  | call | call₂ | op => cases hleaf

theorem simplifyAll_eval {es : List (Expr L)} (hes : ∀ e ∈ es, e.Ground) (effort : Effort) :
    List.Forall₂ (fun e t => t.eval (Valuation.ofList []) = e.eval (Valuation.ofList [])) es
      (simplifyAll es effort) := by
  cases hnumbers : es.any hasNaN with
  | true =>
      rw [simplifyAll_eq, if_pos hnumbers]
      exact List.forall₂_same.2 fun e _ => rfl
  | false =>
      refine forall₂_simplifyAll hnumbers (fun g hg p hp => ?_) effort
      obtain ⟨t, ht, -⟩ := exists_extract?_of_explores hg hp
      have hcomplete : Complete (enterAll {} es).1 := foldl_enterNext_complete hes ({}, []) .empty
      obtain ⟨hcomplete', hretains⟩ := hcomplete.rebuild
      obtain ⟨hcomplete'', hretains', -⟩ := hcomplete'.explores hg
      have hmem : p.1 ∈ es := map_fst_enterAll es ▸ List.mem_map_of_mem hp
      obtain ⟨x, heval, hfolded⟩ := (hes p.1 hmem).eval_eq_folded?
      obtain ⟨hlt, hvalue⟩ := enterAll_folds es hp
      have hlt' := hlt.trans_le hcomplete.toWellFormed.rebuild.2.le
      have hx : g.value? p.2 = some x := by rw [hretains' _ hlt', hretains _ hlt, hvalue, hfolded]
      exact ⟨t, ht, (eval_of_extract? hcomplete'' hx ht).trans heval.symm⟩

end Simplify

section Exact

variable {ρ : Valuation L ℝ} {y : ℝ}

theorem HasValue.folded? (hexact : Literal.Exact ρ.literal) (h : e.HasValue ρ y) {z : L} (hz : e.folded? = some z) :
    Literal.isFinite z = true ∧ ρ.literal z = y := by
  have hpair {u v : Option L} {x x' : ℝ} (hu : ∀ w, u = some w → Literal.isFinite w = true ∧ ρ.literal w = x)
      (hv : ∀ w, v = some w → Literal.isFinite w = true ∧ ρ.literal w = x') (k : Nat) (w : L)
      (hw : (if k = 0 then u else v) = some w) :
      Literal.isFinite w = true ∧ ρ.literal w = if k = 0 then x else x' := by
    split at hw
    · next hk => simpa [hk] using hu w hw
    · next hk => simpa [hk] using hv w hw
  have hnone (k : Nat) (w : L) : (none : Option L) = some w → Literal.isFinite w = true ∧ ρ.literal w = 0 := nofun
  induction h generalizing z with
  | @literal x hx => exact Layer.HasValue.fold? (n := .literal x) (ν := fun _ => 0) hexact hnone ⟨hx, rfl⟩ hz
  | @constant c => exact Layer.HasValue.fold? (n := .constant c) (ν := fun _ => 0) hexact hnone rfl hz
  | var => cases hz
  | @call f a x _ hf ih =>
      have hknown (k : Nat) (w : L) : a.folded? = some w → Literal.isFinite w = true ∧ ρ.literal w = x := ih
      exact Layer.HasValue.fold? (n := .call f 0) (ν := fun _ => x) hexact hknown ⟨hf, rfl⟩ hz
  | @call₂ f a b x x' _ _ iha ihb =>
      exact Layer.HasValue.fold? (n := .call₂ f 0 1) hexact (hpair (fun _ => iha) fun _ => ihb) rfl hz
  | @op o a b x x' _ _ ho iha ihb =>
      exact Layer.HasValue.fold? (n := .op o 0 1) hexact (hpair (fun _ => iha) fun _ => ihb) ⟨ho, rfl⟩ hz

end Exact

end Expr

namespace Matrix

open EGraph (searched enterEntries size_enterEntries_le table_union applyMatch applyAll applyAll_cons
  saturate_of_one_round)
open FlowShader.Expr (enterAll simplifyAll_eq)
open FlowShader.Expr.Clash (swap annihilate raise)

variable {L : Type} [Literal L] [LawfulBEq L] {ρ : Valuation L ℝ}

/-- A matrix is refused if its determinant has no variables and the value zero, and determinant and
adjugate have values at some point. -/
theorem inverse_of_ground (hexact : Literal.Exact ρ.literal)
    (hzero : ∀ x, Literal.isFinite x = true → ρ.literal x = 0 → x = 0) {m : Matrix L} (hsquare : m.Square)
    (h2 : 2 ≤ m.height) (h4 : m.height ≤ 4)
    (hnumbers : (m.expandDeterminant :: m.expandAdjugate).any Expr.hasNaN = false)
    (hground : m.expandDeterminant.Ground) (hdet : m.expandDeterminant.eval (Valuation.ofList []) = .ok 0)
    (hdefined : ∀ e ∈ m.expandDeterminant :: m.expandAdjugate, ∃ y, e.HasValue ρ y) :
    m.inverse = .error .singular := by
  obtain ⟨d, hd⟩ := exists_jointDeterminant m
  obtain ⟨es, hes⟩ := List.head?_eq_some_iff.1 hd
  have hnumber := Expr.simplifyAll_isNumber hnumbers {}
  have hsame := Expr.simplifyAll_sameValue hexact hdefined {}
  rw [hes] at hnumber hsame
  obtain ⟨⟨y, hy, hdy⟩, -⟩ := List.forall₂_cons.1 hsame
  obtain ⟨x, hx, hfolded⟩ := hground.eval_eq_folded?
  obtain rfl : 0 = x := Except.ok.inj (hdet.symm.trans hx)
  obtain rfl : 0 = y := hexact.zero.symm.trans (hy.folded? hexact hfolded).2
  have hisZero := isZero_of_isNumber hzero hdy ((List.forall₂_cons.1 hnumber).1 hground)
  simpa [hisZero] using inverse_of_jointDeterminant hsquare h2 h4 hd

/-- Formulas without variables fold completely. With others they become literals or named constants, by
themselves they keep their values, and a determinant among them that is zero is recognised wherever
determinant and adjugate have values. -/
theorem ground_folds_completely :
    (∀ (es : List (Expr L)) (effort : Effort), es.any Expr.hasNaN = false →
      List.Forall₂ (fun e t => e.Ground → t.IsNumber) es (Expr.simplifyAll es effort)) ∧
    (∀ e : Expr L, e.Ground → e.simplify.eval (Valuation.ofList []) = e.eval (Valuation.ofList [])) ∧
    ∀ m : Matrix L, m.Square → 2 ≤ m.height → m.height ≤ 4 →
      (m.expandDeterminant :: m.expandAdjugate).any Expr.hasNaN = false →
      m.expandDeterminant.Ground → m.expandDeterminant.eval (Valuation.ofList []) = .ok 0 →
      (∃ ρ : Valuation L ℝ, Literal.Exact ρ.literal ∧
        (∀ x, Literal.isFinite x = true → ρ.literal x = 0 → x = 0) ∧
        ∀ e ∈ m.expandDeterminant :: m.expandAdjugate, ∃ y, e.HasValue ρ y) →
      m.inverse = .error .singular := by
  refine ⟨fun es effort hnumbers => Expr.simplifyAll_isNumber hnumbers effort, fun e he => ?_, ?_⟩
  · have hsimple := Expr.simplifyAll_eval (List.forall_mem_singleton.2 he) {}
    obtain ⟨t, ts, ht, -, hlist⟩ := List.forall₂_cons_left_iff.1 hsimple
    rw [Expr.simplify, hlist, List.headD_cons, ht]
  · rintro m hsquare h2 h4 hnumbers hground hdet ⟨ρ, hexact, hzero, hdefined⟩
    exact inverse_of_ground hexact hzero hsquare h2 h4 hnumbers hground hdet hdefined

section Points

def slanted : Matrix Whole :=
  ⟨[[.op .mul (.literal (.int 2)) (.literal (.int 3)), .var "x"], [.zero, .op .sub .one .one]]⟩

theorem slanted_folds_completely :
    slanted.expandDeterminant.Ground ∧ slanted.inverse = .error .singular ∧
      slanted.expandDeterminant.simplify.eval (Valuation.ofList []) = .ok 0 := by
  have hground : slanted.expandDeterminant.Ground := by
    have hdeterminant : slanted.expandDeterminant =
        .op .mul (.op .mul (.literal (.int 2)) (.literal (.int 3))) (.op .sub .one .one) := rfl
    rw [hdeterminant]
    intro s hs
    simp only [Expr.subtrees, List.cons_append, List.nil_append, Expr.one, List.mem_cons, List.not_mem_nil, or_false] at hs
    rcases hs with rfl | rfl | rfl | rfl | rfl | rfl | rfl <;> exact ⟨_, rfl, rfl⟩
  have hdefined : ∃ ρ : Valuation Whole ℝ, Literal.Exact ρ.literal ∧
      (∀ x, Literal.isFinite x = true → ρ.literal x = 0 → x = 0) ∧
      ∀ e ∈ slanted.expandDeterminant :: slanted.expandAdjugate, ∃ y, e.HasValue ρ y := by
    refine ⟨⟨Whole.toReal, fun _ => some 1⟩, Whole.exact_toReal, fun x hx h0 => ?_, ?_⟩
    · obtain ⟨n, rfl⟩ := Whole.exists_of_isFinite hx
      exact congrArg Whole.int (Int.cast_eq_zero.1 h0)
    · have hlist : slanted.expandDeterminant :: slanted.expandAdjugate =
          [.op .mul (.op .mul (.literal (.int 2)) (.literal (.int 3))) (.op .sub .one .one), .op .sub .one .one,
            .op .sub .zero (.var "x"), .literal (-0), .op .mul (.literal (.int 2)) (.literal (.int 3))] := rfl
      rw [hlist]
      simp only [List.forall_mem_cons, List.not_mem_nil, IsEmpty.forall_iff, implies_true, and_true]
      exact ⟨⟨_, .op (.op (.literal rfl) (.literal rfl) trivial) (.op (.literal rfl) (.literal rfl) trivial) trivial⟩,
        ⟨_, .op (.literal rfl) (.literal rfl) trivial⟩, ⟨_, .op (.literal rfl) (.var rfl) trivial⟩, ⟨_, .literal rfl⟩,
        ⟨_, .op (.literal rfl) (.literal rfl) trivial⟩⟩
  obtain ⟨-, hvalue, hsingular⟩ := ground_folds_completely (L := Whole)
  refine ⟨hground, ?_, (hvalue _ hground).trans rfl⟩
  exact hsingular slanted (by simp [slanted, Square, height]) (by decide) (by decide) (by decide) hground rfl hdefined

end Points

namespace Collapse

def vanishing : Expr Whole :=
  .op .sub (.op .sub (.literal (.int 2)) (.literal (.int 3))) (.op .sub (.literal (.int 2)) (.literal (.int 3)))

def reciprocal : Expr Whole := .op .pow .zero (.op .sub .zero .one)

def undefined : Expr Whole := .op .add (.op .mul .zero reciprocal) (.op .mul reciprocal .zero)

def matrix : Matrix Whole := ⟨[[vanishing, .zero], [undefined, .one]]⟩

def formulas : List (Expr Whole) := [vanishing, .one, .zero, .op .sub .zero undefined, vanishing]

theorem expansions_matrix : matrix.expandDeterminant :: matrix.expandAdjugate = formulas := rfl

def seeds : List (Node Whole) :=
  [.literal (.int 2), .literal (.int 3), .op .sub 0 1, .literal (-1), .op .sub 2 2, .literal 0, .literal 1, .op .sub 4 6,
    .op .pow 4 2, .op .mul 4 8, .op .mul 8 4, .op .add 9 10, .op .sub 4 11]

def entered : EGraph Whole where
  leader := #[0, 1, 2, 2, 4, 4, 6, 2, 8, 9, 10, 11, 12]
  values := #[some (.int 2), some (.int 3), some (-1), some (-1), some 0, some 0, some 1, some (-1), none, none, none, none,
    none]
  uses := #[#[(.op .sub 0 1, 2)], #[(.op .sub 0 1, 2)], #[(.op .sub 2 2, 4), (.op .sub 2 2, 4), (.op .pow 4 2, 8)], #[],
    #[(.op .sub 4 6, 7), (.op .pow 4 2, 8), (.op .mul 4 8, 9), (.op .mul 8 4, 10), (.op .sub 4 11, 12)], #[],
    #[(.op .sub 4 6, 7)], #[], #[(.op .mul 4 8, 9), (.op .mul 8 4, 10)], #[(.op .add 9 10, 11)], #[(.op .add 9 10, 11)],
    #[(.op .sub 4 11, 12)], #[]]
  nodes := #[(.literal (.int 2), 0), (.literal (.int 3), 1), (.op .sub 0 1, 2), (.op .sub 4 6, 2), (.literal (-1), 2),
    (.op .sub 2 2, 4), (.literal 0, 4), (.literal 1, 6), (.op .pow 4 2, 8), (.op .mul 4 8, 9), (.op .mul 8 4, 10),
    (.op .add 9 10, 11), (.op .sub 4 11, 12)]
  table := enterEntries {} seeds.zipIdx

theorem rebuild_enterAll : (enterAll {} formulas).1.rebuild = entered := by cbv

def exchange : Rule Whole := { lhs := Rule.plus (Rule.v "a") (Rule.v "b"), rhs := Rule.plus (Rule.v "b") (Rule.v "a") }

/-- What the first round finds: the sum and both products can be swapped, one product is zero and the other a higher
power. -/
def found : List (Rule Whole × Array (Nat × Assignment)) :=
  [(exchange, #[(11, [("b", 10), ("a", 9)])]), (swap, #[(9, [("b", 8), ("a", 4)]), (10, [("b", 4), ("a", 8)])]),
    (annihilate, #[(9, [("a", 8)])]), (raise, #[(10, [("b", 2), ("a", 4)])])]

theorem searched_entered : searched {} Rule.all entered = found := by cbv

def exchanged : EGraph Whole := (entered.grown (.op .add 10 9)).union 11 13

def swapped : EGraph Whole := exchanged.union 9 10

def annihilated : EGraph Whole := swapped.union 9 4

def clashed : EGraph Whole where
  leader := #[0, 1, 2, 2, 4, 4, 4, 2, 8, 4, 4, 11, 12, 11, 4, 4]
  values := entered.values ++ #[none, some 0, some 1]
  uses := #[#[(.op .sub 0 1, 2)], #[(.op .sub 0 1, 2)],
    #[(.op .sub 2 2, 4), (.op .sub 2 2, 4), (.op .pow 4 2, 8), (.op .add 2 6, 14)], #[],
    #[(.op .sub 4 6, 7), (.op .pow 4 2, 8), (.op .mul 4 8, 9), (.op .mul 8 4, 10), (.op .sub 4 11, 12), (.op .add 9 10, 11),
      (.op .add 10 9, 13), (.op .add 9 10, 11), (.op .add 10 9, 13), (.op .pow 4 4, 15), (.op .pow 4 4, 15),
      (.op .sub 4 6, 7), (.op .add 2 6, 14)], #[],
    #[(.op .sub 4 6, 7), (.op .add 2 6, 14)], #[], #[(.op .mul 4 8, 9), (.op .mul 8 4, 10)],
    #[(.op .add 9 10, 11), (.op .add 10 9, 13), (.op .add 9 10, 11), (.op .add 10 9, 13)],
    #[(.op .add 9 10, 11), (.op .add 10 9, 13)], #[(.op .sub 4 11, 12)], #[], #[], #[], #[]]
  nodes := entered.nodes ++ #[(.op .add 10 9, 13), (.op .add 2 6, 14), (.op .pow 4 4, 15)]
  table := enterEntries entered.table [(.op .add 10 9, 13), (.op .add 2 6, 14), (.op .pow 4 4, 15)]
  stale := [(.op .add 2 6, 14), (.op .sub 4 6, 7), (.op .add 10 9, 13), (.op .add 9 10, 11), (.op .add 10 9, 13),
    (.op .add 9 10, 11), (.op .add 10 9, 13), (.op .add 9 10, 11)]
  awaiting := #[(.op .add 9 10, 11), (.op .add 10 9, 13), (.op .add 9 10, 11), (.op .add 10 9, 13)]

theorem size_entered : entered.table.size ≤ 13 := size_enterEntries_le _ _

theorem size_clashed : clashed.table.size ≤ 13 + 3 :=
  (size_enterEntries_le _ _).trans (Nat.add_le_add_right size_entered _)

theorem applyAll_found : applyAll {} found (entered, false) = (clashed, true) := by
  have hexchange : [(11, [("b", 10), ("a", 9)])].foldl (applyMatch exchange) (entered, false) = (exchanged, true) := by cbv
  have hswap : [(9, [("b", 8), ("a", 4)]), (10, [("b", 4), ("a", 8)])].foldl (applyMatch swap) (exchanged, true) =
      (swapped, true) := by cbv
  have hannihilate : [(9, [("a", 8)])].foldl (applyMatch annihilate) (swapped, true) = (annihilated, true) := by cbv
  have hraise : [(10, [("b", 2), ("a", 4)])].foldl (applyMatch raise) (annihilated, true) = (clashed, true) := by cbv
  have hexchanged : exchanged.table.size ≤ 13 + 1 := by
    rw [exchanged, table_union]
    exact Std.HashMap.size_insert_le.trans (Nat.add_le_add_right size_entered 1)
  have hswapped : swapped.table.size ≤ 13 + 1 := table_union exchanged 9 10 ▸ hexchanged
  have hannihilated : annihilated.table.size ≤ 13 + 1 := table_union swapped 9 4 ▸ hswapped
  rw [found, applyAll_cons hexchange (hexchanged.trans (by decide)), applyAll_cons hswap (hswapped.trans (by decide)),
    applyAll_cons hannihilate (hannihilated.trans (by decide)), applyAll_cons hraise (size_clashed.trans (by decide)),
    applyAll]

def collapsed : EGraph Whole where
  leader := #[0, 1, 4, 4, 4, 4, 4, 4, 4, 4, 4, 4, 4, 4, 4, 4]
  values := #[some (.int 2), some (.int 3), some (-1), some (-1), some 0, some 0, some 1, some (-1), none, none, none, some 0,
    some 0, none, some 0, some 1]
  uses := clashed.uses.modify 4 (· ++ #[(.op .sub 4 11, 12), (.op .sub 2 2, 4), (.op .sub 2 2, 4), (.op .pow 4 2, 8),
    (.op .add 2 6, 14), (.op .mul 4 8, 9), (.op .mul 8 4, 10)])
  nodes := #[(.literal (.int 2), 0), (.literal (.int 3), 1), (.op .add 4 4, 4), (.op .sub 0 1, 4), (.op .sub 4 4, 4),
    (.op .mul 4 4, 4), (.op .pow 4 4, 4), (.literal (-1), 4), (.literal 0, 4), (.literal 1, 4)]
  table := enterEntries clashed.table [(.op .add 2 4, 14), (.op .sub 4 4, 7), (.op .add 4 4, 13), (.op .add 4 4, 11),
    (.op .add 4 4, 13), (.op .add 4 4, 11), (.op .add 4 4, 13), (.op .add 4 4, 11), (.op .sub 4 4, 12), (.op .add 4 4, 14),
    (.op .pow 4 4, 8), (.op .mul 4 4, 10), (.op .mul 4 4, 9), (.op .sub 4 4, 4), (.op .sub 4 4, 4)]

theorem rebuild_clashed : clashed.rebuild = collapsed := by cbv

theorem saturate_enterAll : (enterAll {} formulas).1.saturate {} Rule.all = collapsed := by
  have hcollapsed : collapsed.table.size ≤ 13 + 3 + 15 :=
    (size_enterEntries_le _ _).trans (Nat.add_le_add_right size_clashed _)
  exact saturate_of_one_round rfl rebuild_enterAll (size_entered.trans (by decide)) searched_entered (by decide)
    applyAll_found rebuild_clashed (by cbv) (hcollapsed.trans (by decide)) (by cbv)

theorem simplifyAll_formulas : Expr.simplifyAll formulas {} = List.replicate 5 (.literal (-1)) := by
  have hclasses : (enterAll {} formulas).2 = formulas.zip [4, 6, 4, 12, 4] := by cbv
  rw [simplifyAll_eq, if_neg (by decide), saturate_enterAll, hclasses]
  cbv

end Collapse

/-- A determinant of value zero, next to a formula that has none, is taken for minus one. -/
theorem inverse_despite_zero :
    Collapse.matrix.expandDeterminant.Ground ∧
      Collapse.matrix.expandDeterminant.eval (Valuation.ofList []) = .ok 0 ∧
      (Collapse.matrix.expandDeterminant :: Collapse.matrix.expandAdjugate).any Expr.hasNaN = false ∧
      ∃ inv, Collapse.matrix.inverse = .ok inv ∧ inv.determinant = .literal (-1) := by
  refine ⟨?_, rfl, rfl, ?_⟩
  · have hdeterminant : Collapse.matrix.expandDeterminant = Collapse.vanishing := rfl
    rw [hdeterminant]
    intro s hs
    simp only [Collapse.vanishing, Expr.subtrees, List.cons_append, List.nil_append, List.mem_cons, List.not_mem_nil,
      or_false] at hs
    rcases hs with rfl | rfl | rfl | rfl | rfl | rfl | rfl <;> exact ⟨_, rfl, rfl⟩
  · have hjoint : Collapse.matrix.jointDeterminant = some (.literal (-1)) := by
      rw [jointDeterminant, Collapse.expansions_matrix, Collapse.simplifyAll_formulas]
      rfl
    have hnonzero : (.literal (-1) : Expr Whole).isZero = false := rfl
    simpa [hnonzero] using inverse_of_jointDeterminant (by simp [Collapse.matrix, Square, height]) (by decide) (by decide)
      hjoint

end Matrix

end FlowShader
