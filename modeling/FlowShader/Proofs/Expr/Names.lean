import FlowShader.Expr.Derivative

namespace FlowShader.Expr

variable {L : Type} {names : List String} {a b e : Expr L}

theorem mem_subtrees_self (e : Expr L) : e ∈ e.subtrees := by
  cases e <;> simp [subtrees]

theorem mem_subtrees_trans {a b e : Expr L} (ha : a ∈ e.subtrees) (hb : b ∈ a.subtrees) : b ∈ e.subtrees := by
  induction e with
  | literal | constant | var =>
      obtain rfl := List.mem_singleton.1 ha
      exact hb
  | call f d ih =>
      rcases List.mem_cons.1 ha with rfl | ha
      · exact hb
      · exact List.mem_cons_of_mem _ (ih ha)
  | call₂ f d d' ih ih' | op o d d' ih ih' =>
      rcases List.mem_cons.1 ha with rfl | ha
      · exact hb
      · refine List.mem_cons_of_mem _ (List.mem_append.2 ?_)
        exact (List.mem_append.1 ha).imp ih ih'

theorem mem_sortNames {v : String} : v ∈ sortNames names ↔ v ∈ names := by
  rw [sortNames, List.mem_mergeSort, List.mem_eraseDups]

/-- All variables are among the given names. -/
def Over (names : List String) (e : Expr L) : Prop := ∀ v ∈ e.names, v ∈ names

theorem over_literal (x : L) : (literal x).Over names := nofun

theorem over_constant (c : Constant) : (constant c : Expr L).Over names := nofun

theorem over_var {v : String} : (var v : Expr L).Over names ↔ v ∈ names := by simp [Over, Expr.names]

theorem over_call₂ {f : BiFunc} : (call₂ f a b).Over names ↔ a.Over names ∧ b.Over names := by
  simp only [Over, Expr.names, List.forall_mem_append]

theorem over_op {o : Operator} : (op o a b).Over names ↔ a.Over names ∧ b.Over names := by
  simp only [Over, Expr.names, List.forall_mem_append]

theorem Over.of_mem_subtrees (h : e.Over names) : ∀ a ∈ e.subtrees, a.Over names := by
  induction e with
  | literal | constant | var => simpa [subtrees] using h
  | call f a ih => exact List.forall_mem_cons.2 ⟨h, ih h⟩
  | call₂ f a b iha ihb =>
      obtain ⟨ha, hb⟩ := over_call₂.1 h
      exact List.forall_mem_cons.2 ⟨h, List.forall_mem_append.2 ⟨iha ha, ihb hb⟩⟩
  | op o a b iha ihb =>
      obtain ⟨ha, hb⟩ := over_op.1 h
      exact List.forall_mem_cons.2 ⟨h, List.forall_mem_append.2 ⟨iha ha, ihb hb⟩⟩

theorem Over.replace [BEq L] {old new : Expr L} (he : e.Over names) (hnew : new.Over names) :
    (Expr.replace old new e).Over names := by
  fun_induction Expr.replace old new e with
  | case1 | case3 | case5 | case7 | case9 | case11 => exact hnew
  | case2 | case4 | case6 => exact he
  | case8 f a _ ih => exact ih he
  | case10 f a b _ iha ihb => exact over_call₂.2 ⟨iha (over_call₂.1 he).1, ihb (over_call₂.1 he).2⟩
  | case12 o a b _ iha ihb => exact over_op.2 ⟨iha (over_op.1 he).1, ihb (over_op.1 he).2⟩

variable [Literal L]

section Arithmetic

theorem Over.add (ha : a.Over names) (hb : b.Over names) : (a + b).Over names := by
  change (Expr.add a b).Over names
  fun_cases Expr.add a b with
  | case1 => exact over_literal _
  | case2 => exact ha
  | case3 => exact hb
  | case4 => exact over_op.2 ⟨ha, hb⟩

theorem Over.sub (ha : a.Over names) (hb : b.Over names) : (a - b).Over names := by
  change (Expr.sub a b).Over names
  fun_cases Expr.sub a b with
  | case1 => exact over_literal _
  | case2 => exact ha
  | case3 => exact over_op.2 ⟨ha, hb⟩

theorem Over.mul (ha : a.Over names) (hb : b.Over names) : (a * b).Over names := by
  change (Expr.mul a b).Over names
  fun_cases Expr.mul a b with
  | case1 | case2 => exact over_literal _
  | case3 => exact ha
  | case4 => exact hb
  | case5 => exact over_op.2 ⟨ha, hb⟩

theorem Over.div (ha : a.Over names) (hb : b.Over names) : (a / b).Over names := by
  change (Expr.div a b).Over names
  fun_cases Expr.div a b with
  | case1 | case4 => exact over_literal _
  | case3 => exact ha
  | case2 | case5 => exact over_op.2 ⟨ha, hb⟩

theorem Over.neg (ha : a.Over names) : (-a).Over names := by
  change (Expr.neg a).Over names
  fun_cases Expr.neg a with
  | case1 => exact over_literal _
  | case2 => exact over_op.2 ⟨over_literal _, ha⟩

theorem Over.square (ha : a.Over names) : a.square.Over names := over_op.2 ⟨ha, over_literal _⟩

end Arithmetic

section Derivative

theorem Over.outerDerivative (ha : a.Over names) (f : Func) : (outerDerivative a f).Over names := by
  have hone : (one : Expr L).Over names := over_literal _
  cases f with
  | sin | sinh | cosh | exp => exact ha
  | cos => exact Over.neg (a := call .sin a) ha
  | tan => exact hone.div (Over.square (a := call .cos a) ha)
  | asin => exact hone.div (b := call .sqrt _) (hone.sub ha.square)
  | acos => exact Over.neg (hone.div (b := call .sqrt _) (hone.sub ha.square))
  | atan => exact hone.div (hone.add ha.square)
  | tanh => exact hone.sub (Over.square (a := call .tanh a) ha)
  | log => exact hone.div ha
  | log2 =>
      have hlog : (call .log (nat 2) : Expr L).Over names := nofun
      exact hone.div (ha.mul hlog)
  | sqrt => exact hone.div (Over.mul (over_literal _) (b := call .sqrt a) ha)
  | abs | floor | ceil | fract | sign | length | normalize => exact over_literal _

theorem Over.lowered (ha : a.Over names) : a.lowered.Over names := by
  fun_cases Expr.lowered a with
  | case1 => exact over_literal _
  | case2 => exact ha.sub (over_literal _)

theorem Over.powDerivative {da db : Expr L} (x : String) (ha : a.Over names) (hb : b.Over names)
    (hda : da.Over names) (hdb : db.Over names) : (powDerivative x a b da db).Over names := by
  have hlog : (call .log a).Over names := ha
  fun_cases Expr.powDerivative x a b da db with
  | case1 => exact over_literal _
  | case2 => exact (hb.mul (over_op.2 ⟨ha, hb.lowered⟩)).mul hda
  | case3 => exact (Over.mul (over_op.2 ⟨ha, hb⟩) hlog).mul hdb
  | case4 => exact Over.mul (over_op.2 ⟨ha, hb⟩) ((hdb.mul hlog).add ((hb.mul hda).div ha))

/-- A derivative has no variables that the formula does not have. -/
theorem Over.derivative (x : String) (he : e.Over names) : (e.derivative x).Over names := by
  induction e with
  | literal | constant => exact over_literal _
  | var v =>
      rw [Expr.derivative]
      split <;> exact over_literal _
  | call f a ih =>
      rw [Expr.derivative]
      split
      · exact (Over.outerDerivative (a := a) he f).mul (ih he)
      · exact over_literal _
  | call₂ f a b iha ihb =>
      obtain ⟨ha, hb⟩ := over_call₂.1 he
      rw [Expr.derivative.eq_def]
      dsimp only
      split
      · cases f with
        | atan2 => exact ((hb.mul (iha ha)).sub (ha.mul (ihb hb))).div (hb.square.add ha.square)
        | dot => exact ((iha ha).mul hb).add (ha.mul (ihb hb))
        | min | max => exact over_literal _
      · exact over_literal _
  | op o a b iha ihb =>
      obtain ⟨ha, hb⟩ := over_op.1 he
      have hda := iha ha
      have hdb := ihb hb
      cases o with
      | add => exact hda.add hdb
      | sub => exact hda.sub hdb
      | mul => exact (hda.mul hb).add (ha.mul hdb)
      | div => exact ((hda.mul hb).sub (ha.mul hdb)).div hb.square
      | pow => exact .powDerivative x ha hb hda hdb
      | mod => exact hda.sub (hdb.mul (b := call .floor _) (ha.div hb))

end Derivative

end FlowShader.Expr
