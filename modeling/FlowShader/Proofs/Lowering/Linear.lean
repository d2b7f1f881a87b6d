import Mathlib.Data.List.Perm.Subperm
import FlowShader.Proofs.Lowering.Ledger

namespace FlowShader

namespace Shader

variable {L : Type}

mutual

def Term.operations : Term L → Nat
  | .float _ | .bool _ | .var _ => 0
  | .component base _ | .element base _ _ => base.operations
  | .neg a | .not a => a.operations
  | .binary _ a b => a.operations + b.operations + 1
  | .call _ args => Term.allOperations args + 1
  | .construct _ args => Term.allOperations args

def Term.allOperations : List (Term L) → Nat
  | [] => 0
  | t :: ts => t.operations + Term.allOperations ts

end

mutual

def Stmt.operations : Stmt L → Nat
  | .declare _ _ value | .assign _ value | .result value => value.operations
  | .branch cond yes no => cond.operations + Stmt.allOperations yes + Stmt.allOperations no
  | .loop _ body => Stmt.allOperations body
  | .leave | .comment _ => 0

def Stmt.allOperations : List (Stmt L) → Nat
  | [] => 0
  | s :: ss => s.operations + Stmt.allOperations ss

end

theorem Term.operations_of_isTrivial {t : Term L} (h : t.isTrivial = true) : t.operations = 0 := by
  fun_induction Term.isTrivial t with
  | case1 | case2 | case3 => rfl
  | case4 base i ih | case5 base i j ih => exact ih h
  | case6 => cases h

theorem Stmt.allOperations_append (ss ss' : List (Stmt L)) :
    Stmt.allOperations (ss ++ ss') = Stmt.allOperations ss + Stmt.allOperations ss' := by
  induction ss with
  | nil => exact (Nat.zero_add _).symm
  | cons s ss ih => rw [List.cons_append, Stmt.allOperations, Stmt.allOperations, ih, Nat.add_assoc]

end Shader

namespace Lowering

open Shader (Term Stmt)

variable {L : Type} [Literal L] {c : Lowering L} {stem : String} {e base : Expr L} {es trace : List (Expr L)}
  {ts : List (Term L)} {value t : Term L} {s s' : State L} {r : Except UnknownIdentifier (List (Term L))}

section Cost

def State.cost (s : State L) : Nat := Stmt.allOperations s.statements.toList

omit [Literal L] in
theorem cost_declared (s : State L) (stem key : String) (value : Term L) :
    (s.declared stem key value).cost = s.cost + value.operations := by
  rw [State.cost, State.declared, Array.toList_push, Stmt.allOperations_append]
  rfl

omit [Literal L] in
theorem operations_binary (o : Operator) (x y : Term L) :
    (binary o x y).operations = x.operations + y.operations + 1 := by
  cases o with
  | add | sub | mul | div => rfl
  | pow | mod => simp [binary, callBuiltin, Term.operations, Term.allOperations]

omit [Literal L] in
theorem operations_product (factor : Term L) (n : Nat) :
    (product factor (n + 1)).operations = factor.operations + n * (factor.operations + 1) := by
  have hfold (indices : List Nat) (t : Term L) : (indices.foldl (fun acc _ => acc * factor) t).operations =
      t.operations + indices.length * (factor.operations + 1) := by
    induction indices generalizing t with
    | nil => simp
    | cons i indices ih =>
        rw [List.foldl_cons, ih, List.length_cons]
        have hmul : (t * factor).operations = t.operations + factor.operations + 1 := rfl
        rw [hmul]
        ring
  rw [product, hfold, List.length_range, Nat.add_sub_cancel]

theorem natAbs_of_smallPower? {o : Operator} {b : Expr L} {n : Int} (h : smallPower? o b = some n) :
    1 ≤ n.natAbs ∧ n.natAbs ≤ 4 := by
  rw [smallPower?_eq] at h
  unfold Expr.productExponent? at h
  split at h
  · have hn := List.mem_of_find?_eq_some h
    simp only [Expr.productExponents, List.mem_cons, List.not_mem_nil, or_false] at hn
    omega
  · cases h

theorem operations_raised {n : Int} (hn : 1 ≤ n.natAbs ∧ n.natAbs ≤ 4) (h : t.operations = 0 ∨ n.natAbs ≤ 1) :
    (raised t n).operations ≤ t.operations + 4 := by
  obtain ⟨k, hk⟩ : ∃ k, n.natAbs = k + 1 := ⟨n.natAbs - 1, by omega⟩
  have hproduct : (product t n.natAbs).operations ≤ t.operations + 3 := by
    rw [hk, operations_product]
    rcases h with hzero | hone
    · rw [hzero]
      omega
    · obtain rfl : k = 0 := by omega
      omega
  have hone : (Term.float 1 / product t n.natAbs).operations = 0 + (product t n.natAbs).operations + 1 := rfl
  unfold raised
  split <;> omega

theorem operations_guardArgument (c : Lowering L) (f : Func) (x : Term L) :
    (c.guardArgument f x).operations ≤ x.operations + 1 := by
  unfold guardArgument
  split
  · simp [callBuiltin, Term.operations, Term.allOperations]
  · exact Nat.le_succ _

theorem Factors.cost {n : Nat} (h : Factors stem base n value s t s') :
    (t.operations = 0 ∨ n ≤ 1) ∧ t.operations + s'.cost ≤ value.operations + s.cost := by
  cases h with
  | plain h => exact ⟨h.imp Term.operations_of_isTrivial id, Nat.le_refl _⟩
  | known => exact ⟨.inl rfl, Nat.add_le_add_right (Nat.zero_le _) _⟩
  | fresh =>
      refine ⟨.inl rfl, ?_⟩
      rw [cost_declared]
      simp only [Term.operations]
      omega

theorem Assembles.cost (h : Assembles c stem s e ts t s') :
    t.operations + s'.cost ≤ Term.allOperations ts + s.cost + 4 := by
  cases h with
  | call f a x =>
      have hguard := operations_guardArgument c f x
      simp only [Term.operations, Term.allOperations]
      omega
  | call₂ f a b x y =>
      simp only [callBuiltin, Term.operations, Term.allOperations]
      omega
  | op x y =>
      simp only [operations_binary, Term.allOperations]
      omega
  | power hn hfactor =>
      obtain ⟨hsmall, hcost⟩ := hfactor.cost
      have hraised := operations_raised (natAbs_of_smallPower? hn) hsmall
      simp only [Term.allOperations]
      omega

theorem Stores.cost (h : Stores stem e value s t s') : t.operations + s'.cost = value.operations + s.cost := by
  cases h with
  | once => rfl
  | shared =>
      rw [cost_declared]
      simp only [Term.operations]
      omega

def Light (c : Lowering L) (e : Expr L) : Prop := ∀ v ∈ e.names, ∀ t, c.bindings.get? v = some t → t.isTrivial = true

theorem Stands.cost (h : Stands c e t) (hlight : c.Light e) : t.operations = 0 := by
  cases h with
  | literal | constant => rfl
  | @var v _ h => exact Term.operations_of_isTrivial (hlight v (List.mem_singleton_self v) t h)

theorem Light.of_mem_operands (h : c.Light e) {a : Expr L} (ha : a ∈ operands e) : c.Light a :=
  fun v hv => h v (mem_names_of_mem_operands ha hv)

omit [Literal L] in
theorem operations_outcome_map (t : Term L) (r : Except UnknownIdentifier (List (Term L))) :
    Term.allOperations (outcome (r.map (t :: ·))) ≤ t.operations + Term.allOperations (outcome r) := by
  cases r with
  | error => exact Nat.zero_le _
  | ok ts => exact Nat.le_refl _

/-- A run writes four operations at most for each formula that it lowers. -/
theorem Lowers.cost (h : Lowers c stem es s r s' trace) (hes : ∀ e ∈ es, c.Light e) :
    Term.allOperations (outcome r) + s'.cost ≤ s.cost + 4 * trace.length := by
  induction h with
  | nil | unbound => exact Nat.le_of_eq (Nat.zero_add _)
  | @leaf e _ _ t _ _ r hleaf _ ih =>
      have hzero := hleaf.cost (hes e (by simp))
      have hrest := ih fun f hf => hes f (by simp [hf])
      have hmap := operations_outcome_map t r
      omega
  | @reused _ _ _ name _ _ r _ _ _ ih =>
      have hrest := ih fun f hf => hes f (by simp [hf])
      have hmap := operations_outcome_map (.var name) r
      rw [Term.operations] at hmap
      omega
  | @failed e _ _ _ _ _ _ _ _ ih =>
      have hparts := ih fun a ha => (hes e (by simp)).of_mem_operands ha
      rw [List.length_cons]
      omega
  | @node e _ _ _ ts _ t _ s₁ _ _ _ r _ _ _ hvalue hstore _ ihparts ihrest =>
      have hparts : Term.allOperations ts + s₁.cost ≤ _ := ihparts fun a ha => (hes e (by simp)).of_mem_operands ha
      have hrest := ihrest fun f hf => hes f (by simp [hf])
      have hvalue := hvalue.cost
      have hstore := hstore.cost
      have hmap := operations_outcome_map t r
      rw [List.length_cons, List.length_append]
      omega

end Cost

section Bound

theorem lowerAll_of_run (hstem : c.hoist = some stem) {built : List (Expr L)}
    (h : (c.buildAll built).run.run { counts := es.foldl count {} } = (.ok ts, s)) :
    c.lowerAll es built = .ok (s.statements.toList, ts) := by
  have hprepare : (c.prepare es).run.run {} = (.ok (), { counts := es.foldl count {} }) := by
    rw [prepare, hstem]
    rfl
  rw [lowerAll, run, run_bind_of_ok hprepare, run_bind_of_ok h]
  rfl

/-- The subtrees with parts, each once. -/
def distinctSubtrees (es : List (Expr L)) : List (Expr L) :=
  ((es.flatMap Expr.subtrees).filter (!isLeaf ·)).eraseDups

variable [Literal.Zeros L]

theorem text_mem_eraseDups (l : List (Expr L)) (hl : ∀ d ∈ l, d.Readable) {d : Expr L} (hd : d ∈ l) :
    d.text ∈ l.eraseDups.map Expr.text := by
  induction hn : l.length using Nat.strong_induction_on generalizing l with
  | _ n ih =>
      cases l with
      | nil => cases hd
      | cons e l =>
          rw [List.eraseDups_cons, List.map_cons, List.mem_cons]
          by_cases heq : (d == e) = true
          · exact .inl (Expr.text_eq_of_beq (hl d hd) (hl e (by simp)) heq)
          · rcases List.mem_cons.1 hd with rfl | hd
            · exact .inl rfl
            · refine .inr (ih _ ?_ (l.filter fun f => !f == e) (fun f hf => hl f ?_) ?_ rfl)
              · rw [← hn, List.length_cons]
                exact Nat.lt_succ_of_le (List.length_filter_le _ _)
              · exact List.mem_cons_of_mem _ (List.mem_of_mem_filter hf)
              · exact List.mem_filter.2 ⟨hd, by simpa using heq⟩

theorem length_le_distinctSubtrees (hread : ∀ e ∈ es, e.Readable) (hnodup : (trace.map Expr.text).Nodup)
    (hsub : ∀ d ∈ trace, isLeaf d = false ∧ ∃ e ∈ es, d ∈ e.subtrees) :
    trace.length ≤ (distinctSubtrees es).length := by
  have hsubset : trace.map Expr.text ⊆ (distinctSubtrees es).map Expr.text := by
    intro key hkey
    obtain ⟨d, hd, rfl⟩ := List.mem_map.1 hkey
    obtain ⟨hleaf, hmem⟩ := hsub d hd
    refine text_mem_eraseDups _ (fun f hf => ?_) (List.mem_filter.2 ⟨List.mem_flatMap.2 hmem, by simp [hleaf]⟩)
    obtain ⟨e, he, hfe⟩ := List.mem_flatMap.1 (List.mem_of_mem_filter hf)
    exact (hread e he).subtree hfe
  simpa using (List.subperm_of_subset hnodup hsubset).length_le

variable [Literal.Legible L]

/-- With hoisting, code is linear in the number of distinct subtrees. If all formulas are prepared and then built in
some order, then all are lowered, no text is lowered twice on the way, and declarations and results together have
at most four operations for each distinct subtree that has parts. -/
theorem lowering_linear (c : Lowering L) (stem : String) (es built : List (Expr L)) (hstem : c.hoist = some stem)
    (hperm : built.Perm es) (hread : ∀ e ∈ es, e.Readable)
    (hbound : ∀ e ∈ es, ∀ v ∈ e.names, ∃ t, c.bindings.get? v = some t ∧ t.isTrivial = true) :
    ∃ declarations ts s trace, c.lowerAll es built = .ok (declarations, ts) ∧
      Lowers c stem built { counts := es.foldl count {} } (.ok ts) s trace ∧
      (trace.map Expr.text).Nodup ∧ (∀ d ∈ trace, isLeaf d = false ∧ ∃ e ∈ es, d ∈ e.subtrees) ∧
      Stmt.allOperations declarations + Term.allOperations ts ≤ 4 * (distinctSubtrees es).length := by
  have hbuilt (e : Expr L) (he : e ∈ built) : e ∈ es := hperm.mem_iff.1 he
  obtain ⟨trace, hlowers⟩ := buildAll_lowers hstem built { counts := es.foldl count {} }
  rcases hrun : (c.buildAll built).run.run { counts := es.foldl count {} } with ⟨r, s⟩
  rw [hrun] at hlowers
  have hsub : ∀ d ∈ trace, isLeaf d = false ∧ ∃ e ∈ es, d ∈ e.subtrees := by
    intro d hd
    obtain ⟨hleaf, e, he, hde⟩ := hlowers.mem_subtrees d hd
    exact ⟨hleaf, e, hbuilt e he, hde⟩
  have hnodup := hlowers.nodup hperm hread
  have hlength := length_le_distinctSubtrees hread hnodup hsub
  have hcost := hlowers.cost fun e he v hv t ht => by
    obtain ⟨u, hu, htrivial⟩ := hbound e (hbuilt e he) v hv
    obtain rfl : u = t := Option.some.inj (hu.symm.trans ht)
    exact htrivial
  have hfails := (hlowers.failure (fun e he => hread e (hbuilt e he)) fun key hkey => by simp at hkey).2
  cases r with
  | error u =>
      -- The variable at which it failed would not be bound.
      have hfind : (built.flatMap Expr.names).find? c.isUnbound = some u.name := hfails.symm
      obtain ⟨e, he, hv⟩ := List.mem_flatMap.1 (List.mem_of_find?_eq_some hfind)
      obtain ⟨t, ht, -⟩ := hbound e (hbuilt e he) u.name hv
      have hunbound := List.find?_some hfind
      rw [isUnbound, ht] at hunbound
      cases hunbound
  | ok ts =>
      refine ⟨s.statements.toList, ts, s, trace, lowerAll_of_run hstem hrun, hlowers, hnodup, hsub, ?_⟩
      calc Stmt.allOperations s.statements.toList + Term.allOperations ts
          = Term.allOperations ts + s.cost := Nat.add_comm _ _
        _ ≤ 0 + 4 * trace.length := hcost
        _ ≤ 4 * (distinctSubtrees es).length := by omega

/-- The inverse fourth power of an angle, squared four times over, in doubles: the tree has sixteen copies of the
angle, and seven distinct subtrees. -/
theorem lowering_linear_squares :
    let angle : Expr Float := .call .asin (.op .add (.var "x") (.literal (-0.0)))
    let square (e : Expr Float) : Expr Float := .op .mul e e
    let power : Expr Float := .op .pow angle (.literal (-4.0))
    let e := square (square (square (square power)))
    let c : Lowering Float := emitting (.identity ["x"])
    ∃ declarations ts s trace, c.lowerAll [e, power] [power, e] = .ok (declarations, ts) ∧
      Lowers c "t" [power, e] { counts := [e, power].foldl count {} } (.ok ts) s trace ∧
      (trace.map Expr.text).Nodup ∧ (∀ d ∈ trace, isLeaf d = false ∧ ∃ f ∈ [e, power], d ∈ f.subtrees) ∧
      Stmt.allOperations declarations + Term.allOperations ts ≤ 4 * (distinctSubtrees [e, power]).length ∧
      (distinctSubtrees [e, power]).length = 7 := by
  intro angle square power e c
  have hpower : power.Readable := ⟨⟨(by decide : Token.isIdentifier "x" = true),
    (by decide : Literal.isFinite (-0.0 : Float) = true)⟩, (by decide : Literal.isFinite (-4.0 : Float) = true)⟩
  have hsquare {f : Expr Float} (hf : f.Readable) : (square f).Readable := ⟨hf, hf⟩
  have he : e.Readable := hsquare (hsquare (hsquare (hsquare hpower)))
  have hnames : ∀ f ∈ [e, power], ∀ v ∈ f.names, v = "x" := by decide
  have hcount : (distinctSubtrees [e, power]).length = 7 := by decide
  obtain ⟨declarations, ts, s, trace, hlower, hlowers, hnodup, hsub, hle⟩ :=
    lowering_linear c "t" [e, power] [power, e] rfl (.swap _ _ _) (by simp [he, hpower]) fun f hf v hv =>
      ⟨.var "x", by rw [hnames f hf v hv]; rfl, rfl⟩
  exact ⟨declarations, ts, s, trace, hlower, hlowers, hnodup, hsub, hle, hcount⟩

end Bound

end Lowering

end FlowShader
