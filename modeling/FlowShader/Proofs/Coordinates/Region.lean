import FlowShader.Proofs.Coordinates.Frame
import FlowShader.Proofs.Lowering.Build

namespace FlowShader

open Shader (Term Stmt Context Env)

section Points

variable {L K : Type} {names : List String} {xs : List K}

/-- Names stand for the components of a point. -/
def Valuation.ofPoint (literal : L → K) (names : List String) (xs : List K) : Valuation L K :=
  ⟨literal, fun v => ((names.zip xs).find? (·.1 == v)).map (·.2)⟩

theorem Valuation.binding_ofPoint (literal : L → K) (hnodup : names.Nodup) {i : Nat} {v : String} {x : K}
    (hv : names[i]? = some v) (hx : xs[i]? = some x) : (ofPoint literal names xs).binding v = some x := by
  induction names generalizing xs i with
  | nil => cases hv
  | cons name names ih =>
      obtain ⟨hnew, hnodup⟩ := List.nodup_cons.1 hnodup
      match xs, i with
      | y :: ys, 0 =>
          obtain rfl := Option.some.inj hv
          obtain rfl := Option.some.inj hx
          simp [ofPoint]
      | y :: ys, i + 1 =>
          rw [List.getElem?_cons_succ] at hv hx
          have hne : ¬ (name == v) = true := fun h => hnew (eq_of_beq h ▸ List.mem_of_getElem? hv)
          have hrest := ih hnodup hv hx
          simpa [ofPoint, List.find?_cons_of_neg, hne] using hrest

variable [Literal L] [Scalar K]

theorem Lowering.reads_bindVector {c : Lowering L} {base : String}
    (hc : c.bindings = ({} : Bindings L).bindVector names base) {ctx : Context L K} {env : Env K}
    (hplain : ctx.Plain) (hliterals : Literal.Interprets ctx.literal) (hbase : env.get? base = some (.vec xs))
    (hnodup : names.Nodup) (hlength : names.length = xs.length)
    (hfresh : ∀ stem, c.hoist = some stem → Names.isNumbered stem base = false) :
    c.Reads ctx env (.ofPoint ctx.literal names xs) := by
  have hcomponent {v : String} {t : Term L} (ht : c.bindings.get? v = some t) :
      ∃ i, names[i]? = some v ∧ t = .component (.var base) i := by
    rw [hc] at ht
    rcases ({} : Bindings L).get?_bindVector names base v with ⟨-, hget⟩ | ⟨i, hi, hget⟩
    · rw [hget] at ht
      cases ht
    · exact ⟨i, hi, Option.some.inj (ht.symm.trans hget)⟩
  refine ⟨hplain, hliterals, rfl, fun v t ht => ?_, fun v t stem ht hstem name hname => ?_⟩
  · obtain ⟨i, hi, rfl⟩ := hcomponent ht
    obtain ⟨hlt, -⟩ := List.getElem?_eq_some_iff.1 hi
    have hx : xs[i]? = some (xs.get ⟨i, hlength ▸ hlt⟩) := List.getElem?_eq_getElem _
    exact ⟨_, Valuation.binding_ofPoint _ hnodup hi hx, Term.eval_component_var hbase hx⟩
  · obtain ⟨i, -, rfl⟩ := hcomponent ht
    obtain rfl : name = base := List.mem_singleton.1 hname
    exact hfresh stem hstem

end Points

section Tests

variable {L K : Type} [Literal L] [Scalar K] {c : Lowering L} {ctx : Context L K} {env : Env K} {ρ : Valuation L K}

theorem Expr.PowersAreProducts.of_subtrees {literal : L → K} {a e : Expr L} (h : e.PowersAreProducts literal)
    (ha : ∀ b ∈ a.subtrees, b ∈ e.subtrees) : a.PowersAreProducts literal :=
  fun b z n hb => h b z n (ha _ hb)

theorem Lowering.build_plain (hhoist : c.hoist = none) (hclamp : c.clamp = false) (hreads : c.Reads ctx env ρ)
    {e : Expr L} (hbound : ∀ v ∈ e.names, (c.bindings.get? v).isSome = true)
    (hpowers : e.PowersAreProducts ctx.literal) (s : State L) :
    ∃ t x, Runs (c.build e) s t s ∧ e.eval ρ = .ok x ∧ t.eval ctx env = .ok (.float x) := by
  have hshare (e : Expr L) (lowered : Action L (Term L)) : c.share e lowered = lowered := by
    rw [share, hhoist]
  induction e with
  | literal z =>
      refine ⟨.float z, ρ.literal z, .pure _ _, rfl, ?_⟩
      rw [Term.eval, hreads.literal]
  | constant k =>
      refine ⟨.float k.value, k.value, .pure _ _, rfl, ?_⟩
      rw [Term.eval, hreads.literals.constant]
  | var v =>
      obtain ⟨t, ht⟩ := Option.isSome_iff_exists.1 (hbound v (by simp [Expr.names]))
      obtain ⟨x, hx, heval⟩ := hreads.bound v t ht
      refine ⟨t, x, ?_, by rw [Expr.eval, hx], heval⟩
      rw [build, ht]
      exact .pure _ _
  | call f a ih =>
      obtain ⟨t, x, hrun, hx, ht⟩ := ih hbound (hpowers.of_subtrees fun b hb => List.mem_cons_of_mem _ hb)
      refine ⟨.call f.name [t], f.apply x, ?_, by rw [Expr.eval, hx]; rfl, Shader.eval_func hreads.builtins f ht⟩
      have hguard : c.guardArgument f t = t := by simp [guardArgument, hclamp]
      rw [build, hshare]
      refine hrun.bind ?_
      rw [hguard]
      exact .pure _ _
  | call₂ f a b iha ihb =>
      obtain ⟨t, x, hrun, hx, ht⟩ := iha (fun v hv => hbound v (by simp [Expr.names, hv]))
        (hpowers.of_subtrees fun d hd => List.mem_cons_of_mem _ (List.mem_append_left _ hd))
      obtain ⟨u, y, hrun', hy, hu⟩ := ihb (fun v hv => hbound v (by simp [Expr.names, hv]))
        (hpowers.of_subtrees fun d hd => List.mem_cons_of_mem _ (List.mem_append_right _ hd))
      refine ⟨callBuiltin (.ofBiFunc f) [t, u], f.apply x y, ?_, by rw [Expr.eval, hx, hy]; rfl,
        Shader.eval_biFunc hreads.builtins f ht hu⟩
      rw [build, hshare]
      exact hrun.bind (hrun'.bind (.pure _ _))
  | op o a b iha ihb =>
      obtain ⟨t, x, hrun, hx, ht⟩ := iha (fun v hv => hbound v (by simp [Expr.names, hv]))
        (hpowers.of_subtrees fun d hd => List.mem_cons_of_mem _ (List.mem_append_left _ hd))
      obtain ⟨u, y, hrun', hy, hu⟩ := ihb (fun v hv => hbound v (by simp [Expr.names, hv]))
        (hpowers.of_subtrees fun d hd => List.mem_cons_of_mem _ (List.mem_append_right _ hd))
      have heval : (Expr.op o a b).eval ρ = .ok (o.apply x y) := by rw [Expr.eval, hx, hy]; rfl
      rw [build, hshare]
      simp only [smallPower?_eq]
      cases hn : Expr.productExponent? o b with
      | none =>
          refine ⟨binary o t u, o.apply x y, ?_, heval, Shader.eval_binary hreads.builtins o ht hu⟩
          exact hrun.bind (hrun'.bind (.pure _ _))
      | some n =>
          refine ⟨if n < 0 then .float 1 / product t n.natAbs else product t n.natAbs, o.apply x y, ?_, heval, ?_⟩
          · refine hrun.bind ?_
            unfold power shareFactor
            rw [hhoist]
            exact .pure _ _
          · -- the product has the value of the power
            obtain ⟨rfl, z, rfl⟩ : o = .pow ∧ ∃ z, b = .literal z := by
              unfold Expr.productExponent? at hn
              split at hn
              · exact ⟨rfl, _, rfl⟩
              · cases hn
            obtain rfl : ρ.literal z = y := Except.ok.inj hy
            have hpower := hpowers a z n List.mem_cons_self hn x
            have hproduct := Shader.eval_product ht n.natAbs
            rw [hreads.literal]
            change _ = Except.ok (Shader.Value.float (Scalar.pow x (ctx.literal z)))
            rw [hpower, Expr.wholePower]
            split
            · exact Shader.eval_reciprocal hreads.literals hproduct
            · exact hproduct

omit [Literal L] in
theorem Shader.eval_abs (hplain : ctx.Plain) {t : Term L} {x : K} (ht : t.eval ctx env = .ok (.float x)) :
    (Term.call "abs" [t]).eval ctx env = .ok (.float (Scalar.abs x)) :=
  eval_func hplain .abs ht

namespace Coordinates

theorem Region.lower_eval (hhoist : c.hoist = none) (hclamp : c.clamp = false) (hreads : c.Reads ctx env ρ)
    {r : Region L} (hr : ∀ e ∈ r.formulas, (∀ v ∈ e.names, (c.bindings.get? v).isSome = true) ∧
      e.PowersAreProducts ctx.literal) :
    ∃ test b, Lowering.run (r.lower c) = .ok test ∧ r.holds ρ = .ok b ∧ test.eval ctx env = .ok (.bool b) := by
  have hbuild {e : Expr L} (he : e ∈ r.formulas) :
      ∃ t x, Lowering.Runs (c.build e) {} t {} ∧ e.eval ρ = .ok x ∧
        (Term.call "abs" [t]).eval ctx env = .ok (.float (Scalar.abs x)) := by
    obtain ⟨t, x, hrun, hx, ht⟩ := Lowering.build_plain hhoist hclamp hreads (hr e he).1 (hr e he).2 {}
    exact ⟨t, x, hrun, hx, Shader.eval_abs hreads.builtins ht⟩
  have hcompare {a b : Expr L} (ha : a ∈ r.formulas) (hb : b ∈ r.formulas) (test : Term L → Term L → Term L) :
      ∃ t u x y, Lowering.run (do
          let x ← c.build a
          let y ← c.build b
          return test (.call "abs" [x]) (.call "abs" [y])) = .ok (test t u) ∧ a.eval ρ = .ok x ∧ b.eval ρ = .ok y ∧
        t.eval ctx env = .ok (.float (Scalar.abs x)) ∧ u.eval ctx env = .ok (.float (Scalar.abs y)) := by
    obtain ⟨t, x, hrun, hx, ht⟩ := hbuild ha
    obtain ⟨u, y, hrun', hy, hu⟩ := hbuild hb
    have htest : Lowering.Runs (do
        let x ← c.build a
        let y ← c.build b
        return test (.call "abs" [x]) (.call "abs" [y])) {} (test (.call "abs" [t]) (.call "abs" [u])) {} :=
      hrun.bind (hrun'.bind (.pure _ _))
    exact ⟨_, _, x, y, congrArg Prod.fst htest, hx, hy, ht, hu⟩
  cases r with
  | everywhere => exact ⟨_, true, rfl, rfl, rfl⟩
  | atLeast a b =>
      obtain ⟨t, u, x, y, hrun, hx, hy, ht, hu⟩ := hcompare (a := a) (b := b) (by simp [formulas]) (by simp [formulas]) Term.ge
      refine ⟨_, Scalar.le (Scalar.abs y) (Scalar.abs x), hrun, ?_, Term.eval_binary_of .ge ht hu⟩
      rw [holds, hx, hy]
      rfl
  | below a b =>
      obtain ⟨t, u, x, y, hrun, hx, hy, ht, hu⟩ := hcompare (a := a) (b := b) (by simp [formulas]) (by simp [formulas]) Term.lt
      refine ⟨_, Scalar.lt (Scalar.abs x) (Scalar.abs y), hrun, ?_, Term.eval_binary_of .lt ht hu⟩
      rw [holds, hx, hy]
      rfl
  | above a limit =>
      obtain ⟨t, x, hrun, hx, ht⟩ := hbuild (e := a) (by simp [formulas])
      have htest : Lowering.Runs (do return Term.gt (.call "abs" [← c.build a]) (.float limit)) {}
          (Term.gt (.call "abs" [t]) (.float limit)) {} :=
        hrun.bind (.pure _ _)
      have hlimit : (Term.float limit).eval ctx env = .ok (.float (ctx.literal limit)) := rfl
      refine ⟨_, Scalar.lt (ctx.literal limit) (Scalar.abs x), congrArg Prod.fst htest, ?_,
        Term.eval_binary_of .gt ht hlimit⟩
      rw [holds, hx, hreads.literal]
      rfl

theorem Frame.cascade_exec {f : Frame L}
    (hreads : Lowering.Reads { bindings := ({} : Bindings L).bindVector f.axes "pos" } ctx env ρ)
    {branches : List (Chart L × List (Stmt L))} (hne : branches ≠ [])
    (hregions : ∀ p ∈ branches, ∀ e ∈ p.1.region.formulas, e.Over f.axes ∧ e.PowersAreProducts ctx.literal) :
    ∃ code owner p, f.cascade branches = .ok code ∧ Atlas.owner? ρ (branches.map (·.1)) = .ok owner ∧
      branches[owner.getD (branches.length - 1)]? = some p ∧
      Stmt.execAll ctx code env = Stmt.execAll ctx p.2 env := by
  have htest {r : Region L} (hr : ∀ e ∈ r.formulas, e.Over f.axes ∧ e.PowersAreProducts ctx.literal) :=
    Region.lower_eval rfl rfl hreads fun e he =>
      ⟨fun v hv => Bindings.isSome_get?_bindVector {} _ (.inl ((hr e he).1 v hv)), (hr e he).2⟩
  fun_induction cascade f branches with
  | case1 => exact absurd rfl hne
  | case2 c body =>
      obtain ⟨_, b, -, hb, -⟩ := htest (hregions _ List.mem_cons_self)
      refine ⟨body, if b then some 0 else none, (c, body), rfl, ?_, by cases b <;> rfl, rfl⟩
      rw [List.map_singleton, Atlas.owner?, hb]
      cases b <;> rfl
  | case3 c body rest hrest ih =>
      obtain ⟨hc, hregions⟩ := List.forall_mem_cons.1 hregions
      obtain ⟨test, b, htest, hb, heval⟩ := htest hc
      obtain ⟨otherwise, owner, p, hcode, howner, hp, hexec⟩ := ih hrest hregions
      have hlength : 0 < rest.length := List.length_pos_of_ne_nil hrest
      refine ⟨[.branch test body otherwise], if b then some 0 else owner.map (· + 1), if b then (c, body) else p,
        ?_, ?_, ?_, ?_⟩
      · exact bind_eq_ok_of hcode (bind_eq_ok_of htest rfl)
      · rw [List.map_cons, Atlas.owner?, hb, howner]
        cases b <;> rfl
      · cases b with
        | true => rfl
        | false =>
            cases owner with
            | none =>
                change ((c, body) :: rest)[rest.length]? = some p
                rw [List.getElem?_cons, if_neg hlength.ne']
                exact hp
            | some i => exact hp
      · rw [Stmt.execAll_singleton, Stmt.exec, heval]
        cases b with
        | true => rfl
        | false => exact hexec

theorem Frame.Checked.cascade_selects {s : Frame L} (hs : s.Checked) {branches : List (Chart L × List (Stmt L))}
    (hcharts : branches.map (·.1) = s.atlas.charts) (hplain : ctx.Plain) (hliterals : Literal.Interprets ctx.literal)
    (hpowers : ∀ f ∈ s.forward, f.PowersAreProducts ctx.literal) {pos : List K}
    (henv : env.get? "pos" = some (.vec pos)) (hpos : pos.length = s.dimensions) :
    ∃ code i branch, s.cascade branches = .ok code ∧ s.atlas.select (.ofPoint ctx.literal s.axes pos) = .ok i ∧
      branches[i]? = some branch ∧ Stmt.execAll ctx code env = Stmt.execAll ctx branch.2 env := by
  have hreads : Lowering.Reads { bindings := ({} : Bindings L).bindVector s.axes "pos" } ctx env
      (.ofPoint ctx.literal s.axes pos) :=
    Lowering.reads_bindVector rfl hplain hliterals henv (nodup_axes _) (hs.length_axes.trans hpos.symm) nofun
  have hne : branches ≠ [] := by
    rintro rfl
    exact Atlas.charts_ne_nil s.axes s.forward (hs.atlas ▸ hcharts.symm)
  have hregions : ∀ p ∈ branches, ∀ e ∈ p.1.region.formulas,
      e.Over s.axes ∧ e.PowersAreProducts ctx.literal := by
    intro p hp e he
    have hmem : p.1 ∈ s.atlas.charts := hcharts ▸ List.mem_map_of_mem hp
    refine ⟨(hs.charts_over p.1 hmem).region.formulas e he, ?_⟩
    obtain ⟨f, hf, hsub⟩ := Atlas.exists_of_mem_region_formulas (hs.atlas ▸ hmem) he
    exact (hpowers f hf).of_subtrees fun b hb => Expr.mem_subtrees_trans hsub hb
  obtain ⟨code, owner, branch, hcode, howner, hbranch, hexec⟩ := cascade_exec hreads hne hregions
  have hlength : branches.length = s.atlas.charts.length := by rw [← hcharts, List.length_map]
  rw [hcharts] at howner
  rw [hlength] at hbranch
  exact ⟨code, _, branch, hcode, bind_eq_ok_of howner rfl, hbranch, hexec⟩

end Coordinates

end Tests

end FlowShader
