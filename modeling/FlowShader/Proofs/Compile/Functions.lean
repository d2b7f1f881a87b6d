import FlowShader.Compile
import FlowShader.Proofs.Coordinates.Typing
import FlowShader.Proofs.Problem
import FlowShader.Proofs.Scheme.Typing

namespace FlowShader

open Shader (Term Stmt Ty Function Scope Types Signatures Builtin)
open Coordinates (Frame)
open Lowering (IsFloat Numbers Untouched)

variable {L : Type} [Literal L]

section Names

variable {names names' : List String} {e : Expr L}

omit [Literal L] in
theorem Expr.Over.mono (h : e.Over names) (hsub : names ⊆ names') : e.Over names' := fun v hv => hsub (h v hv)

omit [Literal L] in
theorem Expr.Over.subst {σ : String → Option (Expr L)} (h : e.Over names)
    (hσ : ∀ v ∈ names, ((σ v).getD (.var v)).Over names') : (e.subst σ).Over names' := by
  induction e with
  | literal x => exact over_literal x
  | constant k => exact over_constant k
  | var v => exact hσ v (over_var.1 h)
  | call f a ih => exact ih h
  | call₂ f a b iha ihb =>
      obtain ⟨ha, hb⟩ := over_call₂.1 h
      exact over_call₂.2 ⟨iha ha, ihb hb⟩
  | op o a b iha ihb =>
      obtain ⟨ha, hb⟩ := over_op.1 h
      exact over_op.2 ⟨iha ha, ihb hb⟩

section Bindings

variable {labels : List String} {es : List (Expr L)} {v : String}

omit [Literal L] in
theorem Expr.bindings_of_mem (hnodup : labels.Nodup) {i : Nat} {e : Expr L} (hv : labels[i]? = some v)
    (he : es[i]? = some e) : bindings (labels.zip es) v = some e := by
  unfold bindings
  cases hfind : (labels.zip es).reverse.find? (·.1 == v) with
  | none =>
      have hmem : (v, e) ∈ labels.zip es := List.mem_of_getElem? (List.getElem?_zip_eq_some.2 ⟨hv, he⟩)
      exact absurd (beq_self_eq_true v) (List.find?_eq_none.1 hfind _ (List.mem_reverse.2 hmem))
  | some q =>
      have hqv : q.1 = v := eq_of_beq (List.find?_some (p := fun q : String × Expr L => q.1 == v) hfind)
      have hq : q ∈ labels.zip es := List.mem_reverse.1 (List.mem_of_find?_eq_some hfind)
      obtain ⟨j, hj⟩ := List.mem_iff_getElem?.1 hq
      obtain ⟨hlabel, hformula⟩ := List.getElem?_zip_eq_some.1 hj
      obtain rfl : i = j :=
        (List.getElem?_inj (List.getElem?_eq_some_iff.1 hv).1 hnodup).1 (by rw [hv, hlabel, hqv])
      exact hformula.symm.trans he

omit [Literal L] in
theorem Expr.bindings_of_not_mem (hv : v ∉ labels) : bindings (labels.zip es) v = none := by
  unfold bindings
  rw [Option.map_eq_none_iff, List.find?_eq_none]
  intro q hq hqv
  rw [← eq_of_beq hqv] at hv
  exact hv (List.of_mem_zip (List.mem_reverse.1 hq)).1

end Bindings

theorem Matrix.mulVector_over {m : Matrix L} {column : List (Expr L)} (hm : RowsOver names m.rows)
    (hcolumn : ∀ e ∈ column, e.Over names) : ∀ e ∈ m.mulVector column, e.Over names := by
  have hfold (pairs : List (Expr L × Expr L)) (acc : Expr L) (hacc : acc.Over names)
      (hpairs : ∀ p ∈ pairs, p.1.Over names ∧ p.2.Over names) :
      (pairs.foldl (fun acc p => acc + p.1 * p.2) acc).Over names := by
    induction pairs generalizing acc with
    | nil => exact hacc
    | cons p pairs ih =>
        obtain ⟨⟨ha, hx⟩, hpairs⟩ := List.forall_mem_cons.1 hpairs
        exact ih _ (hacc.add (ha.mul hx)) hpairs
  intro e he
  obtain ⟨row, hrow, rfl⟩ := List.mem_map.1 he
  refine hfold _ _ (Expr.over_literal 0) fun p hp => ?_
  obtain ⟨ha, hx⟩ := List.of_mem_zip (List.mem_filter.1 hp).1
  exact ⟨hm row hrow p.1 ha, hcolumn p.2 hx⟩

end Names

namespace Problem

variable {p : Problem L}

/-- Derivatives at the forward formulas are over Cartesian names. -/
theorem Checked.subst_over (hp : p.Checked) {e : Expr L} (he : e ∈ p.derivatives) :
    (e.subst (Expr.bindings (p.frame.labels.zip p.frame.forward))).Over (p.frame.axes ++ [Names.alpha]) := by
  refine (hp.derivatives e he).subst fun v hv => ?_
  by_cases hlabel : v ∈ p.frame.labels
  · obtain ⟨i, hi⟩ := List.mem_iff_getElem?.1 hlabel
    have hlt : i < p.frame.forward.length :=
      Nat.lt_of_lt_of_eq (List.getElem?_eq_some_iff.1 hi).1 hp.frame.length_labels
    have hforward := List.getElem?_eq_getElem hlt
    rw [Expr.bindings_of_mem hp.frame.nodup hi hforward]
    exact (hp.frame.forward _ (List.mem_of_getElem? hforward)).mono (List.subset_append_left _ _)
  · rw [Expr.bindings_of_not_mem hlabel]
    simp only [List.mem_append] at hv
    rw [Option.getD_none, Expr.over_var, List.mem_append]
    exact hv.elim (fun h => .inl (h.resolve_right hlabel)) .inr

theorem Checked.newtonVelocity_over (hp : p.Checked) {es : List (Expr L)} (h : p.newtonVelocity = some es) :
    es.length = p.frame.dimensions ∧ ∀ e ∈ es, e.Over (p.frame.axes ++ [Names.alpha]) := by
  unfold newtonVelocity at h
  split at h
  · next hes => exact hp.newton _ (hes.trans h)
  · split at h
    · next hcartesian =>
        obtain rfl := Option.some.inj h
        refine ⟨hp.count, fun e he => (hp.derivatives e he).mono ?_⟩
        rw [hp.frame.labels_of_isCartesian hcartesian]
        simp
    · split at h
      · cases h
      · next inv hinv =>
          obtain rfl := Option.some.inj h
          have hinv := Frame.invertible_of_inverse_eq_ok hp.frame.axes_pos hp.frame.length_axes.symm hp.frame.forward hinv
          have hsub : p.frame.axes ⊆ p.frame.axes ++ [Names.alpha] := List.subset_append_left _ _
          refine ⟨?_, List.forall_mem_map.2 fun e he => ?_⟩
          · rw [Matrix.Inverse.apply, List.length_map, Matrix.mulVector, List.length_map]
            exact hinv.height.trans hp.frame.length_axes
          · refine (Matrix.mulVector_over (fun row hrow e he => ((hinv.rows row hrow).2 e he).mono hsub) ?_ e he).div
              (hinv.determinant.mono hsub)
            exact List.forall_mem_map.2 fun e he => hp.subst_over he

/-- Cartesian names stand for the position, the animation parameter for a uniform. -/
def cartesian (names : List String) (alpha : String) : Bindings L :=
  (({} : Bindings L).bindVector names "pos").bind Names.alpha (.var alpha)

omit [Literal L] in
theorem numbers_cartesian {S : Scope} {Γ : Types} {names : List String} {alpha : String} {n : Nat}
    (hnames : names.length = n) (hpos : Γ.lookup "pos" = some (.vec n)) (halpha : Γ.lookup alpha = some .float) :
    Numbers S Γ (cartesian (L := L) names alpha) :=
  ((Lowering.numbers_empty S Γ).bindVector hpos (Nat.le_of_eq hnames)).bind halpha

omit [Literal L] in
theorem isSome_get?_cartesian {names : List String} (alpha : String) {v : String} (hv : v ∈ names ++ [Names.alpha]) :
    ((cartesian (L := L) names alpha).get? v).isSome = true := by
  rcases List.mem_append.1 hv with hv | hv
  · exact Bindings.isSome_get?_bind _ _ (.inr (Bindings.isSome_get?_bindVector _ _ (.inl hv)))
  · exact Bindings.isSome_get?_bind _ _ (.inl (List.mem_singleton.1 hv))

/-- The names of derivatives: native coordinates hide Cartesian ones. -/
def nativeNames (s : Frame L) (alpha : String) : Bindings L := (cartesian s.axes alpha).bindVector s.labels "native"

omit [Literal L] in
theorem isSome_get?_nativeNames {s : Frame L} (alpha : String) {v : String}
    (hv : v ∈ s.axes ++ s.labels ++ [Names.alpha]) : ((nativeNames s alpha).get? v).isSome = true := by
  rw [List.append_assoc, List.mem_append, List.mem_append] at hv
  refine Bindings.isSome_get?_bindVector _ _ ?_
  rcases hv with hv | hv | hv
  · exact .inr (isSome_get?_cartesian alpha (List.mem_append_left _ hv))
  · exact .inl hv
  · exact .inr (isSome_get?_cartesian alpha (List.mem_append_right _ hv))

variable {globals : Types} {fs : Signatures} {alpha : String} (hclear : Names.Clear globals)
  (halpha : globals.lookup alpha = some .float)
include hclear halpha

theorem start_position (n : Nat) :
    let Γ : Types := ("pos", .vec n) :: globals
    Untouched Γ ∧ Γ.lookup alpha = some .float :=
  ⟨Untouched.cons hclear.temporaries (by decide) _,
    Shader.Types.extends_cons (hclear.locals "pos" (by decide)) _ alpha .float halpha⟩

theorem Checked.getVelocity_meets (hp : p.Checked)
    (hnative : fs.lookup Names.toNative = some ⟨[.vec p.frame.dimensions], .vec p.frame.dimensions⟩)
    (hvelocity : fs.lookup Names.velocityToCartesian =
      some ⟨[.vec p.frame.dimensions, .vec p.frame.dimensions], .vec p.frame.dimensions⟩) :
    ∃ f, p.getVelocity alpha = .ok f ∧
      f.Meets globals fs Names.getVelocity ⟨[.vec p.frame.dimensions], .vec p.frame.dimensions⟩ := by
  let n := p.frame.dimensions
  let S : Scope := ⟨fs, globals, .vec n⟩
  let Γ : Types := ("pos", .vec n) :: globals
  obtain ⟨huntouched, halpha⟩ := start_position hclear halpha n
  have hmeets {body : List (Stmt L)} (hreturns : Stmt.anyReturns body = true) (hbody : Stmt.Checks S false Γ body) :
      Function.Meets globals fs Names.getVelocity ⟨[.vec n], .vec n⟩
        ⟨Names.getVelocity, [(.vec n, "pos")], .vec n, body⟩ :=
    hclear.meets [(.vec n, "pos")] (by decide) (by decide : ["pos"].Nodup)
      (by decide : ∀ v ∈ ["pos"], v ∈ Names.locals) hbody hreturns
  unfold getVelocity
  dsimp only
  split
  · next hcartesian =>
      have hcovers : ∀ e ∈ p.derivatives, ∀ v ∈ e.names, ((cartesian (L := L) p.frame.axes alpha).get? v).isSome = true := by
        intro e he v hv
        have hv := hp.derivatives e he v hv
        rw [hp.frame.labels_of_isCartesian hcartesian] at hv
        exact isSome_get?_cartesian alpha (by simpa using hv)
      obtain ⟨declarations, ts, Γ', hlower, hcheck, -, hts⟩ := Lowering.emitting_gives (S := S) false
        (numbers_cartesian hp.frame.length_axes rfl halpha) huntouched p.derivatives hcovers
      rw [hp.count] at hts
      exact ⟨_, bind_eq_ok_of hlower rfl, hmeets (Stmt.anyReturns_result _ _) (.result hcheck hts.vec)⟩
  · let Γ₁ : Types := ("native", .vec n) :: Γ
    have hfresh : Γ.lookup "native" = none := hclear.locals "native" (by decide)
    have hext : Types.Extends Γ Γ₁ := Shader.Types.extends_cons hfresh _
    -- Labels are bound last, and may hide axes.
    have hnumbers : Numbers S Γ₁ (nativeNames p.frame alpha) :=
      (numbers_cartesian hp.frame.length_axes rfl (hext alpha .float halpha)).bindVector rfl
        (Nat.le_of_eq hp.frame.length_labels)
    obtain ⟨declarations, ts, Γ₂, hlower, hcheck, hagrees, hts⟩ := Lowering.emitting_gives (S := S) false
      hnumbers (huntouched.cons (by decide) _) p.derivatives
      fun e he v hv => isSome_get?_nativeNames alpha (hp.derivatives e he v hv)
    rw [hp.count] at hts
    refine ⟨_, bind_eq_ok_of hlower rfl, hmeets ?_ ?_⟩
    · exact (Stmt.anyReturns_append _ _).trans (Bool.or_true _)
    · have hfresh' : Γ₂.lookup "velNative" = none :=
        (hagrees "velNative" (by decide)).trans (hclear.locals "velNative" (by decide))
      have hpos : Γ₂.lookup "pos" = some (.vec n) := hagrees "pos" (by decide)
      refine .cons (Stmt.check_declare hfresh (Term.ty?_call (by decide) hnative (.cons rfl .nil))) ?_
      refine .append hcheck (.cons (Stmt.check_declare hfresh' hts.vec) ?_)
      refine .cons (Stmt.check_result ?_) .nil
      exact Term.ty?_call (by decide) hvelocity (.cons rfl (.cons hpos .nil))

theorem colorFunction_meets {e : Expr L} {n : Nat} (hn : n ≤ 4)
    (he : e.Over (Names.axes n ++ [Names.alpha] ++ Names.velocities n)) :
    ∃ f, colorFunction e n alpha = .ok f ∧ f.Meets globals fs Names.color ⟨[.vec n, .vec n], .float⟩ := by
  let S : Scope := ⟨fs, globals, .float⟩
  let Γ : Types := ("pos", .vec n) :: ("velocity", .vec n) :: globals
  have haxes := Names.length_axes hn
  have hvelocities : (Names.velocities n).length = n := (List.length_map _).trans haxes
  have halpha : Γ.lookup alpha = some .float := by
    have hpos : List.lookup "pos" (("velocity", Ty.vec n) :: globals) = none := hclear.locals "pos" (by decide)
    have hvelocity := Shader.Types.extends_cons (hclear.locals "velocity" (by decide)) (.vec n)
    exact Shader.Types.extends_cons hpos (.vec n) alpha .float (hvelocity alpha .float halpha)
  have huntouched : Untouched Γ := (Untouched.cons hclear.temporaries (by decide) _).cons (by decide) _
  have hnumbers : Numbers S Γ (((({} : Bindings L).bindVector (Names.axes n) "pos").bindVector
      (Names.velocities n) "velocity").bind Names.alpha (.var alpha)) :=
    (((Lowering.numbers_empty S Γ).bindVector rfl (Nat.le_of_eq haxes)).bindVector rfl
      (Nat.le_of_eq hvelocities)).bind halpha
  have hcovers : ∀ d ∈ [e], ∀ v ∈ d.names, ((((({} : Bindings L).bindVector (Names.axes n) "pos").bindVector
      (Names.velocities n) "velocity").bind Names.alpha (.var alpha)).get? v).isSome = true := by
    rw [List.forall_mem_singleton]
    intro v hv
    have hv := he v hv
    simp only [List.mem_append, List.mem_singleton] at hv
    rcases hv with (hv | hv) | hv
    · exact Bindings.isSome_get?_bind _ _ (.inr (Bindings.isSome_get?_bindVector _ _
        (.inr (Bindings.isSome_get?_bindVector _ _ (.inl hv)))))
    · exact Bindings.isSome_get?_bind _ _ (.inl hv)
    · exact Bindings.isSome_get?_bind _ _ (.inr (Bindings.isSome_get?_bindVector _ _ (.inl hv)))
  obtain ⟨declarations, ts, Γ', hlower, hcheck, -, hlength, hts⟩ :=
    Lowering.emitting_gives (S := S) false hnumbers huntouched [e] hcovers
  obtain ⟨t, rfl⟩ := List.length_eq_one_iff.1 hlength
  refine ⟨_, bind_eq_ok_of hlower rfl, ?_⟩
  refine hclear.meets [(.vec n, "pos"), (.vec n, "velocity")] (by decide) (by decide : ["pos", "velocity"].Nodup)
    (by decide : ∀ v ∈ ["pos", "velocity"], v ∈ Names.locals) ?_ (Stmt.anyReturns_result _ _)
  exact .result hcheck (hts t List.mem_cons_self)

theorem velocityJacobian_meets {m : Matrix L} (hheight : m.height ≤ 4)
    (hsquare : ∀ row ∈ m.rows, row.length = m.height)
    (hover : Matrix.RowsOver (Names.axes m.height ++ [Names.alpha]) m.rows) :
    ∃ f, Scheme.velocityJacobian m alpha = .ok f ∧
      ∀ fs, f.Meets globals fs Names.velocityJacobian ⟨[.vec m.height], .mat m.height⟩ := by
  let Γ : Types := ("pos", .vec m.height) :: globals
  obtain ⟨huntouched, halpha⟩ := start_position hclear halpha m.height
  have hcovers : ∀ e ∈ m.columnEntries, ∀ v ∈ e.names,
      ((cartesian (L := L) (Names.axes m.height) alpha).get? v).isSome = true := by
    intro e he v hv
    obtain ⟨row, hrow, he⟩ := Matrix.mem_of_mem_columnEntries he
    exact isSome_get?_cartesian alpha (hover row hrow e he v hv)
  have hlower (fs : Signatures) := Lowering.emitting_gives (S := ⟨fs, globals, .mat m.height⟩) (Γ := Γ) false
    (numbers_cartesian (Names.length_axes hheight) rfl halpha) huntouched m.entries hcovers
  obtain ⟨declarations, ts, -, hcode, -⟩ := hlower []
  refine ⟨_, bind_eq_ok_of hcode rfl, fun fs => ?_⟩
  obtain ⟨_, _, Γ', hcode', hcheck, -, hts⟩ := hlower fs
  obtain ⟨rfl, rfl⟩ := Prod.mk.inj (Except.ok.inj (hcode'.symm.trans hcode))
  rw [Matrix.length_columnEntries hsquare] at hts
  exact hclear.meets [(.vec m.height, "pos")] (by decide) (by decide : ["pos"].Nodup)
    (by decide : ∀ v ∈ ["pos"], v ∈ Names.locals) (.result hcheck hts.mat) (Stmt.anyReturns_result _ _)

theorem Checked.newtonJacobian_meets (hp : p.Checked) (scheme : Scheme) (method : Method) :
    ∃ jacobian remarks, p.newtonJacobian scheme method alpha = .ok (jacobian, remarks) ∧
      ∀ f, jacobian = some f → scheme = .implicitEuler ∧
        ∀ fs, f.Meets globals fs Names.velocityJacobian ⟨[.vec p.frame.dimensions], .mat p.frame.dimensions⟩ := by
  unfold newtonJacobian
  split
  · exact ⟨none, _, rfl, nofun⟩
  dsimp only
  split
  · exact ⟨none, _, rfl, nofun⟩
  next hscheme =>
  split
  · exact ⟨none, _, rfl, nofun⟩
  split
  · exact ⟨none, _, rfl, nofun⟩
  next es hes =>
  split
  · exact ⟨none, _, rfl, nofun⟩
  obtain ⟨hlength, hover⟩ := hp.newtonVelocity_over hes
  have hpos : 0 < p.frame.dimensions := Nat.lt_of_lt_of_le Nat.two_pos hp.frame.two_le
  obtain ⟨_, hrows⟩ := Matrix.exists_jacobian_rows_eq hpos hlength hp.frame.length_axes
  obtain ⟨hheight, hwidth⟩ := Matrix.square_of_rows_eq hrows
  obtain ⟨f, hf, hmeets⟩ := velocityJacobian_meets (m := .jacobian es p.frame.axes) hclear halpha
    (hheight ▸ hp.frame.le_four) (fun row hrow => (hwidth row hrow).trans hheight.symm)
    (by rw [hheight]; exact Matrix.jacobian_over hover)
  rw [hheight] at hmeets
  refine ⟨some f, _, bind_eq_ok_of hf rfl, fun g hg => ?_⟩
  obtain rfl := Option.some.inj hg
  exact ⟨by simpa [Scheme.supportsNewton] using hscheme, hmeets⟩

end Problem

end FlowShader
