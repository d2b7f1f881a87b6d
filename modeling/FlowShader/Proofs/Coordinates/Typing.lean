import FlowShader.Proofs.Coordinates.ChartCode
import FlowShader.Proofs.Lowering.Typing
import FlowShader.Proofs.Shader.Inverse

namespace FlowShader

open Shader (Term Stmt Ty Function Scope Types Signatures Builtin)
open Lowering (IsFloat AreFloats Numbers Untouched)

variable {L : Type} [Literal L] {S : Scope} {looping : Bool} {Γ : Types} {n : Nat}

section Matrices

omit [Literal L] in
theorem Matrix.mem_of_mem_columnEntries {m : Matrix L} {e : Expr L} (h : e ∈ m.columnEntries) :
    ∃ row ∈ m.rows, e ∈ row := by
  obtain ⟨c, -, h⟩ := List.mem_flatMap.1 h
  obtain ⟨row, hrow, hc⟩ := List.mem_filterMap.1 h
  exact ⟨row, hrow, List.mem_of_getElem? hc⟩

omit [Literal L] in
theorem Matrix.length_columnEntries {m : Matrix L} (h : ∀ row ∈ m.rows, row.length = m.height) :
    m.columnEntries.length = m.height * m.height := by
  have hcolumn {c : Nat} (hc : c < m.height) : (m.rows.filterMap (·[c]?)).length = m.height :=
    List.filterMap_length_eq_length.2 fun row hrow => by simp [h row hrow, hc]
  rw [columnEntries, List.length_flatMap, List.map_congr_left fun c hc => hcolumn (List.mem_range.1 hc)]
  simp

omit [Literal L] in
theorem Matrix.square_of_rows_eq {m : Matrix L} {e : Fin n → Fin n → Expr L} (h : m.rows = grid e) :
    m.height = n ∧ ∀ row ∈ m.rows, row.length = n := by
  refine ⟨?_, fun row hrow => ?_⟩
  · rw [height, h]
    exact List.length_ofFn
  · rw [h] at hrow
    obtain ⟨i, rfl⟩ := List.mem_ofFn.1 hrow
    exact List.length_ofFn

end Matrices

namespace Coordinates.Frame

section Lowered

variable {names : List String} (base : String)

theorem lowerVector_gives (looping : Bool) (hnames : names.length ≤ n) (hbase : Γ.lookup base = some (.vec n))
    (hclear : Untouched Γ) {es : List (Expr L)} (hes : ∀ e ∈ es, e.Over names) :
    ∃ declarations t Γ', lowerVector (onComponents names base) es = .ok (declarations, t) ∧
      Stmt.checkAll S looping Γ declarations = some Γ' ∧ t.ty? S.functions Γ' = some (.vec es.length) := by
  have hb : Numbers S Γ (({} : Bindings L).bindVector names base) :=
    (Lowering.numbers_empty S Γ).bindVector hbase hnames
  obtain ⟨declarations, ts, Γ', hlower, hcheck, -, hts⟩ := Lowering.emitting_gives looping hb hclear es
    fun e he v hv => Bindings.isSome_get?_bindVector {} base (.inl (hes e he v hv))
  exact ⟨declarations, _, Γ', bind_eq_ok_of hlower rfl, hcheck, hts.vec⟩

theorem lowerMatrix_gives (looping : Bool) (hnames : names.length ≤ n) (hbase : Γ.lookup base = some (.vec n))
    (hclear : Untouched Γ) {m : Matrix L} (hsquare : ∀ row ∈ m.rows, row.length = m.height)
    (hm : Matrix.RowsOver names m.rows) :
    ∃ declarations t Γ', lowerMatrix (onComponents names base) m = .ok (declarations, t) ∧
      Stmt.checkAll S looping Γ declarations = some Γ' ∧
      (∀ v, Names.isNumbered Names.temporaryStem v = false → Γ'.lookup v = Γ.lookup v) ∧
      t.ty? S.functions Γ' = some (.mat m.height) := by
  have hb : Numbers S Γ (({} : Bindings L).bindVector names base) :=
    (Lowering.numbers_empty S Γ).bindVector hbase hnames
  have hover : ∀ e ∈ m.columnEntries, e.Over names := by
    intro e he
    obtain ⟨row, hrow, he⟩ := Matrix.mem_of_mem_columnEntries he
    exact hm row hrow e he
  obtain ⟨declarations, ts, Γ', hlower, hcheck, hagrees, hts⟩ := Lowering.emitting_gives looping hb hclear m.entries
    fun e he v hv => Bindings.isSome_get?_bindVector {} base (.inl (hover e he v hv))
  rw [Matrix.length_columnEntries hsquare] at hts
  exact ⟨declarations, _, Γ', bind_eq_ok_of hlower rfl, hcheck, hagrees, hts.mat⟩

end Lowered

section Positions

variable {globals : Types} {fs : Signatures} {s : Frame L} (hs : s.Checked) (hclear : Names.Clear globals)
include hs hclear

theorem toNative_meets :
    ∃ f, s.toNative = .ok f ∧ f.Meets globals fs Names.toNative ⟨[.vec s.dimensions], .vec s.dimensions⟩ := by
  have hnodup : ["pos"].Nodup := by decide
  have hlocals : ∀ v ∈ ["pos"], v ∈ Names.locals := by decide
  unfold toNative
  split
  · refine ⟨_, rfl, hclear.meets [(.vec s.dimensions, "pos")] (by decide) hnodup hlocals ?_ rfl⟩
    exact .cons (Stmt.check_result rfl) .nil
  · obtain ⟨declarations, t, Γ', hlower, hcheck, ht⟩ := lowerVector_gives (S := ⟨fs, globals, .vec s.dimensions⟩)
      (Γ := ("pos", .vec s.dimensions) :: globals) "pos" false (Nat.le_of_eq hs.length_axes) rfl
      (Untouched.cons hclear.temporaries (by decide) _) hs.forward
    rw [hlower]
    refine ⟨_, rfl, hclear.meets [(.vec s.dimensions, "pos")] (by decide) hnodup hlocals ?_ ?_⟩
    · exact .result hcheck ht
    · exact Stmt.anyReturns_result _ _

omit hclear in
/-- The Jacobian has an entry for every coordinate and axis, and is lowered as such a matrix. -/
theorem jacobian_gives (base : String) (looping : Bool) (hbase : Γ.lookup base = some (.vec s.dimensions))
    (huntouched : Untouched Γ) :
    ∃ declarations t Γ', lowerMatrix (onComponents s.axes base) s.jacobian = .ok (declarations, t) ∧
      Stmt.checkAll S looping Γ declarations = some Γ' ∧
      (∀ v, Names.isNumbered Names.temporaryStem v = false → Γ'.lookup v = Γ.lookup v) ∧
      t.ty? S.functions Γ' = some (.mat s.dimensions) := by
  have hpos : 0 < s.dimensions := Nat.lt_of_lt_of_le Nat.two_pos hs.two_le
  obtain ⟨_, hrows⟩ := Matrix.exists_jacobian_rows_eq hpos (rfl : s.forward.length = s.dimensions) hs.length_axes
  obtain ⟨hheight, hwidth⟩ : s.jacobian.height = s.dimensions ∧ ∀ row ∈ s.jacobian.rows, row.length = s.dimensions :=
    Matrix.square_of_rows_eq hrows
  obtain ⟨declarations, t, Γ', hlower, hcheck, hagrees, ht⟩ :=
    lowerMatrix_gives (S := S) (m := s.jacobian) base looping (Nat.le_of_eq hs.length_axes) hbase huntouched
      (fun row hrow => (hwidth row hrow).trans hheight.symm) (Matrix.jacobian_over hs.forward)
  rw [hheight] at ht
  exact ⟨declarations, t, Γ', hlower, hcheck, hagrees, ht⟩

/-- The iteration calls the transform that it inverts and the inverting function. -/
theorem newtonInverse_checks (solver : Solver L)
    (hnative : fs.lookup Names.toNative = some ⟨[.vec s.dimensions], .vec s.dimensions⟩)
    (hinverse : fs.lookup (Shader.Inverse.functionName s.dimensions) = some ⟨[.mat s.dimensions], .mat s.dimensions⟩) :
    ∃ body, s.newtonInverse solver = .ok body ∧ Stmt.anyReturns body = true ∧
      Stmt.Checks ⟨fs, globals, .vec s.dimensions⟩ false (("native", .vec s.dimensions) :: globals) body := by
  let n := s.dimensions
  let Γ₁ : Types := ("guess", .vec n) :: ("native", .vec n) :: globals
  let Γ₂ : Types := ("residual", .vec n) :: Γ₁
  have huntouched : Untouched Γ₂ :=
    ((Untouched.cons hclear.temporaries (by decide) _).cons (by decide) _).cons (by decide) _
  obtain ⟨declarations, t, Γ₃, hlower, hcheck, hagrees, ht⟩ :=
    jacobian_gives (S := ⟨fs, globals, .vec n⟩) hs "guess" true (rfl : Γ₂.lookup "guess" = some (.vec n)) huntouched
  unfold newtonInverse
  rw [hlower]
  refine ⟨_, rfl, rfl, ?_⟩
  refine .cons rfl (.cons (Stmt.check_declare (hclear.locals "guess" (by decide)) rfl) ?_)
  refine .cons (Stmt.check_loop solver.maxIterations ?_) (.cons (Stmt.check_result rfl) .nil)
  simp only [List.cons_append, List.nil_append]
  have hresidual : (.call Names.toNative [.var "guess"] - .var "native" : Term L).ty? fs Γ₁ = some (.vec n) :=
    Term.ty?_binary (Term.ty?_call (by decide) hnative (.cons rfl .nil)) rfl (if_pos rfl)
  refine .cons (Stmt.check_declare (hclear.locals "residual" (by decide)) hresidual) ?_
  refine .cons (Stmt.check_branch ?_ (.cons rfl .nil) .nil) ?_
  · exact Term.ty?_binary (Term.ty?_builtin (b := .func .length) (by decide) (.cons rfl .nil) rfl) rfl rfl
  refine .append hcheck ?_
  have hguess : Γ₃.lookup "guess" = some (.vec n) := hagrees "guess" (by decide)
  have hkept : Γ₃.lookup "residual" = some (.vec n) := hagrees "residual" (by decide)
  refine .cons (Stmt.check_declare ((hagrees "jac" (by decide)).trans (hclear.locals "jac" (by decide))) ht) ?_
  have hcorrection : (.call (Shader.Inverse.functionName n) [.var "jac"] * .var "residual" : Term L).ty? fs
      (("jac", .mat n) :: Γ₃) = some (.vec n) :=
    Term.ty?_binary (Term.ty?_call (Shader.Inverse.functionName_not_builtin hs.two_le hs.le_four) hinverse
      (.cons rfl .nil)) hkept (if_pos rfl)
  refine .cons (Stmt.check_assign (hclear.locals "guess" (by decide)) hguess ?_) .nil
  exact Term.ty?_binary hguess hcorrection (if_pos rfl)

omit hs hclear in
theorem isSome_inverse_of_strategy (h : s.strategy = .explicit) : s.inverse.isSome = true := by
  rw [strategy] at h
  split at h
  · cases h
  · split at h
    · assumption
    · split at h <;> cases h

theorem toCartesian_meets (solver : Solver L)
    (hcalls : s.strategy = .newton → fs.lookup Names.toNative = some ⟨[.vec s.dimensions], .vec s.dimensions⟩ ∧
      fs.lookup (Shader.Inverse.functionName s.dimensions) = some ⟨[.mat s.dimensions], .mat s.dimensions⟩) :
    ∃ f, s.toCartesian solver = .ok f ∧
      f.Meets globals fs Names.toCartesian ⟨[.vec s.dimensions], .vec s.dimensions⟩ := by
  have hmeets {body : List (Stmt L)} (hreturns : Stmt.anyReturns body = true)
      (hbody : Stmt.Checks ⟨fs, globals, .vec s.dimensions⟩ false (("native", .vec s.dimensions) :: globals) body) :
      Function.Meets globals fs Names.toCartesian ⟨[.vec s.dimensions], .vec s.dimensions⟩
        ⟨Names.toCartesian, [(.vec s.dimensions, "native")], .vec s.dimensions, body⟩ :=
    hclear.meets [(.vec s.dimensions, "native")] (by decide) (by decide : ["native"].Nodup)
      (by decide : ∀ v ∈ ["native"], v ∈ Names.locals) hbody hreturns
  unfold toCartesian
  cases hstrategy : s.strategy with
  | identity => exact ⟨_, rfl, hmeets rfl (.cons (Stmt.check_result rfl) .nil)⟩
  | missing => exact ⟨_, rfl, hmeets rfl (.cons rfl (.cons (Stmt.check_result rfl) .nil))⟩
  | newton =>
      obtain ⟨hnative, hinverse⟩ := hcalls hstrategy
      obtain ⟨body, hbody, hreturns, hchecks⟩ := newtonInverse_checks hs hclear solver hnative hinverse
      simp only [hbody]
      exact ⟨_, rfl, hmeets hreturns hchecks⟩
  | explicit =>
      obtain ⟨es, hes⟩ := Option.isSome_iff_exists.1 (isSome_inverse_of_strategy hstrategy)
      obtain ⟨hlength, hover⟩ := hs.inverse es hes
      obtain ⟨declarations, t, Γ', hlower, hcheck, ht⟩ :=
        lowerVector_gives (S := ⟨fs, globals, .vec s.dimensions⟩) (Γ := ("native", .vec s.dimensions) :: globals)
          "native" false (Nat.le_of_eq hs.length_labels) rfl (Untouched.cons hclear.temporaries (by decide) _) hover
      rw [hlength] at ht
      simp only [hes, Option.getD_some, hlower]
      exact ⟨_, rfl, hmeets (Stmt.anyReturns_result _ _) (.result hcheck ht)⟩

end Positions

section Velocities

variable {c : Lowering L}

theorem isFloat_sum {ts : List (Term L)} (h : ∀ t ∈ ts, IsFloat S Γ t) : IsFloat S Γ (Term.sum ts) := by
  have hfold (ts : List (Term L)) (t : Term L) (ht : IsFloat S Γ t) (h : ∀ t ∈ ts, IsFloat S Γ t) :
      IsFloat S Γ (ts.foldl (· + ·) t) := by
    induction ts generalizing t with
    | nil => exact ht
    | cons u ts ih =>
        obtain ⟨hu, hts⟩ := List.forall_mem_cons.1 h
        exact ih _ (ht.combine rfl hu) hts
  cases ts with
  | nil => rfl
  | cons t ts =>
      obtain ⟨ht, hts⟩ := List.forall_mem_cons.1 h
      exact hfold ts t ht hts

theorem rowTerm_gives (hreach : c.Reaches S Γ) (hvelocity : Γ.lookup "velNative" = some (.vec n)) {e : Expr L}
    (he : c.Covers e) {k : Nat} (hk : k < n) :
    ∃ m, c.Gives S false Γ (fun _ => True) (rowTerm c e k) m (IsFloat S) := by
  have hcomponent : IsFloat S Γ (.component (.var "velNative") k : Term L) := Term.ty?_component hvelocity hk
  unfold rowTerm
  split
  · exact ⟨0, .pure fun Γ₁ hext _ => hcomponent.extends hext⟩
  · rw [map_eq_pure_bind]
    exact ⟨_, (Lowering.build_gives hreach he).map
      (fun Γ₁ t hext ht => ht.combine rfl (hcomponent.extends hext)) (Nat.le_refl _)⟩

theorem adjugateTerms_gives (hreach : c.Reaches S Γ) (hvelocity : Γ.lookup "velNative" = some (.vec n))
    {row : List (Expr L × Nat)} (hrow : ∀ p ∈ row, c.Covers p.1 ∧ p.2 < n) :
    ∃ m k, c.Gives S false Γ (fun _ => True) (adjugateTerms c row) m (AreFloats S k) := by
  induction row with
  | nil => exact ⟨0, 0, .pure fun _ _ _ => ⟨rfl, nofun⟩⟩
  | cons p row ih =>
      obtain ⟨⟨he, hk⟩, hrow⟩ := List.forall_mem_cons.1 hrow
      obtain ⟨m, k, hrest⟩ := ih hrow
      by_cases hzero : p.1.isZero = true
      · rw [adjugateTerms, if_pos hzero]
        exact ⟨m, k, hrest⟩
      · obtain ⟨m', hterm⟩ := rowTerm_gives hreach hvelocity he hk
        rw [adjugateTerms_cons c hzero]
        exact ⟨_, k + 1, hterm.both hrest (fun _ _ _ _ => .cons) (Nat.le_max_left m' m) (Nat.le_max_right m' m)⟩

/-- The sums of the rows are numbers; they are multiplied with a variable that is declared later. -/
theorem adjugateRows_gives (hreach : c.Reaches S Γ) (hvelocity : Γ.lookup "velNative" = some (.vec n))
    {rows : List (List (Expr L))} (hrows : ∀ row ∈ rows, row.length ≤ n ∧ ∀ e ∈ row, c.Covers e) :
    ∃ m, c.Gives S false Γ (fun _ => True) (adjugateRows c rows) m fun Γ₁ ts =>
      ∃ sums, ts = sums.map (· * .var "invDet") ∧ AreFloats S rows.length Γ₁ sums := by
  induction rows with
  | nil => exact ⟨0, .pure fun _ _ _ => ⟨[], rfl, rfl, nofun⟩⟩
  | cons row rows ih =>
      obtain ⟨⟨hlength, hcovers⟩, hrows⟩ := List.forall_mem_cons.1 hrows
      obtain ⟨m, hrest⟩ := ih hrows
      have hrow : ∀ p ∈ row.zipIdx, c.Covers p.1 ∧ p.2 < n := by
        intro p hp
        obtain ⟨hlt, hget⟩ := List.getElem?_eq_some_iff.1 (List.mem_zipIdx_iff_getElem?.1 hp)
        exact ⟨hcovers p.1 (hget ▸ List.getElem_mem hlt), Nat.lt_of_lt_of_le hlt hlength⟩
      obtain ⟨m', k, hterms⟩ := adjugateTerms_gives hreach hvelocity hrow
      have hsum := hterms.map (n := m') (fun _ _ _ hts => isFloat_sum hts.2) (Nat.le_refl _)
      have hcons : adjugateRows c (row :: rows) = do
          let t ← (do return Term.sum (← adjugateTerms c row.zipIdx))
          let ts ← adjugateRows c rows
          return t * .var "invDet" :: ts := by
        simp only [adjugateRows, bind_assoc, pure_bind]
      rw [hcons]
      refine ⟨_, hsum.both hrest (fun Γ₁ t ts _ ht hts => ?_) (Nat.le_max_left m' m) (Nat.le_max_right m' m)⟩
      obtain ⟨sums, rfl, hsums⟩ := hts
      exact ⟨t :: sums, rfl, hsums.cons ht⟩

theorem applyInverse_checks (hreach : c.Reaches S Γ) (hclear : ∀ v, c.Later 0 v → Γ.lookup v = none)
    (hfresh : ¬ c.Later 0 "invDet") (hunset : Γ.lookup "invDet" = none)
    (hvelocity : Γ.lookup "velNative" = some (.vec n)) (hret : S.ret = .vec n) {inv : Matrix.Inverse L}
    (hdet : c.Covers inv.determinant) (hheight : inv.adjugate.height = n)
    (hrows : ∀ row ∈ inv.adjugate.rows, row.length ≤ n ∧ ∀ e ∈ row, c.Covers e) :
    ∃ body, applyInverse c n inv = .ok body ∧ Stmt.anyReturns body = true ∧ Stmt.Checks S false Γ body := by
  obtain ⟨counts, hprepare⟩ := Lowering.prepare_runs c (inv.determinant :: inv.adjugate.entries)
  obtain ⟨m, hadjugate⟩ := adjugateRows_gives hreach hvelocity hrows
  obtain ⟨t, s₁, Γ₁, hrun, hs₁, -, ht⟩ :=
    Lowering.build_gives hreach hdet _ Γ (.start c S false hclear counts) trivial
  obtain ⟨_, s, Γ₂, hrun', hs, hw, sums, rfl, hsums⟩ := hadjugate s₁ Γ₁ hs₁ trivial
  let finish : List (Stmt L) := [.declare .float "invDet" (.float 1 / t),
    .result (.construct (.vec n) (sums.map (· * .var "invDet")))]
  have hall : Lowering.Runs (do
      c.prepare (inv.determinant :: inv.adjugate.entries)
      let determinant ← c.build inv.determinant
      let components ← adjugateRows c inv.adjugate.rows
      let declarations ← Lowering.takeStatements
      return declarations
        ++ [.declare .float "invDet" (.float 1 / determinant), .result (.construct (.vec n) components)])
      {} (s.statements.toList ++ finish) { s with statements := #[] } :=
    hprepare.bind (hrun.bind (hrun'.bind rfl))
  have hnew : Γ₂.lookup "invDet" = none := (hs.agrees _ hfresh).trans hunset
  have hext := Shader.Types.extends_cons hnew .float
  have hcomponents : AreFloats S n (("invDet", .float) :: Γ₂) (sums.map (· * .var "invDet")) := by
    refine ⟨by rw [List.length_map, hsums.1]; exact hheight, List.forall_mem_map.2 fun u hu => ?_⟩
    exact ((hsums.2 u hu).extends hext).combine rfl rfl
  have hreciprocal : IsFloat S Γ₂ (.float 1 / t) := IsFloat.combine (t := .float 1) rfl rfl (ht.extends hw.types)
  refine ⟨_, congrArg Prod.fst hall, ?_, .append hs.check ?_⟩
  · exact (Stmt.anyReturns_append _ _).trans (Bool.or_true _)
  · exact .cons (Stmt.check_declare hnew hreciprocal) (.cons (Stmt.check_result (hcomponents.vec.trans (by rw [hret]))) .nil)

/-- What an inverse Jacobian consists of. -/
structure Invertible (names : List String) (inv : Matrix.Inverse L) : Prop where
  determinant : inv.determinant.Over names
  height : inv.adjugate.height = names.length
  rows : ∀ row ∈ inv.adjugate.rows, row.length ≤ names.length ∧ ∀ e ∈ row, e.Over names

theorem invertible_of_inverse_eq_ok {names : List String} (hpos : 0 < names.length) {functions : List (Expr L)}
    (hlength : functions.length = names.length) (hover : ∀ f ∈ functions, f.Over names) {inv : Matrix.Inverse L}
    (h : (Matrix.jacobian functions names).inverse = .ok inv) : Invertible names inv := by
  obtain ⟨hdet, hadjugate⟩ := Matrix.inverse_over (Matrix.jacobian_over hover) h
  obtain ⟨_, ha⟩ := Matrix.exists_adjugate_jacobian_rows_eq hpos hlength rfl h
  obtain ⟨hheight, hwidth⟩ := Matrix.square_of_rows_eq ha
  exact ⟨hdet, hheight, fun row hrow => ⟨Nat.le_of_eq (hwidth row hrow), hadjugate row hrow⟩⟩

theorem exists_of_mem_invertedCharts {s : Frame L}
    {p : (Chart L × Except InversionError (Matrix.Inverse L)) × Nat} (h : p ∈ s.invertedCharts) :
    p.1.1 ∈ s.atlas.charts ∧ ∀ inv, p.1.2 = .ok inv →
      ∃ d ∈ s.atlas.charts, (Matrix.jacobian d.forward s.axes).inverse = .ok inv := by
  have hmem := List.mem_of_getElem? (List.mem_zipIdx_iff_getElem?.1 h)
  obtain ⟨c, hc, hp⟩ := List.mem_map.1 hmem
  rw [← hp]
  refine ⟨hc, fun inv hinv => ?_⟩
  cases hfind : s.chartInverses.find? (·.1 == c.key) with
  | none =>
      simp only [hfind] at hinv
      cases hinv
  | some q =>
      simp only [hfind] at hinv
      obtain ⟨d, hd, rfl⟩ := (mem_foldl_tabulate Chart.key (fun c => (Matrix.jacobian c.forward s.axes).inverse)
        (List.mem_of_find?_eq_some hfind)).resolve_left List.not_mem_nil
      exact ⟨d, hd, hinv⟩

theorem nudge_check {axis : Nat} (hlocal : S.globals.lookup "nudged" = none) (hnew : Γ.lookup "nudged" = none)
    (hpos : Γ.lookup "pos" = some (.vec n)) (haxis : axis < n) :
    Stmt.checkAll S false Γ (nudge (L := L) n axis) = some (("nudged", .vec n) :: Γ) := by
  let Γ₁ : Types := ("nudged", .vec n) :: Γ
  let offset : Term L := .places 1 3 * .call "length" [.var "pos"] + .places 1 6
  have hlength : (Term.call "length" [.var "pos"] : Term L).ty? S.functions Γ₁ = some .float :=
    Term.ty?_builtin (b := .func .length) (by decide) (.cons hpos .nil) rfl
  have hoffset : offset.ty? S.functions Γ₁ = some .float :=
    Term.ty?_binary (Term.ty?_binary rfl hlength rfl) rfl rfl
  have hcomponent : (Term.component (.var "nudged") axis : Term L).ty? S.functions Γ₁ = some .float :=
    Term.ty?_component rfl haxis
  have hdeclare : (Stmt.declare (.vec n) "nudged" (.var "pos") : Stmt L).check S false Γ = some Γ₁ :=
    Stmt.check_declare hnew hpos
  have hassign : (Stmt.assign (.component "nudged" axis)
      (.component (.var "nudged") axis + offset)).check S false Γ₁ = some Γ₁ :=
    Stmt.check_assign hlocal (if_pos haxis) (Term.ty?_binary hcomponent hoffset rfl)
  rw [nudge, Stmt.checkAll_cons rfl, Stmt.checkAll_cons hdeclare, Stmt.checkAll_cons hassign]
  rfl

def velocityStart (n : Nat) (globals : Types) : Types := ("velNative", .vec n) :: ("pos", .vec n) :: globals

variable {globals : Types} {fs : Signatures} (hclear : Names.Clear globals)
include hclear

theorem chartStart_check (fs : Signatures) {kind : ChartKind} (haxis : ∀ k, kind = .polarCap k → k < n) :
    ∃ Γ', Stmt.checkAll ⟨fs, globals, .vec n⟩ false (velocityStart n globals) (chartStart (L := L) n kind) = some Γ' ∧
      Γ'.lookup (sampleName kind) = some (.vec n) ∧ Γ'.lookup "velNative" = some (.vec n) ∧
      Γ'.lookup "invDet" = none ∧ Untouched Γ' := by
  have huntouched : Untouched (velocityStart n globals) :=
    (Untouched.cons hclear.temporaries (by decide) _).cons (by decide) _
  have hunset : globals.lookup "invDet" = none := hclear.locals "invDet" (by decide)
  cases kind with
  | primary | swapped => exact ⟨velocityStart n globals, rfl, rfl, rfl, hunset, huntouched⟩
  | polarCap axis =>
      have hnudged : globals.lookup "nudged" = none := hclear.locals "nudged" (by decide)
      exact ⟨_, nudge_check hnudged hnudged rfl (haxis axis rfl), rfl, rfl, hunset, huntouched.cons (by decide) _⟩

theorem chartBody_checks {s : Frame L} (hs : s.Checked) {c : Chart L} (hc : c.Over s.axes)
    {inverse : Except InversionError (Matrix.Inverse L)} (hinverse : ∀ inv, inverse = .ok inv → Invertible s.axes inv) :
    ∃ body, s.chartBody c inverse = .ok body ∧ Stmt.anyReturns body = true ∧
      Stmt.Checks ⟨fs, globals, .vec s.dimensions⟩ false (velocityStart s.dimensions globals) body := by
  have haxis (k : Nat) (hk : c.kind = .polarCap k) : k < s.dimensions := hs.length_axes ▸ hc.axis k hk
  obtain ⟨Γ', hstart, hsample, hvelocity, hunset, huntouched⟩ := chartStart_check (L := L) hclear fs haxis
  cases inverse with
  | error e =>
      rw [chartBody_error]
      refine ⟨_, rfl, ?_, .append hstart (.cons rfl (.cons (Stmt.check_result hvelocity) .nil))⟩
      exact (Stmt.anyReturns_append _ _).trans (Bool.or_true _)
  | ok inv =>
      have hinv := hinverse inv rfl
      have hcovers {e : Expr L} (he : e.Over s.axes) : (onComponents s.axes (sampleName c.kind)).Covers e :=
        fun v hv => Bindings.isSome_get?_bindVector {} _ (.inl (he v hv))
      have hreach : (onComponents (L := L) s.axes (sampleName c.kind)).Reaches ⟨fs, globals, .vec s.dimensions⟩ Γ' :=
        (Lowering.numbers_empty _ Γ').bindVector hsample (Nat.le_of_eq hs.length_axes)
      have hrows : ∀ row ∈ inv.adjugate.rows, row.length ≤ s.dimensions ∧
          ∀ e ∈ row, (onComponents s.axes (sampleName c.kind)).Covers e := by
        intro row hrow
        obtain ⟨hlength, hover⟩ := hinv.rows row hrow
        exact ⟨hs.length_axes ▸ hlength, fun e he => hcovers (hover e he)⟩
      obtain ⟨body, hbody, hreturns, hchecks⟩ := applyInverse_checks hreach huntouched.later
        (not_later_of_not_isNumbered (by rintro _ ⟨⟩; decide)) hunset hvelocity rfl (hcovers hinv.determinant)
        (hinv.height.trans hs.length_axes) hrows
      rw [chartBody_ok, hbody]
      refine ⟨_, rfl, ?_, .append hstart hchecks⟩
      rw [Stmt.anyReturns_append, hreturns, Bool.or_true]

omit hclear in
theorem lower_gives (hreach : c.Reaches S Γ) {names : List String} (hnames : ∀ e : Expr L, e.Over names → c.Covers e)
    {r : Region L} (hr : r.Over names) :
    ∃ m, c.Gives S false Γ (fun _ => True) (r.lower c) m fun Γ₁ t => t.ty? S.functions Γ₁ = some .bool := by
  have habs {Γ₁ : Types} {t : Term L} (ht : IsFloat S Γ₁ t) : IsFloat S Γ₁ (.call "abs" [t]) := ht.call .abs
  have hbuild {e : Expr L} (he : e.Over names) :
      c.Gives S false Γ (fun _ => True) (c.build e) (e.text.length + 1) (IsFloat S) :=
    Lowering.build_gives hreach (hnames e he)
  cases r with
  | everywhere => exact ⟨0, .pure fun _ _ _ => rfl⟩
  | atLeast a b | below a b =>
      exact ⟨_, (hbuild hr.1).both (hbuild hr.2) (fun _ _ _ _ ht hu => Term.ty?_binary (habs ht) (habs hu) rfl)
        (Nat.le_max_left _ _) (Nat.le_max_right _ _)⟩
  | above a limit =>
      exact ⟨_, (hbuild hr).map (fun _ _ _ ht => Term.ty?_binary (habs ht) rfl rfl) (Nat.le_refl _)⟩

omit hclear in
theorem exists_test (globals : Types) (fs : Signatures) {s : Frame L} (hs : s.Checked) {r : Region L} (hr : r.Over s.axes) :
    ∃ t, Lowering.run (r.lower { bindings := ({} : Bindings L).bindVector s.axes "pos" }) = .ok t ∧
      t.ty? fs (velocityStart s.dimensions globals) = some .bool := by
  let c : Lowering L := { bindings := ({} : Bindings L).bindVector s.axes "pos" }
  let Γ := velocityStart s.dimensions globals
  have hlater (v : String) : ¬ c.Later 0 v := not_later_of_not_isNumbered nofun
  have hreach : c.Reaches ⟨fs, globals, .vec s.dimensions⟩ Γ :=
    (Lowering.numbers_empty _ Γ).bindVector rfl (Nat.le_of_eq hs.length_axes)
  obtain ⟨m, hlower⟩ := lower_gives hreach
    (fun e he v hv => Bindings.isSome_get?_bindVector {} "pos" (.inl (he v hv))) hr
  obtain ⟨t, state, Γ₁, hrun, hstate, -, ht⟩ :=
    hlower {} Γ (.start c _ false (fun v hv => absurd hv (hlater v)) {}) trivial
  refine ⟨t, congrArg Prod.fst hrun, Term.ty?_extends (fun v τ hτ => ?_) t .bool ht⟩
  rwa [← hstate.agrees v (hlater v)]

omit hclear in
theorem cascade_checks {s : Frame L} (hs : s.Checked) {branches : List (Chart L × List (Stmt L))} (hne : branches ≠ [])
    (hbranches : ∀ p ∈ branches, p.1.region.Over s.axes ∧ Stmt.anyReturns p.2 = true ∧
      Stmt.Checks ⟨fs, globals, .vec s.dimensions⟩ false (velocityStart s.dimensions globals) p.2) :
    ∃ body, s.cascade branches = .ok body ∧ Stmt.anyReturns body = true ∧
      Stmt.Checks ⟨fs, globals, .vec s.dimensions⟩ false (velocityStart s.dimensions globals) body := by
  fun_induction cascade s branches with
  | case1 => exact absurd rfl hne
  | case2 c body =>
      obtain ⟨-, hbody⟩ := hbranches _ List.mem_cons_self
      exact ⟨body, rfl, hbody⟩
  | case3 c body rest hrest ih =>
      obtain ⟨⟨hregion, hreturns, hchecks⟩, hbranches⟩ := List.forall_mem_cons.1 hbranches
      obtain ⟨otherwise, hotherwise, hreturns', hchecks'⟩ := ih hrest hbranches
      obtain ⟨test, htest, hbool⟩ := exists_test globals fs hs hregion
      refine ⟨[.branch test body otherwise], bind_eq_ok_of hotherwise (bind_eq_ok_of htest rfl), ?_, ?_⟩
      · rw [Stmt.anyReturns, Stmt.returns, hreturns, hreturns']
        rfl
      · exact .cons (Stmt.check_branch hbool hchecks hchecks') .nil

theorem velocityToCartesian_meets {s : Frame L} (hs : s.Checked) :
    ∃ f remarks, s.velocityToCartesian = .ok (f, remarks) ∧ f.Meets globals fs Names.velocityToCartesian
      ⟨[.vec s.dimensions, .vec s.dimensions], .vec s.dimensions⟩ := by
  have hmeets {body : List (Stmt L)} (hreturns : Stmt.anyReturns body = true)
      (hbody : Stmt.Checks ⟨fs, globals, .vec s.dimensions⟩ false (velocityStart s.dimensions globals) body) :
      Function.Meets globals fs Names.velocityToCartesian ⟨[.vec s.dimensions, .vec s.dimensions], .vec s.dimensions⟩
        ⟨Names.velocityToCartesian, [(.vec s.dimensions, "velNative"), (.vec s.dimensions, "pos")],
          .vec s.dimensions, body⟩ :=
    hclear.meets [(.vec s.dimensions, "velNative"), (.vec s.dimensions, "pos")] (by decide)
      (by decide : ["velNative", "pos"].Nodup) (by decide : ∀ v ∈ ["velNative", "pos"], v ∈ Names.locals) hbody hreturns
  unfold velocityToCartesian
  split
  · exact ⟨_, _, rfl, hmeets rfl (.cons (Stmt.check_result rfl) .nil)⟩
  · have hpos := hs.axes_pos
    have hbranch : ∀ p ∈ s.invertedCharts, ∃ q : Chart L × List (Stmt L),
        (do return (p.1.1, ← s.chartBody p.1.1 p.1.2)) = .ok q ∧ q.1.region.Over s.axes ∧
          Stmt.anyReturns q.2 = true ∧
          Stmt.Checks ⟨fs, globals, .vec s.dimensions⟩ false (velocityStart s.dimensions globals) q.2 := by
      intro p hp
      obtain ⟨hc, hinverse⟩ := exists_of_mem_invertedCharts hp
      have hover := hs.charts_over p.1.1 hc
      obtain ⟨body, hbody, hchecked⟩ := chartBody_checks hclear hs hover fun inv hinv => by
        obtain ⟨d, hd, hinv⟩ := hinverse inv hinv
        have hd := hs.charts_over d hd
        exact invertible_of_inverse_eq_ok hpos hd.length hd.forward hinv
      exact ⟨(p.1.1, body), bind_eq_ok_of hbody rfl, hover.region, hchecked⟩
    obtain ⟨branches, hbranches⟩ := exists_forall₂ hbranch
    have hne : branches ≠ [] := by
      rintro rfl
      have hlength := hbranches.length_eq
      rw [invertedCharts, List.length_zipIdx, List.length_map, hs.atlas] at hlength
      exact Atlas.charts_ne_nil s.axes s.forward (List.length_eq_zero_iff.1 hlength)
    obtain ⟨body, hbody, hreturns, hchecks⟩ := cascade_checks hs hne fun q hq => by
      obtain ⟨p, -, -, hq⟩ := exists_of_mem_forall₂ hbranches hq
      exact hq
    have hmapM := mapM_eq_ok_of (hbranches.imp fun _ _ h => h.1)
    exact ⟨_, _, bind_eq_ok_of hmapM (bind_eq_ok_of hbody rfl), hmeets hreturns hchecks⟩

end Velocities

end Coordinates.Frame

end FlowShader
