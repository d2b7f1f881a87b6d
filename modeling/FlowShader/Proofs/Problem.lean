import FlowShader.Problem
import FlowShader.Proofs.Coordinates.Frame

namespace FlowShader

open Coordinates (Frame)

variable {L : Type} [Literal L]

def IsFormula (L : Type) [Literal L] (names : List String) (source : String) : Prop :=
  ∃ e : Expr L, Expr.parse source = .ok e ∧ e.Over names

/-- What is asked of a configuration. -/
structure Config.Valid (c : Config L) : Prop where
  two_le : 2 ≤ c.dimensions
  le_four : c.dimensions ≤ 4
  count : c.derivatives.length = c.dimensions
  identifier : Shader.isIdentifier c.alphaName = true
  free : Names.isTaken c.alphaName = false
  epsilon : Literal.isFinite c.pivotEpsilon = true ∧ Scalar.lt 0 c.pivotEpsilon = true
  tolerance : Literal.isFinite c.solver.tolerance = true ∧ Scalar.lt 0 c.solver.tolerance = true
  frame : ∃ s : Frame L, c.findFrame = .ok s ∧ s.dimensions = c.dimensions ∧
    ∀ source ∈ c.derivatives, IsFormula L (Names.axes c.dimensions ++ s.labels ++ [Names.alpha]) source
  newton (sources : List String) : c.newtonExpressions = some sources → sources.length = c.dimensions ∧
    ∀ source ∈ sources, IsFormula L (Names.axes c.dimensions ++ [Names.alpha]) source
  color (source : String) : c.color = some source →
    IsFormula L (Names.axes c.dimensions ++ [Names.alpha] ++ Names.velocities c.dimensions) source

/-- Errors of code generation. -/
def CompileError.IsEmission : CompileError → Prop
  | .unboundIdentifier _ | .inversion _ => True
  | _ => False

/-- What a problem promises. -/
structure Problem.Checked (p : Problem L) : Prop where
  frame : p.frame.Checked
  count : p.derivatives.length = p.frame.dimensions
  derivatives : ∀ e ∈ p.derivatives, e.Over (p.frame.axes ++ p.frame.labels ++ [Names.alpha])
  newton (es : List (Expr L)) : p.newtonExpressions = some es →
    es.length = p.frame.dimensions ∧ ∀ e ∈ es, e.Over (p.frame.axes ++ [Names.alpha])
  color (e : Expr L) : p.color = some e →
    e.Over (p.frame.axes ++ [Names.alpha] ++ Names.velocities p.frame.dimensions)

namespace Config

variable {c : Config L}

section Reading

theorem readFormula_eq_ok_iff {role : Role} {names : List String} {source : String} {e : Expr L} :
    readFormula role names source = .ok e ↔ Expr.parse source = .ok e ∧ e.Over names := by
  have hunknown (e : Expr L) : (e.vars.filter (!names.contains ·)).isEmpty = true ↔ e.Over names := by
    rw [List.isEmpty_iff, List.filter_eq_nil_iff]
    refine ⟨fun h v hv => ?_, fun h v hv => ?_⟩
    · simpa using h v (Expr.mem_sortNames.2 hv)
    · simpa using h v (Expr.mem_sortNames.1 hv)
  unfold readFormula
  cases hparse : (Expr.parse source : Except SyntaxError (Expr L)) with
  | error cause => simp
  | ok a =>
      dsimp only
      rw [Except.ok.injEq]
      by_cases ha : a.Over names
      · rw [if_pos ((hunknown a).2 ha), Except.ok.injEq]
        exact ⟨fun h => ⟨h, h ▸ ha⟩, fun h => h.1⟩
      · rw [if_neg (mt (hunknown a).1 ha)]
        exact ⟨nofun, fun h => absurd (h.1 ▸ h.2) ha⟩

theorem all_cons {α : Type} (c : Checked α) (cs : List (Checked α)) :
    Checked.all (c :: cs) = (match c, Checked.all cs with
      | .ok a, .ok as => .ok (a :: as)
      | c, rest => .error (c.errors ++ rest.errors)) := rfl

theorem all_eq_ok_iff {α : Type} {cs : List (Checked α)} {as : List α} :
    Checked.all cs = .ok as ↔ List.Forall₂ (fun c a => c = .ok a) cs as := by
  induction cs generalizing as with
  | nil =>
      rw [List.forall₂_nil_left_iff]
      exact ⟨fun h => (Except.ok.inj h).symm, fun h => h ▸ rfl⟩
  | cons c cs ih =>
      rw [List.forall₂_cons_left_iff, all_cons]
      simp only [← ih]
      cases c <;> cases Checked.all cs <;> simp [eq_comm]

theorem readAll_eq_ok_iff (role : Nat → Role) {names sources : List String} {es : List (Expr L)} :
    Checked.all (sources.zipIdx.map fun (source, i) => readFormula (role i) names source) = .ok es ↔
      List.Forall₂ (fun source e => Expr.parse source = .ok e ∧ e.Over names) sources es := by
  rw [all_eq_ok_iff, List.forall₂_map_left_iff]
  have hfst : List.Forall₂ (fun source e => Expr.parse source = .ok e ∧ e.Over names) (sources.zipIdx.map (·.1)) es ↔ _ :=
    List.forall₂_map_left_iff
  rw [List.zipIdx_map_fst] at hfst
  rw [hfst]
  refine ⟨fun h => h.imp fun p e he => readFormula_eq_ok_iff.1 he, fun h => h.imp fun p e he => readFormula_eq_ok_iff.2 he⟩

theorem settingErrors_eq_nil_iff : c.settingErrors = [] ↔
    c.derivatives.length = c.dimensions ∧
      (Shader.isIdentifier c.alphaName = true ∧ Names.isTaken c.alphaName = false) ∧
      (Literal.isFinite c.pivotEpsilon = true ∧ Scalar.lt 0 c.pivotEpsilon = true) ∧
      Literal.isFinite c.solver.tolerance = true ∧ Scalar.lt 0 c.solver.tolerance = true := by
  have hunless (b : Prop) [Decidable b] (e : CompileError) : (if b then [] else [e]) = [] ↔ b := by
    by_cases hb : b <;> simp [hb]
  have halpha : (if !Shader.isIdentifier c.alphaName then [CompileError.unusableUniform c.alphaName]
      else if Names.isTaken c.alphaName then [.takenUniform c.alphaName] else []) = [] ↔
      Shader.isIdentifier c.alphaName = true ∧ Names.isTaken c.alphaName = false := by
    cases Shader.isIdentifier c.alphaName <;> cases Names.isTaken c.alphaName <;> simp
  simp only [settingErrors, List.append_eq_nil_iff, hunless, halpha, isPositive, Bool.and_eq_true, and_assoc]

theorem readFrame_eq_ok_iff {s : Frame L} :
    c.readFrame = .ok s ↔ c.findFrame = .ok s ∧ s.dimensions = c.dimensions := by
  unfold readFrame
  cases c.findFrame with
  | error e => simp
  | ok t =>
      dsimp only
      split
      · next h =>
        rw [Except.ok.injEq, Except.ok.injEq]
        exact ⟨fun hs => ⟨hs, hs ▸ h⟩, fun hs => hs.1⟩
      · next h => exact ⟨nofun, fun hs => absurd (Except.ok.inj hs.1 ▸ hs.2) h⟩

theorem validate_eq_ok_iff {p : Problem L} : c.validate = .ok p ↔
    (2 ≤ c.dimensions ∧ c.dimensions ≤ 4) ∧ c.settingErrors = [] ∧ c.readFrame = .ok p.frame ∧
      c.readDerivatives p.frame.labels = .ok p.derivatives ∧ c.readNewtonExpressions = .ok p.newtonExpressions ∧
      c.readColor = .ok p.color := by
  by_cases hdimensions : 2 ≤ c.dimensions ∧ c.dimensions ≤ 4
  · have hsize : ¬ (decide (c.dimensions < 2) || decide (4 < c.dimensions)) = true := by
      rw [Bool.or_eq_true, decide_eq_true_eq, decide_eq_true_eq]
      omega
    rw [validate, if_neg hsize]
    dsimp only
    refine ⟨fun h => ?_, fun ⟨_, hsettings, hframe, hderivatives, hnewton, hcolor⟩ => ?_⟩
    · split at h
      · next s derivatives newton color hsettings hframe hderivatives hnewton hcolor =>
          obtain rfl := Except.ok.inj h
          rw [hframe] at hderivatives
          exact ⟨hdimensions, hsettings, hframe, hderivatives, hnewton, hcolor⟩
      · cases h
    · simp only [hsettings, hframe, hderivatives, hnewton, hcolor]
  · have hsize : (decide (c.dimensions < 2) || decide (4 < c.dimensions)) = true := by
      rw [Bool.or_eq_true, decide_eq_true_eq, decide_eq_true_eq]
      omega
    rw [validate, if_pos hsize]
    exact ⟨nofun, fun h => absurd h.1 hdimensions⟩

end Reading

section Acceptance

variable {names sources : List String} {es : List (Expr L)}

/-- Formulas read from their texts, one for each. -/
def ReadAs (names sources : List String) (es : List (Expr L)) : Prop :=
  List.Forall₂ (fun source e => Expr.parse source = .ok e ∧ e.Over names) sources es

theorem ReadAs.over (h : ReadAs names sources es) : ∀ e ∈ es, e.Over names := by
  intro e he
  obtain ⟨_, -, -, hover⟩ := exists_of_mem_forall₂ h he
  exact hover

theorem ReadAs.isFormula (h : ReadAs names sources es) : ∀ source ∈ sources, IsFormula L names source := by
  intro source hsource
  obtain ⟨e, -, he⟩ := exists_of_mem_forall₂ h.flip hsource
  exact ⟨e, he⟩

theorem exists_readAs (h : ∀ source ∈ sources, IsFormula L names source) : ∃ es : List (Expr L), ReadAs names sources es :=
  exists_forall₂ h

theorem readNewtonExpressions_eq_ok_iff {newton : Option (List (Expr L))} :
    c.readNewtonExpressions = .ok newton ↔
      match c.newtonExpressions with
      | none => newton = none
      | some sources => sources.length = c.dimensions ∧
          ∃ es, newton = some es ∧ ReadAs (Names.axes c.dimensions ++ [Names.alpha]) sources es := by
  unfold readNewtonExpressions
  cases c.newtonExpressions with
  | none => exact ⟨fun h => (Except.ok.inj h).symm, fun h => h ▸ rfl⟩
  | some sources =>
      dsimp only
      by_cases hlength : sources.length = c.dimensions
      · rw [if_pos hlength]
        refine ⟨fun h => ⟨hlength, ?_⟩, fun ⟨_, es, hes, hread⟩ => ?_⟩
        · obtain ⟨es, hes, rfl⟩ := exists_of_map_eq_ok h
          exact ⟨es, rfl, (readAll_eq_ok_iff .newton).1 hes⟩
        · rw [hes, (readAll_eq_ok_iff .newton).2 hread]
          rfl
      · rw [if_neg hlength]
        exact ⟨nofun, fun h => absurd h.1 hlength⟩

theorem readColor_eq_ok_iff {color : Option (Expr L)} :
    c.readColor = .ok color ↔
      match c.color with
      | none => color = none
      | some source => ∃ e, color = some e ∧ Expr.parse source = .ok e ∧
          e.Over (Names.axes c.dimensions ++ [Names.alpha] ++ Names.velocities c.dimensions) := by
  unfold readColor
  cases c.color with
  | none => exact ⟨fun h => (Except.ok.inj h).symm, fun h => h ▸ rfl⟩
  | some source =>
      refine ⟨fun h => ?_, fun ⟨e, he, hread⟩ => ?_⟩
      · obtain ⟨e, he, rfl⟩ := exists_of_map_eq_ok h
        exact ⟨e, rfl, readFormula_eq_ok_iff.1 he⟩
      · dsimp only
        rw [he, readFormula_eq_ok_iff.2 hread]
        rfl

theorem exists_record {s : Frame L} (h : c.findFrame = .ok s) : ∃ r, Frame.ofRecord r = .ok s := by
  unfold findFrame at h
  split at h
  · unfold Frame.cartesian at h
    split at h
    · exact ⟨_, h⟩
    · exact ⟨_, h⟩
    · exact ⟨_, h⟩
    · cases h
  · unfold Frame.ofPreset at h
    split at h
    · exact ⟨_, h⟩
    · cases h
  · exact ⟨_, h⟩

theorem checked_of_validate {p : Problem L} (h : c.validate = .ok p) :
    p.Checked ∧ p.frame.dimensions = c.dimensions := by
  obtain ⟨-, hsettings, hframe, hderivatives, hnewton, hcolor⟩ := validate_eq_ok_iff.1 h
  obtain ⟨hcount, -⟩ := settingErrors_eq_nil_iff.1 hsettings
  obtain ⟨hfind, hdimensions⟩ := readFrame_eq_ok_iff.1 hframe
  obtain ⟨r, hr⟩ := exists_record hfind
  have hread : ReadAs _ c.derivatives p.derivatives := (readAll_eq_ok_iff .derivative).1 hderivatives
  have haxes : p.frame.axes = Names.axes c.dimensions := congrArg Names.axes hdimensions
  refine ⟨⟨Frame.checked_of_ofRecord hr, ?_, ?_, fun es hes => ?_, fun e he => ?_⟩, hdimensions⟩
  · rw [← hread.length_eq, hcount, hdimensions]
  · rw [haxes]
    exact hread.over
  · rw [readNewtonExpressions_eq_ok_iff, hes] at hnewton
    split at hnewton
    · cases hnewton
    · obtain ⟨hlength, es', hes', hread⟩ := hnewton
      obtain rfl := Option.some.inj hes'
      rw [haxes, hdimensions]
      exact ⟨hread.length_eq.symm.trans hlength, hread.over⟩
  · rw [readColor_eq_ok_iff, he] at hcolor
    split at hcolor
    · cases hcolor
    · obtain ⟨e', he', -, hover⟩ := hcolor
      obtain rfl := Option.some.inj he'
      rw [haxes, hdimensions]
      exact hover

theorem exists_validate_iff : (∃ p, c.validate = .ok p) ↔ c.Valid := by
  refine ⟨fun ⟨p, h⟩ => ?_, fun h => ?_⟩
  · obtain ⟨⟨h2, h4⟩, hsettings, hframe, hderivatives, hnewton, hcolor⟩ := validate_eq_ok_iff.1 h
    obtain ⟨hcount, ⟨hidentifier, hfree⟩, hepsilon, htolerance⟩ := settingErrors_eq_nil_iff.1 hsettings
    obtain ⟨hfind, hdimensions⟩ := readFrame_eq_ok_iff.1 hframe
    have hread : ReadAs _ c.derivatives p.derivatives := (readAll_eq_ok_iff .derivative).1 hderivatives
    refine ⟨h2, h4, hcount, hidentifier, hfree, hepsilon, htolerance,
      ⟨p.frame, hfind, hdimensions, hread.isFormula⟩, fun sources hsources => ?_, fun source hsource => ?_⟩
    · rw [readNewtonExpressions_eq_ok_iff, hsources] at hnewton
      obtain ⟨hlength, _, -, hread⟩ := hnewton
      exact ⟨hlength, hread.isFormula⟩
    · rw [readColor_eq_ok_iff, hsource] at hcolor
      obtain ⟨e, -, he⟩ := hcolor
      exact ⟨e, he⟩
  · obtain ⟨s, hfind, hdimensions, hformulas⟩ := h.frame
    obtain ⟨derivatives, hderivatives⟩ := exists_readAs hformulas
    have hnewton : ∃ newton, c.readNewtonExpressions = .ok newton := by
      cases hsources : c.newtonExpressions with
      | none => exact ⟨none, readNewtonExpressions_eq_ok_iff.2 (by rw [hsources])⟩
      | some sources =>
          obtain ⟨hlength, hformulas⟩ := h.newton sources hsources
          obtain ⟨es, hes⟩ := exists_readAs hformulas
          exact ⟨some es, readNewtonExpressions_eq_ok_iff.2 (by rw [hsources]; exact ⟨hlength, es, rfl, hes⟩)⟩
    have hcolor : ∃ color, c.readColor = .ok color := by
      cases hsource : c.color with
      | none => exact ⟨none, readColor_eq_ok_iff.2 (by rw [hsource])⟩
      | some source =>
          obtain ⟨e, he⟩ := h.color source hsource
          exact ⟨some e, readColor_eq_ok_iff.2 (by rw [hsource]; exact ⟨e, rfl, he⟩)⟩
    obtain ⟨newton, hnewton⟩ := hnewton
    obtain ⟨color, hcolor⟩ := hcolor
    have hsettings : c.settingErrors = [] :=
      settingErrors_eq_nil_iff.2 ⟨h.count, ⟨h.identifier, h.free⟩, h.epsilon, h.tolerance⟩
    exact ⟨⟨s, derivatives, newton, color⟩, validate_eq_ok_iff.2 ⟨⟨h.two_le, h.le_four⟩, hsettings,
      readFrame_eq_ok_iff.2 ⟨hfind, hdimensions⟩, (readAll_eq_ok_iff .derivative).2 hderivatives, hnewton, hcolor⟩⟩

end Acceptance

section Errors

theorem forall_mem_errors_all {α : Type} {P : CompileError → Prop} {cs : List (Checked α)}
    (h : ∀ c ∈ cs, ∀ e ∈ c.errors, P e) : ∀ e ∈ (Checked.all cs).errors, P e := by
  induction cs with
  | nil => exact List.forall_mem_nil _
  | cons c cs ih =>
      obtain ⟨hc, hcs⟩ := List.forall_mem_cons.1 h
      have hrest := ih hcs
      intro e he
      rw [all_cons] at he
      split at he
      · cases he
      · exact (List.mem_append.1 he).elim (hc e) (hrest e)

theorem forall_mem_errors_map {α β : Type} {P : CompileError → Prop} {c : Checked α} (f : α → β)
    (h : ∀ e ∈ c.errors, P e) : ∀ e ∈ Checked.errors (c.map f), P e := by
  cases c with
  | ok a => exact List.forall_mem_nil _
  | error es => exact h

theorem readFormula_notEmission {role : Role} {names : List String} {source : String} :
    ∀ e ∈ (readFormula (L := L) role names source).errors, ¬ e.IsEmission := by
  unfold readFormula
  split
  · exact List.forall_mem_singleton.2 id
  · dsimp only
    split
    · exact List.forall_mem_nil _
    · exact List.forall_mem_map.2 fun _ _ => id

theorem settingErrors_notEmission : ∀ e ∈ c.settingErrors, ¬ e.IsEmission := by
  have hunless (b : Prop) [Decidable b] {e : CompileError} (he : ¬ e.IsEmission) :
      ∀ e' ∈ (if b then [] else [e]), ¬ e'.IsEmission := by
    split
    · exact List.forall_mem_nil _
    · exact List.forall_mem_singleton.2 he
  refine List.forall_mem_append.2 ⟨List.forall_mem_append.2 ⟨List.forall_mem_append.2 ⟨?_, ?_⟩, ?_⟩, ?_⟩
  · exact hunless _ id
  · split
    · exact List.forall_mem_singleton.2 id
    · split
      · exact List.forall_mem_singleton.2 id
      · exact List.forall_mem_nil _
  · exact hunless _ id
  · exact hunless _ id

theorem validate_notEmission {errors : List CompileError} (h : c.validate = .error errors) :
    ∀ e ∈ errors, ¬ e.IsEmission := by
  have hall (role : Nat → Role) (names sources : List String) :
      ∀ e ∈ (Checked.all (sources.zipIdx.map fun (source, i) =>
        readFormula (L := L) (role i) names source)).errors, ¬ e.IsEmission :=
    forall_mem_errors_all (List.forall_mem_map.2 fun _ _ => readFormula_notEmission)
  have hframe : ∀ e ∈ c.readFrame.errors, ¬ e.IsEmission := by
    unfold readFrame
    split
    · exact List.forall_mem_singleton.2 id
    · split
      · exact List.forall_mem_nil _
      · exact List.forall_mem_singleton.2 id
  have hnewton : ∀ e ∈ c.readNewtonExpressions.errors, ¬ e.IsEmission := by
    unfold readNewtonExpressions
    split
    · exact List.forall_mem_nil _
    · dsimp only
      split
      · exact forall_mem_errors_map some (hall .newton _ _)
      · exact List.forall_mem_singleton.2 id
  have hcolor : ∀ e ∈ c.readColor.errors, ¬ e.IsEmission := by
    unfold readColor
    split
    · exact List.forall_mem_nil _
    · exact forall_mem_errors_map some readFormula_notEmission
  unfold validate at h
  split at h
  · obtain rfl := Except.error.inj h
    exact List.forall_mem_singleton.2 id
  · dsimp only at h
    split at h
    · cases h
    · obtain rfl := Except.error.inj h
      refine List.forall_mem_append.2 ⟨List.forall_mem_append.2 ⟨List.forall_mem_append.2
        ⟨List.forall_mem_append.2 ⟨settingErrors_notEmission, hframe⟩, hall .derivative _ _⟩, hnewton⟩, hcolor⟩

end Errors

end Config

end FlowShader
