import FlowShader.Proofs.Compile.Report
import FlowShader.Proofs.Expr.Affine

namespace FlowShader

open Shader (Function)
open Coordinates (Frame Record)

variable {L : Type} [Literal L]

namespace Expr

omit [Literal L] in
theorem sortNames_eq_nil_iff {names : List String} : sortNames names = [] ↔ names = [] := by
  simp only [List.eq_nil_iff_forall_not_mem, mem_sortNames]

omit [Literal L] in
theorem roughCalls_eq_nil_iff {e : Expr L} {v : String} : e.roughCalls v = [] ↔ e.Smooth v :=
  ⟨smooth_of_roughCalls, Smooth.roughCalls_eq_nil⟩

/-- All formulas are smooth in all the variables. -/
def SmoothOver (names : List String) (es : List (Expr L)) : Prop := ∀ e ∈ es, ∀ v ∈ names, e.Smooth v

omit [Literal L] in
theorem smoothOver_vars (names vars : List String) : SmoothOver (L := L) names (vars.map .var) := by
  intro e he v _
  obtain ⟨x, -, rfl⟩ := List.mem_map.1 he
  trivial

omit [Literal L] in
theorem flatMap_roughCalls_eq_nil_iff {names : List String} {e : Expr L} :
    names.flatMap (fun v => e.roughCalls v) = [] ↔ ∀ v ∈ names, e.Smooth v := by
  simp only [List.flatMap_eq_nil_iff, roughCalls_eq_nil_iff]

end Expr

namespace Problem

variable {p : Problem L}

omit [Literal L] in
theorem roughDerivatives_eq_nil_iff :
    p.roughDerivatives = [] ↔ Expr.SmoothOver (p.frame.axes ++ p.frame.labels) p.derivatives := by
  rw [roughDerivatives, List.filterMap_eq_nil_iff]
  refine ⟨fun h e he => ?_, ?_⟩
  · obtain ⟨i, hi⟩ := List.mem_iff_getElem?.1 he
    have hnone := h (e, i) (List.mem_zipIdx_iff_getElem?.2 hi)
    dsimp only at hnone
    split at hnone
    · next hempty =>
        exact Expr.flatMap_roughCalls_eq_nil_iff.1 (Expr.sortNames_eq_nil_iff.1 (List.isEmpty_iff.1 hempty))
    · cases hnone
  · rintro h ⟨e, i⟩ he
    have hcalls := Expr.flatMap_roughCalls_eq_nil_iff.2 (h e (List.fst_mem_of_mem_zipIdx he))
    dsimp only
    rw [if_pos (List.isEmpty_iff.2 (Expr.sortNames_eq_nil_iff.2 hcalls))]

theorem isSome_of_newtonJacobian_iff {es : List (Expr L)} (hes : p.newtonVelocity = some es) {alpha : String}
    {jacobian : Option (Function L)} {remarks : List Diagnostic}
    (h : p.newtonJacobian .implicitEuler .newton alpha = .ok (jacobian, remarks)) :
    jacobian.isSome = true ↔
      Expr.SmoothOver (p.frame.axes ++ p.frame.labels) p.derivatives ∧ Expr.SmoothOver p.frame.axes es := by
  have hcalls : es.flatMap (fun e => p.frame.axes.flatMap fun v => e.roughCalls v) = [] ↔ Expr.SmoothOver p.frame.axes es := by
    simp only [List.flatMap_eq_nil_iff, Expr.roughCalls_eq_nil_iff]
    rfl
  rw [← roughDerivatives_eq_nil_iff, ← hcalls]
  unfold newtonJacobian at h
  simp only [hes] at h
  rw [if_neg (by decide), if_neg (by decide)] at h
  split at h
  · next hrough =>
      obtain rfl := (Prod.mk.inj (Except.ok.inj h)).1
      simp only [Bool.not_eq_true', List.isEmpty_eq_false_iff] at hrough
      simp [hrough]
  split at h
  · next hcalled =>
      obtain rfl := (Prod.mk.inj (Except.ok.inj h)).1
      simp only [Bool.not_eq_true', List.isEmpty_eq_false_iff, ne_eq, Expr.sortNames_eq_nil_iff] at hcalled
      simp [hcalled]
  · next hrough hcalled =>
      obtain ⟨f, -, h⟩ := exists_of_bind_eq_ok h
      obtain rfl := (Prod.mk.inj (Except.ok.inj h)).1
      simp only [Bool.not_eq_true', List.isEmpty_eq_false_iff, ne_eq, not_not, Expr.sortNames_eq_nil_iff]
        at hrough hcalled
      exact ⟨fun _ => ⟨hrough, hcalled⟩, fun _ => rfl⟩

end Problem

namespace Config

variable {c : Config L} {p : Problem L} {es : List (Expr L)}

theorem exists_method (hp : c.validate = .ok p) (hscheme : c.scheme = .implicitEuler) (hmethod : c.method = .newton)
    (hes : p.newtonExpressions = some es) :
    ∃ out, c.compile = .ok out ∧ ∃ method, out.metadata.method = some method ∧
      (method = .newton ↔
        Expr.SmoothOver (p.frame.axes ++ p.frame.labels) p.derivatives ∧ Expr.SmoothOver p.frame.axes es) := by
  obtain ⟨jacobian, remarks, _, _, out, hout, hassembled⟩ := exists_assembled_of_validate hp
  have hvelocity : p.newtonVelocity = some es := by
    rw [Problem.newtonVelocity, hes]
  have hasked := hassembled.asked
  rw [hscheme, hmethod] at hasked
  have hsummary : out.metadata.method = some (Problem.effective jacobian) := by
    rw [hassembled.method, hscheme]
    rfl
  refine ⟨out, hout, _, hsummary, ?_⟩
  rw [← Problem.isSome_of_newtonJacobian_iff hvelocity hasked, ← hassembled.method_eq_newton_iff, hsummary,
    Option.some_inj]

/-- With Newton expressions, implicit Euler steps are solved by Newton iteration if and only if the expressions are
smooth in the Cartesian coordinates, whatever the coordinate transforms are, and the derivatives are smooth as well. -/
theorem method_eq_newton_iff_smooth {out : Output L} (h : c.compile = .ok out) (hscheme : c.scheme = .implicitEuler)
    (hmethod : c.method = .newton) {sources : List String} (hsources : c.newtonExpressions = some sources) :
    ∃ (p : Problem L) (es : List (Expr L)), c.validate = .ok p ∧ p.newtonExpressions = some es ∧
      ReadAs (Names.axes c.dimensions ++ [Names.alpha]) sources es ∧
      ReadAs (Names.axes c.dimensions ++ p.frame.labels ++ [Names.alpha]) c.derivatives p.derivatives ∧
      (out.metadata.method = some .newton ↔
        Expr.SmoothOver (Names.axes c.dimensions ++ p.frame.labels) p.derivatives ∧
          Expr.SmoothOver (Names.axes c.dimensions) es) := by
  obtain ⟨p, hp, -⟩ := exists_of_bind_eq_ok h
  obtain ⟨-, -, -, hderivatives, hnewton, -⟩ := validate_eq_ok_iff.1 hp
  rw [readNewtonExpressions_eq_ok_iff, hsources] at hnewton
  obtain ⟨-, es, hes, hread⟩ := hnewton
  obtain ⟨out', hout, method, hsummary, hiff⟩ := exists_method hp hscheme hmethod hes
  obtain rfl := Except.ok.inj (h.symm.trans hout)
  have haxes : p.frame.axes = Names.axes c.dimensions := congrArg Names.axes (checked_of_validate hp).2
  refine ⟨p, es, hp, hes, hread, (readAll_eq_ok_iff .derivative).1 hderivatives, ?_⟩
  rw [hsummary, Option.some_inj, ← haxes]
  exact hiff

section Folded

def foldedRecord : Record := ⟨"folded", 2, [⟨"u", ""⟩, ⟨"v", ""⟩], ["abs(x)", "y"], none, false⟩

def foldedForward : List (Expr L) := [.call .abs (.var "x"), .var "y"]

def foldedFrame : Frame L :=
  ⟨"folded", [⟨"u", "u"⟩, ⟨"v", "v"⟩], foldedForward, none, false, .generate ["x", "y"] foldedForward⟩

theorem ofRecord_folded : Frame.ofRecord foldedRecord = .ok (foldedFrame (L := L)) := by
  have hlabels : Frame.checkLabels [] ["u", "v"] = .ok () := rfl
  have hread : Frame.readFormulas .forward (Names.axes 2) foldedRecord.forward = .ok (foldedForward (L := L)) := by cbv
  unfold Frame.ofRecord
  simp only [foldedRecord, Frame.checkCount, List.map, List.length, hlabels]
  change (Frame.readFormulas .forward (Names.axes 2) foldedRecord.forward >>= _) = _
  exact bind_eq_ok_of hread rfl

def folded (first : String) : Config L :=
  { ofDerivatives 2 [first, "v"] with
    frame := some (.record foldedRecord), scheme := .implicitEuler, method := .newton,
    newtonExpressions := some ["x", "y"] }

def foldedProblem (first : Expr L) : Problem L := ⟨foldedFrame, [first, .var "v"], some [.var "x", .var "y"], none⟩

theorem validate_folded {first : String} {e : Expr Elementary}
    (h : (folded first).readDerivatives ["u", "v"] = .ok [e, .var "v"]) :
    (folded first).validate = .ok (foldedProblem e) := by
  refine validate_eq_ok_iff.2 ⟨(by decide : 2 ≤ 2 ∧ 2 ≤ 4), ?_, ?_, h, by cbv, rfl⟩
  · exact settingErrors_eq_nil_of_defaults rfl rfl rfl rfl
  · exact readFrame_eq_ok_iff.2 ⟨ofRecord_folded, rfl⟩

end Folded

theorem method_folded :
    ∃ out, (folded (L := Elementary) "u").compile = .ok out ∧ out.metadata.method = some .newton := by
  have hvalidate : (folded (L := Elementary) "u").validate = .ok (foldedProblem (.var "u")) := validate_folded (by cbv)
  obtain ⟨out, hout, -⟩ := exists_compile_of_validate hvalidate
  obtain ⟨p, es, hp, hes, -, -, hiff⟩ := method_eq_newton_iff_smooth hout rfl rfl rfl
  obtain rfl := Except.ok.inj (hvalidate.symm.trans hp)
  obtain rfl := Option.some.inj hes
  exact ⟨out, hout, hiff.2 ⟨Expr.smoothOver_vars _ ["u", "v"], Expr.smoothOver_vars _ ["x", "y"]⟩⟩

/-- On the half plane `u` is its own absolute value, so that this is the same flow with the same Newton expressions, but
there is no Newton iteration. -/
theorem method_folded_abs :
    ∃ (p : Problem Elementary) (es : List (Expr Elementary)) (out : Output Elementary),
      (folded "abs(u)").validate = .ok p ∧ p.newtonExpressions = some es ∧ Expr.SmoothOver p.frame.axes es ∧
      (folded "abs(u)").compile = .ok out ∧ out.metadata.method = some .fixedPoint := by
  have hvalidate : (folded "abs(u)").validate = .ok (foldedProblem (.call .abs (.var "u" : Expr Elementary))) :=
    validate_folded (by cbv)
  obtain ⟨out, hout, method, hsummary, hiff⟩ := exists_method hvalidate rfl rfl rfl
  refine ⟨_, _, out, hvalidate, rfl, Expr.smoothOver_vars _ ["x", "y"], hout, ?_⟩
  cases method with
  | fixedPoint => exact hsummary
  | newton =>
      obtain ⟨hderivatives, -⟩ := hiff.1 rfl
      have hrough := (hderivatives _ List.mem_cons_self "u" (by decide)).1
      exact absurd hrough (by decide)

end Config

end FlowShader
