import FlowShader.Proofs.Compile.Module

namespace FlowShader

open Shader (Function Signatures)

variable {L : Type} [Literal L]

namespace Shader.Inverse

theorem functionName_inj {k n : Nat} (h : functionName k = functionName n) : k = n := by
  have h : (stem ++ toString k).toList = (stem ++ toString n).toList := congrArg String.toList h
  rw [String.toList_append, String.toList_append, List.append_cancel_left_eq, String.toList_inj] at h
  exact Nat.repr_injective h

theorem functionName_ne {name : String} (h : Names.isNumbered stem name = false) (k : Nat) : functionName k ≠ name := by
  rintro rfl
  exact absurd ((Lowering.isNumbered_append stem k).symm.trans h) (by decide)

end Shader.Inverse

/-- Steps call the velocity Jacobian if Newton iteration solves an implicit Euler step, and only then. -/
theorem Scheme.calls_velocityJacobian_iff {s : Scheme} {method : Method} (n rounds : Nat) :
    (∃ k, (Names.velocityJacobian, k) ∈ (s.integrate n rounds method : Function L).calls) ↔
      s = .implicitEuler ∧ method = .newton := by
  refine ⟨fun ⟨k, hk⟩ => ?_, ?_⟩
  · by_contra hnot
    -- the other steps are in order where the velocity field is all that there is to call
    let fs : Signatures := [(Names.getVelocity, ⟨[.vec n], .vec n⟩)]
    have hmeets : (s.integrate n rounds method : Function L).Meets [] fs Names.integrate ⟨[.vec n, .float], .vec n⟩ :=
      integrate_meets ⟨fun _ _ => rfl, fun _ _ => rfl⟩ rfl s rounds method
        fun hs hmethod => absurd ⟨hs, hmethod⟩ hnot
    have hbuiltin : Shader.Builtin.ofName? Names.velocityJacobian = none := by decide
    rcases hmeets.checked.callees _ hk with ⟨b, hb, -⟩ | ⟨sig, hsig, -⟩
    · rw [hbuiltin] at hb
      cases hb
    · cases hsig
  · rintro ⟨rfl, rfl⟩
    exact ⟨1, List.mem_of_getElem? (i := 2) rfl⟩

namespace Problem

variable {p : Problem L} {c : Config L} {jacobian : Option (Function L)} {remarks : List Diagnostic}

def IsDemotion (kind : DiagnosticKind) : Prop :=
  kind = .newtonUnsupportedByIntegrator ∨ kind = .jacobianNonDifferentiable ∨ kind = .newtonExpressionsMissing

omit [Literal L] in
theorem kind_of_mem_roughDerivatives {d : Diagnostic} (h : d ∈ p.roughDerivatives) :
    d.kind = .jacobianNonDifferentiable := by
  obtain ⟨_, -, h⟩ := List.mem_filterMap.1 h
  dsimp only at h
  split at h
  · cases h
  · obtain rfl := Option.some.inj h
    rfl

theorem exists_demotion {scheme : Scheme} {alpha : String} (himplicit : scheme.isImplicit = true)
    (h : p.newtonJacobian scheme .newton alpha = .ok (none, remarks)) : ∃ d ∈ remarks, IsDemotion d.kind := by
  unfold newtonJacobian at h
  rw [if_neg (by simp [himplicit])] at h
  dsimp only at h
  split at h
  · obtain rfl := (Prod.mk.inj (Except.ok.inj h)).2
    exact ⟨_, List.mem_append_right _ List.mem_cons_self, .inl rfl⟩
  split at h
  · next hrough =>
      obtain rfl := (Prod.mk.inj (Except.ok.inj h)).2
      obtain ⟨d, hd⟩ := List.exists_mem_of_ne_nil _ (by simpa using hrough)
      exact ⟨d, hd, .inr (.inl (kind_of_mem_roughDerivatives hd))⟩
  split at h
  · obtain rfl := (Prod.mk.inj (Except.ok.inj h)).2
    exact ⟨_, List.mem_cons_self, .inr (.inr rfl)⟩
  split at h
  · obtain rfl := (Prod.mk.inj (Except.ok.inj h)).2
    exact ⟨_, List.mem_cons_self, .inr (.inl rfl)⟩
  · obtain ⟨f, -, h⟩ := exists_of_bind_eq_ok h
    cases (Prod.mk.inj (Except.ok.inj h)).1

namespace Assembled

variable {first transforms : List (Function L)} {out : Output L}
  (h : p.Assembled c jacobian remarks first transforms out)
include h

theorem defines_iff {name : String} :
    out.module.defines name = true ↔ (∃ f ∈ first, f.name = name) ∨
      name ∈ [Names.toNative, Names.toCartesian, Names.velocityToCartesian, Names.getVelocity] ∨
      (∃ f, jacobian = some f ∧ f.name = name) ∨ Names.integrate = name := by
  rw [← h.names, Shader.Module.defines, h.functions, List.any_eq_true]
  simp only [List.mem_append, List.mem_singleton, Option.mem_toList, beq_iff_eq, List.mem_map, or_and_right, exists_or,
    exists_eq_left, or_assoc]
  rfl

theorem defines_velocityJacobian_iff : out.module.defines Names.velocityJacobian = true ↔ jacobian.isSome = true := by
  rw [h.defines_iff]
  refine ⟨?_, fun hsome => ?_⟩
  · rintro (⟨f, hf, hname⟩ | hname | ⟨f, rfl, -⟩ | hname)
    · rcases h.early f hf with hcolor | hinverse
      · exact absurd (hcolor.symm.trans hname) (by decide)
      · exact absurd (hinverse.symm.trans hname) (Shader.Inverse.functionName_ne (by decide) _)
    · exact absurd hname (by decide)
    · rfl
    · exact absurd hname (by decide)
  · obtain ⟨f, rfl⟩ := Option.isSome_iff_exists.1 hsome
    exact .inr (.inr (.inl ⟨f, rfl, (h.newton f rfl).2⟩))

theorem defines_functionName_iff {k : Nat} : out.module.defines (Shader.Inverse.functionName k) = true ↔
    k = p.frame.dimensions ∧ p.inverts jacobian = true := by
  rw [h.defines_iff]
  refine ⟨?_, ?_⟩
  · rintro (⟨f, hf, hname⟩ | hname | ⟨f, hf, hname⟩ | hname)
    · cases hinverts : p.inverts jacobian with
      | false =>
          rw [h.color hinverts f hf] at hname
          exact absurd hname.symm (Shader.Inverse.functionName_ne (by decide) k)
      | true =>
          rcases h.early f hf with hcolor | hinverse
          · exact absurd (hname.symm.trans hcolor) (Shader.Inverse.functionName_ne (by decide) k)
          · exact ⟨Shader.Inverse.functionName_inj (hname.symm.trans hinverse), rfl⟩
    · simp only [List.mem_cons, List.not_mem_nil, or_false] at hname
      rcases hname with hname | hname | hname | hname <;>
        exact absurd hname (Shader.Inverse.functionName_ne (by decide) k)
    · exact absurd (hname.symm.trans (h.newton f hf).2) (Shader.Inverse.functionName_ne (by decide) k)
    · exact absurd hname.symm (Shader.Inverse.functionName_ne (by decide) k)
  · rintro ⟨rfl, hinverts⟩
    obtain ⟨f, hf, -, hname⟩ := h.inverter hinverts
    exact .inl ⟨f, hf, hname⟩

theorem method_eq_newton_iff : out.metadata.method = some .newton ↔ jacobian.isSome = true := by
  rw [h.method]
  cases jacobian with
  | none => cases c.scheme.isImplicit <;> simp [effective]
  | some f =>
      rw [(h.newton f rfl).1]
      exact ⟨fun _ => rfl, fun _ => rfl⟩

theorem inverts_iff : p.inverts jacobian = true ↔
    out.metadata.method = some .newton ∨ out.metadata.strategy = .newton := by
  rw [h.method_eq_newton_iff, h.strategy, inverts, effective]
  cases jacobian <;> simp

theorem function?_integrate : out.module.function? Names.integrate = some
    (c.scheme.integrate p.frame.dimensions (c.rounds.getD c.scheme.defaultRounds) (effective jacobian)) := by
  have hmem := h.functions ▸ List.mem_append_right _ List.mem_cons_self
  exact Shader.Module.function?_of_mem h.stage.checked.nodup hmem

end Assembled

end Problem

namespace Config

/-- Module, summary and diagnostics agree about Newton iteration. The summary names it exactly if the module has
a velocity Jacobian, and then, and only then, the step calls it. The inverting function of the dimension, and no
other, is there exactly if Newton iteration is used for the step or for the way back from native coordinates,
with the epsilon of the configuration. Where Newton iteration was asked for and fixed-point iteration is used
instead, a diagnostic tells why. -/
theorem compile_newton_consistent (c : Config L) (out : Output L) (h : c.compile = .ok out) :
    ∃ integrate, out.module.function? Names.integrate = some integrate ∧
      (out.metadata.method = some .newton ↔ out.module.defines Names.velocityJacobian = true) ∧
      (out.module.defines Names.velocityJacobian = true ↔ ∃ k, (Names.velocityJacobian, k) ∈ integrate.calls) ∧
      (∀ k, out.module.defines (Shader.Inverse.functionName k) = true ↔ k = out.metadata.dimensions ∧
        (out.metadata.method = some .newton ∨ out.metadata.strategy = .newton)) ∧
      (out.metadata.method = some .newton ∨ out.metadata.strategy = .newton →
        out.module.constants = [⟨Shader.Inverse.epsilonName, .float, .float c.pivotEpsilon⟩]) ∧
      (c.method = .newton → out.metadata.method = some .fixedPoint →
        Diagnostic.has .newtonUnsupportedByIntegrator out.diagnostics = true ∨
        Diagnostic.has .jacobianNonDifferentiable out.diagnostics = true ∨
        Diagnostic.has .newtonExpressionsMissing out.diagnostics = true) := by
  obtain ⟨p, hp, -⟩ := exists_of_bind_eq_ok h
  obtain ⟨jacobian, remarks, first, transforms, out', hout, ha⟩ := exists_assembled_of_validate hp
  obtain rfl := Except.ok.inj (h.symm.trans hout)
  refine ⟨_, ha.function?_integrate, ?_, ?_, fun k => ?_, fun hnewton => ?_, fun hmethod hfixed => ?_⟩
  · rw [ha.method_eq_newton_iff, ha.defines_velocityJacobian_iff]
  · rw [ha.defines_velocityJacobian_iff, Scheme.calls_velocityJacobian_iff]
    cases jacobian with
    | none => simp [Problem.effective]
    | some f => exact ⟨fun _ => ⟨(ha.newton f rfl).1, rfl⟩, fun _ => rfl⟩
  · rw [ha.defines_functionName_iff, ha.inverts_iff, ha.dimensions]
  · rw [ha.constants, if_pos (ha.inverts_iff.2 hnewton)]
  · have himplicit : c.scheme.isImplicit = true ∧ jacobian = none := by
      have hsummary := ha.method.symm.trans hfixed
      cases himplicit : c.scheme.isImplicit <;> cases jacobian <;> simp_all [Problem.effective]
    obtain ⟨himplicit, rfl⟩ := himplicit
    obtain ⟨d, hd, hkind⟩ := Problem.exists_demotion himplicit (hmethod ▸ ha.asked)
    have hhas {kind : DiagnosticKind} (h : d.kind = kind) : Diagnostic.has kind out.diagnostics = true :=
      List.any_eq_true.2 ⟨d, ha.diagnostics hd, beq_iff_eq.2 h⟩
    exact hkind.imp hhas (Or.imp hhas hhas)

noncomputable def midpointShadowing : Config Elementary := { shadowing with scheme := .implicitMidpoint }

theorem validate_midpointShadowing : midpointShadowing.validate = .ok shadowingProblem := validate_shadowing

theorem compile_newton_consistent_midpoint :
    ∃ out, midpointShadowing.compile = .ok out ∧ out.metadata.method = some .fixedPoint ∧
      out.module.defines Names.velocityJacobian = false ∧
      (Diagnostic.has .newtonUnsupportedByIntegrator out.diagnostics = true ∨
        Diagnostic.has .jacobianNonDifferentiable out.diagnostics = true ∨
        Diagnostic.has .newtonExpressionsMissing out.diagnostics = true) := by
  obtain ⟨jacobian, remarks, first, transforms, out, hout, ha⟩ := exists_assembled_of_validate validate_midpointShadowing
  have hnone : jacobian = none := by
    cases jacobian with
    | none => rfl
    | some f => exact absurd (ha.newton f rfl).1 (by decide)
  have hmethod : out.metadata.method = some .fixedPoint := by
    rw [ha.method, hnone]
    rfl
  obtain ⟨integrate, -, hjacobian, -, -, -, hdemoted⟩ := compile_newton_consistent midpointShadowing out hout
  refine ⟨out, hout, hmethod, ?_, hdemoted rfl hmethod⟩
  rw [← Bool.not_eq_true, ← hjacobian, hmethod]
  decide

end Config

end FlowShader
