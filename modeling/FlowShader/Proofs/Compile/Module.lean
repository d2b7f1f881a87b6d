import FlowShader.Proofs.Compile.Functions
import FlowShader.Proofs.Coordinates.Velocity
import FlowShader.Proofs.Shader.Closed

namespace FlowShader

open Shader (Term Stmt Ty Function Module Global Types Signature Signatures AllChecked signatures Env Value)
open Coordinates (Frame)

variable {L : Type} [Literal L]

def functionOrder (n : Nat) : List String :=
  [Names.color, Shader.Inverse.functionName n, Names.toNative, Names.toCartesian, Names.velocityToCartesian,
    Names.getVelocity, Names.velocityJacobian, Names.integrate]

theorem nodup_functionOrder {n : Nat} (hn : 2 ≤ n) (hn' : n ≤ 4) : (functionOrder n).Nodup := by
  interval_cases n <;> decide

def globalTypes (alpha : String) (inverts : Bool) : Types :=
  (alpha, .float) :: if inverts then [(Shader.Inverse.epsilonName, .float)] else []

section Globals

variable {alpha : String} (inverts : Bool)

theorem ne_of_isTaken (h : Names.isTaken alpha = false) {v : String} (hv : Names.isTaken v = true) : v ≠ alpha := by
  rintro rfl
  exact absurd (hv.symm.trans h) (by decide)

theorem clear_globalTypes (h : Names.isTaken alpha = false) : Names.Clear (globalTypes alpha inverts) := by
  have hnone {v : String} (hv : Names.isTaken v = true) (hepsilon : v ≠ Shader.Inverse.epsilonName) :
      (globalTypes alpha inverts).lookup v = none := by
    have hne := beq_eq_false_iff_ne.2 (ne_of_isTaken h hv)
    cases inverts with
    | false => simp [globalTypes, List.lookup_cons, hne]
    | true => simp [globalTypes, List.lookup_cons, hne, beq_eq_false_iff_ne.2 hepsilon]
  refine ⟨fun v hv => hnone ?_ ?_, fun v hv => hnone ?_ ?_⟩
  · simp [Names.isTaken, hv]
  · rintro rfl
    exact absurd hv (by decide)
  · simp [Names.isTaken, hv]
  · rintro rfl
    exact absurd hv (by decide)

theorem nodup_globalTypes (h : Names.isTaken alpha = false) : ((globalTypes alpha inverts).map (·.1)).Nodup := by
  have hne : Shader.Inverse.epsilonName ≠ alpha := ne_of_isTaken h (by decide)
  cases inverts with
  | false => simp [globalTypes]
  | true => simp [globalTypes, hne.symm]

end Globals

section Stages

variable {types : Types} {order : List String} {k : Nat} {fs : List (Function L)} {name : String} {sig : Signature}

/-- Functions in order, named by the first `k` names at most. -/
structure Stage (types : Types) (order : List String) (k : Nat) (fs : List (Function L)) : Prop where
  checked : AllChecked types fs
  names : ∀ f ∈ fs, f.name ∈ order.take k

omit [Literal L] in
theorem Stage.next (h : Stage types order k fs) (hnodup : order.Nodup) (hk : order[k]? = some name) {f : Function L}
    (hf : f.Meets types (signatures fs) name sig) : Stage types order (k + 1) (fs ++ [f]) := by
  have hnew : name ∉ order.take k := by
    intro hmem
    obtain ⟨j, hj⟩ := List.mem_iff_getElem?.1 hmem
    rw [List.getElem?_take] at hj
    split at hj
    · next hlt =>
        obtain rfl := (List.getElem?_inj (List.getElem?_eq_some_iff.1 hj).1 hnodup).1 (hj.trans hk.symm)
        exact Nat.lt_irrefl j hlt
    · cases hj
  refine ⟨h.checked.snoc hf.checked fun hmem => hnew ?_, fun g hg => ?_⟩
  · obtain ⟨g, hg, hname⟩ := List.mem_map.1 hmem
    rw [← hf.name_eq, ← hname]
    exact h.names g hg
  · rw [List.take_add_one, hk, List.mem_append]
    rcases List.mem_append.1 hg with hg | hg
    · exact .inl (h.names g hg)
    · rw [List.mem_singleton.1 hg, hf.name_eq]
      exact .inr List.mem_cons_self

omit [Literal L] in
theorem Stage.skip (h : Stage types order k fs) : Stage types order (k + 1) fs :=
  ⟨h.checked, fun f hf => List.take_subset_take_left order (Nat.le_succ k) (h.names f hf)⟩

omit [Literal L] in
theorem Stage.length_le (h : Stage types order k fs) : fs.length ≤ k := by
  have hsub : fs.map (·.name) ⊆ order.take k := by
    intro name hname
    obtain ⟨f, hf, rfl⟩ := List.mem_map.1 hname
    exact h.names f hf
  have hle := (h.checked.nodup.subperm hsub).length_le
  rw [List.length_map, List.length_take] at hle
  exact Nat.le_trans hle (Nat.min_le_left _ _)

omit [Literal L] in
theorem Stage.lookup (h : Stage types order k fs) {fs' : Signatures} {f : Function L} (hf : f ∈ fs)
    (hmeets : f.Meets types fs' name sig) : (signatures fs).lookup name = some sig := by
  cases hlookup : (signatures fs).lookup name with
  | none =>
      have hmem : (name, sig) ∈ signatures fs :=
        List.mem_map.2 ⟨f, hf, Prod.ext hmeets.name_eq hmeets.signature_eq⟩
      have := List.lookup_eq_none_iff.1 hlookup _ hmem
      simp at this
  | some sig' =>
      obtain ⟨g, hg, hname, rfl⟩ := Shader.exists_of_lookup_signatures hlookup
      obtain rfl : g = f := List.inj_on_of_nodup_map h.checked.nodup hg hf (hname.trans hmeets.name_eq.symm)
      rw [hmeets.signature_eq]

omit [Literal L] in
theorem lookup_signatures_append {fs' : List (Function L)} (h : (signatures fs).lookup name = some sig) :
    (signatures (fs ++ fs')).lookup name = some sig := by
  rw [signatures, List.map_append, List.lookup_append]
  exact Option.or_eq_some_iff.2 (.inl h)

omit [Literal L] in
theorem types_module (alpha : String) (inverts : Bool) (epsilon : L) (fs : List (Function L)) :
    (⟨if inverts then [⟨Shader.Inverse.epsilonName, .float, .float epsilon⟩] else [], [⟨alpha, .float⟩], fs⟩ :
      Module L).types = globalTypes alpha inverts := by
  cases inverts <;> rfl

omit [Literal L] in
theorem Stage.checked_module {alpha : String} {inverts : Bool} (h : Stage (globalTypes alpha inverts) order k fs)
    (hfree : Names.isTaken alpha = false) (epsilon : L) :
    (⟨if inverts then [⟨Shader.Inverse.epsilonName, .float, .float epsilon⟩] else [], [⟨alpha, .float⟩], fs⟩ :
      Module L).Checked := by
  have htypes := types_module alpha inverts epsilon fs
  refine ⟨htypes ▸ h.checked, fun g hg => ?_, htypes ▸ nodup_globalTypes inverts hfree⟩
  cases inverts with
  | false => cases hg
  | true =>
      rw [List.mem_singleton.1 hg]
      rfl

omit [Literal L] in
theorem addFunction_eq {m : Module L} {f : Function L} (h : ((m.functions ++ [f]).map (·.name)).Nodup) :
    m.defines f.name = false ∧ m.addFunction f = { m with functions := m.functions ++ [f] } := by
  have hnew : m.defines f.name = false := by
    rw [Module.defines, List.any_eq_false]
    intro g hg hname
    rw [List.map_append] at h
    exact (List.nodup_append.1 h).2.2 g.name (List.mem_map_of_mem hg) f.name List.mem_cons_self (eq_of_beq hname)
  refine ⟨hnew, ?_⟩
  rw [Module.addFunction, hnew]
  rfl

omit [Literal L] in
theorem foldl_addFunction {m : Module L} (h : ((m.functions ++ fs).map (·.name)).Nodup) :
    fs.foldl Module.addFunction m = { m with functions := m.functions ++ fs } := by
  induction fs generalizing m with
  | nil => simp
  | cons f fs ih =>
      rw [List.append_cons] at h
      have hfirst : ((m.functions ++ [f]).map (·.name)).Nodup := by
        rw [List.map_append] at h
        exact (List.nodup_append.1 h).1
      rw [List.foldl_cons, (addFunction_eq hfirst).2, ih h]
      simp

end Stages

namespace Problem

structure Compiles (p : Problem L) (c : Config L) (m : Module L) : Prop where
  checked : m.Checked
  types : ∃ inverts, m.types = globalTypes c.alphaName inverts
  length_le : m.functions.length ≤ 8
  toNative : ∃ f ∈ m.functions, p.frame.toNative = .ok f
  toCartesian : ∃ f ∈ m.functions, p.frame.toCartesian c.solver = .ok f
  velocityToCartesian : ∃ f ∈ m.functions, ∃ remarks, p.frame.velocityToCartesian = .ok (f, remarks)
  getVelocity : ∃ f ∈ m.functions, p.getVelocity c.alphaName = .ok f
  integrate : ∃ method,
    c.scheme.integrate p.frame.dimensions (c.rounds.getD c.scheme.defaultRounds) method ∈ m.functions
  /-- With a velocity Jacobian comes everything else that Newton iteration uses. -/
  newton (jacobian : Function L) (remarks : List Diagnostic) :
    p.newtonJacobian c.scheme c.method c.alphaName = .ok (some jacobian, remarks) →
    jacobian ∈ m.functions ∧ (∃ f ∈ m.functions, Shader.Inverse.function p.frame.dimensions = .ok f) ∧
    c.scheme.integrate p.frame.dimensions (c.rounds.getD c.scheme.defaultRounds) .newton ∈ m.functions ∧
    m.constants = [⟨Shader.Inverse.epsilonName, .float, .float c.pivotEpsilon⟩]

def effective (jacobian : Option (Function L)) : Method := if jacobian.isSome then .newton else .fixedPoint

/-- Matrices are inverted in the step or on the way back from native coordinates. -/
def inverts (p : Problem L) (jacobian : Option (Function L)) : Bool :=
  effective jacobian == .newton || p.frame.strategy == .newton

/-- What is put together: functions for color and inversion, the transforms and the velocity field, its
Jacobian and the step, with a summary and remarks. -/
structure Assembled (p : Problem L) (c : Config L) (jacobian : Option (Function L)) (remarks : List Diagnostic)
    (first transforms : List (Function L)) (out : Output L) : Prop where
  asked : p.newtonJacobian c.scheme c.method c.alphaName = .ok (jacobian, remarks)
  constants : out.module.constants =
    if p.inverts jacobian then [⟨Shader.Inverse.epsilonName, .float, .float c.pivotEpsilon⟩] else []
  uniforms : out.module.uniforms = [⟨c.alphaName, .float⟩]
  functions : out.module.functions = first ++ transforms ++ jacobian.toList ++
    [c.scheme.integrate p.frame.dimensions (c.rounds.getD c.scheme.defaultRounds) (effective jacobian)]
  stage : Stage (globalTypes c.alphaName (p.inverts jacobian)) (functionOrder p.frame.dimensions) 8 out.module.functions
  newton (f : Function L) : jacobian = some f → c.scheme = .implicitEuler ∧ f.name = Names.velocityJacobian
  early : ∀ f ∈ first, f.name = Names.color ∨ f.name = Shader.Inverse.functionName p.frame.dimensions
  inverter : p.inverts jacobian = true → ∃ f ∈ first, Shader.Inverse.function p.frame.dimensions = .ok f ∧
    f.name = Shader.Inverse.functionName p.frame.dimensions
  color : p.inverts jacobian = false → ∀ f ∈ first, f.name = Names.color
  toNative : ∃ f ∈ transforms, p.frame.toNative = .ok f
  toCartesian : ∃ f ∈ transforms, p.frame.toCartesian c.solver = .ok f
  velocityToCartesian : ∃ f ∈ transforms, ∃ remarks, p.frame.velocityToCartesian = .ok (f, remarks)
  getVelocity : ∃ f ∈ transforms, p.getVelocity c.alphaName = .ok f
  names : transforms.map (·.name) =
    [Names.toNative, Names.toCartesian, Names.velocityToCartesian, Names.getVelocity]
  method : out.metadata.method = if c.scheme.isImplicit then some (effective jacobian) else none
  strategy : out.metadata.strategy = p.frame.strategy
  dimensions : out.metadata.dimensions = p.frame.dimensions
  diagnostics : remarks ⊆ out.diagnostics

variable {p : Problem L} {alpha : String} {types : Types}

theorem exists_of_getVelocity {f : Function L} (h : p.getVelocity alpha = .ok f) :
    ∃ body, f = ⟨Names.getVelocity, [(.vec p.frame.dimensions, "pos")], .vec p.frame.dimensions, body⟩ := by
  unfold getVelocity at h
  dsimp only at h
  split at h
  · obtain ⟨_, -, h⟩ := exists_of_bind_eq_ok h
    exact ⟨_, (Except.ok.inj h).symm⟩
  · obtain ⟨_, -, h⟩ := exists_of_bind_eq_ok h
    exact ⟨_, (Except.ok.inj h).symm⟩

variable (hp : p.Checked)
include hp

theorem Checked.color_stage (hclear : Names.Clear types) (halpha : types.lookup alpha = some .float) :
    ∃ fs : List (Function L), Stage types (functionOrder p.frame.dimensions) 1 fs ∧
      ∀ {α : Type} (next : Module L → Except CompileError α),
        (match p.color with
          | some e => Module.addFunction ⟨[], [⟨alpha, .float⟩], []⟩ <$>
              (colorFunction e p.frame.dimensions alpha).mapError CompileError.unboundIdentifier >>= next
          | none => pure ⟨[], [⟨alpha, .float⟩], []⟩ >>= next) = next ⟨[], [⟨alpha, .float⟩], fs⟩ := by
  have hnodup := nodup_functionOrder hp.frame.two_le hp.frame.le_four
  have hstart : Stage (L := L) types (functionOrder p.frame.dimensions) 0 [] := ⟨.nil, nofun⟩
  cases hcolor : p.color with
  | none => exact ⟨[], hstart.skip, fun _ => rfl⟩
  | some e =>
      obtain ⟨f, hf, hmeets⟩ := colorFunction_meets hclear halpha hp.frame.le_four (hp.color e hcolor)
      refine ⟨[f], hstart.next hnodup rfl hmeets, fun next => ?_⟩
      simp only [hf]
      rfl

theorem Checked.inverse_stage (alpha : String) (hclear : Names.Clear types) (inverts : Bool)
    (hepsilon : inverts = true → types.lookup Shader.Inverse.epsilonName = some .float) {fs : List (Function L)}
    (hstage : Stage types (functionOrder p.frame.dimensions) 1 fs) (epsilon : L) :
    ∃ fs', Stage types (functionOrder p.frame.dimensions) 2 fs' ∧
      (inverts = true → (signatures fs').lookup (Shader.Inverse.functionName p.frame.dimensions) =
        some ⟨[.mat p.frame.dimensions], .mat p.frame.dimensions⟩) ∧
      (inverts = true → ∃ f ∈ fs', Shader.Inverse.function p.frame.dimensions = .ok f ∧
        f.name = Shader.Inverse.functionName p.frame.dimensions) ∧
      (inverts = false → fs' = fs) ∧
      ∀ {α : Type} (next : Module L → Except CompileError α),
        (if inverts then (Shader.Inverse.addTo ⟨[], [⟨alpha, .float⟩], fs⟩ p.frame.dimensions epsilon).mapError
            CompileError.inversion >>= next
          else pure ⟨[], [⟨alpha, .float⟩], fs⟩ >>= next) =
        next ⟨if inverts then [⟨Shader.Inverse.epsilonName, .float, .float epsilon⟩] else [], [⟨alpha, .float⟩], fs'⟩ := by
  have hnodup := nodup_functionOrder hp.frame.two_le hp.frame.le_four
  cases inverts with
  | false => exact ⟨fs, hstage.skip, nofun, nofun, fun _ => rfl, fun _ => rfl⟩
  | true =>
      obtain ⟨f, hf, hmeets⟩ := Shader.Inverse.function_meets (L := L) hclear (hepsilon rfl) (signatures fs)
        hp.frame.two_le hp.frame.le_four
      have hnext := hstage.next hnodup rfl hmeets
      have hmem : f ∈ fs ++ [f] := List.mem_append_right _ List.mem_cons_self
      refine ⟨fs ++ [f], hnext, fun _ => hnext.lookup hmem hmeets, fun _ => ⟨f, hmem, hf, hmeets.name_eq⟩, nofun,
        fun next => ?_⟩
      let m : Module L := ⟨[], [⟨alpha, .float⟩], fs⟩
      have hadd := addFunction_eq (m := m.addConstant Shader.Inverse.epsilonName .float (.float epsilon))
        hnext.checked.nodup
      have hdefines : m.defines (Shader.Inverse.functionName p.frame.dimensions) = false := by
        rw [← hmeets.name_eq]
        exact (addFunction_eq (m := m) hnext.checked.nodup).1
      have haddTo : Shader.Inverse.addTo m p.frame.dimensions epsilon =
          .ok ⟨[⟨Shader.Inverse.epsilonName, .float, .float epsilon⟩], [⟨alpha, .float⟩], fs ++ [f]⟩ := by
        rw [Shader.Inverse.addTo, hdefines, hf]
        exact congrArg Except.ok hadd.2
      rw [if_pos rfl, haddTo]
      rfl

theorem Checked.field_stage (hclear : Names.Clear types) (halpha : types.lookup alpha = some .float)
    (solver : Coordinates.Solver L) {fs : List (Function L)}
    (hstage : Stage types (functionOrder p.frame.dimensions) 2 fs)
    (hinverse : p.frame.strategy = .newton → (signatures fs).lookup (Shader.Inverse.functionName p.frame.dimensions) =
      some ⟨[.mat p.frame.dimensions], .mat p.frame.dimensions⟩) :
    ∃ toNative toCartesian velocityToCartesian remarks getVelocity, p.frame.toNative = .ok toNative ∧
      p.frame.toCartesian solver = .ok toCartesian ∧
      p.frame.velocityToCartesian = .ok (velocityToCartesian, remarks) ∧ p.getVelocity alpha = .ok getVelocity ∧
      Stage types (functionOrder p.frame.dimensions) 6
        (fs ++ [toNative, toCartesian, velocityToCartesian, getVelocity]) ∧
      (signatures (fs ++ [toNative, toCartesian, velocityToCartesian, getVelocity])).lookup Names.getVelocity =
        some ⟨[.vec p.frame.dimensions], .vec p.frame.dimensions⟩ ∧
      [toNative, toCartesian, velocityToCartesian, getVelocity].map (·.name) =
        [Names.toNative, Names.toCartesian, Names.velocityToCartesian, Names.getVelocity] := by
  let n := p.frame.dimensions
  have hnodup := nodup_functionOrder hp.frame.two_le hp.frame.le_four
  obtain ⟨toNative, hnative, hmeets₂⟩ : ∃ f, p.frame.toNative = .ok f ∧
      f.Meets types (signatures fs) Names.toNative ⟨[.vec n], .vec n⟩ := Frame.toNative_meets hp.frame hclear
  have hstage₃ := hstage.next hnodup rfl hmeets₂
  have hlookup₂ := hstage₃.lookup (List.mem_append_right _ List.mem_cons_self) hmeets₂
  obtain ⟨toCartesian, hcartesian, hmeets₃⟩ := Frame.toCartesian_meets hp.frame hclear solver
    fun hnewton => ⟨hlookup₂, lookup_signatures_append (hinverse hnewton)⟩
  have hstage₄ := hstage₃.next hnodup rfl hmeets₃
  obtain ⟨velocityToCartesian, remarks, hvelocity, hmeets₄⟩ : ∃ f remarks,
      p.frame.velocityToCartesian = .ok (f, remarks) ∧ f.Meets types (signatures (fs ++ [toNative] ++ [toCartesian]))
        Names.velocityToCartesian ⟨[.vec n, .vec n], .vec n⟩ :=
    Frame.velocityToCartesian_meets hclear hp.frame
  have hstage₅ := hstage₄.next hnodup rfl hmeets₄
  have hlookup₄ := hstage₅.lookup (List.mem_append_right _ List.mem_cons_self) hmeets₄
  obtain ⟨getVelocity, hget, hmeets₅⟩ := hp.getVelocity_meets hclear halpha
    (lookup_signatures_append (lookup_signatures_append hlookup₂)) hlookup₄
  have hstage₆ := hstage₅.next hnodup rfl hmeets₅
  have hlookup₅ := hstage₆.lookup (List.mem_append_right _ List.mem_cons_self) hmeets₅
  simp only [List.append_assoc, List.cons_append, List.nil_append] at hstage₆ hlookup₅
  refine ⟨toNative, toCartesian, velocityToCartesian, remarks, getVelocity, hnative, hcartesian, hvelocity, hget,
    hstage₆, hlookup₅, ?_⟩
  simp only [List.map_cons, List.map_nil, hmeets₂.name_eq, hmeets₃.name_eq, hmeets₄.name_eq, hmeets₅.name_eq]

theorem Checked.step_stage (hclear : Names.Clear types) {fs : List (Function L)}
    (hstage : Stage types (functionOrder p.frame.dimensions) 6 fs)
    (hfield : (signatures fs).lookup Names.getVelocity = some ⟨[.vec p.frame.dimensions], .vec p.frame.dimensions⟩)
    (scheme : Scheme) (rounds : Nat) {jacobian : Option (Function L)}
    (hjacobian : ∀ f, jacobian = some f → scheme = .implicitEuler ∧ ∀ fs,
      f.Meets types fs Names.velocityJacobian ⟨[.vec p.frame.dimensions], .mat p.frame.dimensions⟩)
    (hinverse : jacobian.isSome = true → (signatures fs).lookup (Shader.Inverse.functionName p.frame.dimensions) =
      some ⟨[.mat p.frame.dimensions], .mat p.frame.dimensions⟩) :
    Stage types (functionOrder p.frame.dimensions) 8 (fs ++ jacobian.toList ++
      [scheme.integrate p.frame.dimensions rounds (effective jacobian)]) := by
  have hnodup := nodup_functionOrder hp.frame.two_le hp.frame.le_four
  cases jacobian with
  | none =>
      rw [Option.toList_none, List.append_nil]
      exact hstage.skip.next hnodup rfl (Scheme.integrate_meets hclear hfield scheme rounds .fixedPoint nofun)
  | some f =>
      obtain ⟨rfl, hmeets⟩ := hjacobian f rfl
      have hnext := hstage.next hnodup rfl (hmeets (signatures fs))
      have hname := Shader.Inverse.functionName_not_builtin hp.frame.two_le hp.frame.le_four
      have hlookup := hnext.lookup (List.mem_append_right _ List.mem_cons_self) (hmeets [])
      refine hnext.next hnodup rfl (Scheme.integrate_meets hclear (lookup_signatures_append hfield) _ rounds .newton ?_)
      exact fun _ _ => ⟨hlookup, hname, lookup_signatures_append (hinverse rfl)⟩

theorem Checked.exists_assembled (c : Config L) (hfree : Names.isTaken c.alphaName = false) :
    ∃ jacobian remarks first transforms out, p.compile c = .ok out ∧
      p.Assembled c jacobian remarks first transforms out := by
  obtain ⟨jacobian, remarks, hjacobian, -⟩ :=
    hp.newtonJacobian_meets (clear_globalTypes false hfree) List.lookup_cons_self c.scheme c.method
  -- The globals depend on whether there is a velocity Jacobian, so it is checked again once they are known.
  let types := globalTypes c.alphaName (p.inverts jacobian)
  have hclear : Names.Clear types := clear_globalTypes _ hfree
  have halpha : types.lookup c.alphaName = some .float := List.lookup_cons_self
  have hepsilon (h : p.inverts jacobian = true) : types.lookup Shader.Inverse.epsilonName = some .float := by
    have hne := beq_eq_false_iff_ne.2 (ne_of_isTaken hfree (v := Shader.Inverse.epsilonName) (by decide))
    simp [types, globalTypes, List.lookup_cons, hne, h]
  obtain ⟨_, _, hjacobian', hmeets⟩ := hp.newtonJacobian_meets hclear halpha c.scheme c.method
  obtain ⟨rfl, rfl⟩ := Prod.mk.inj (Except.ok.inj (hjacobian.symm.trans hjacobian'))
  obtain ⟨fs₁, hstage₁, hcolor⟩ := hp.color_stage hclear halpha
  obtain ⟨fs₂, hstage₂, hinverse, hfunction, hkept, hinverts⟩ :=
    hp.inverse_stage c.alphaName hclear (p.inverts jacobian) hepsilon hstage₁ c.pivotEpsilon
  obtain ⟨toNative, toCartesian, velocityToCartesian, remarks', getVelocity, hnative, hcartesian, hvelocity, hget,
    hstage₆, hfield, hnames⟩ := hp.field_stage hclear halpha c.solver hstage₂ fun hnewton => hinverse (by simp [inverts, hnewton])
  have hstage := hp.step_stage hclear hstage₆ hfield c.scheme (c.rounds.getD c.scheme.defaultRounds) hmeets
    fun hsome => lookup_signatures_append (hinverse (by simp [inverts, effective, hsome]))
  let functions := [toNative, toCartesian, velocityToCartesian, getVelocity] ++ jacobian.toList
    ++ [c.scheme.integrate p.frame.dimensions (c.rounds.getD c.scheme.defaultRounds) (effective jacobian)]
  let m : Module L := ⟨if p.inverts jacobian then [⟨Shader.Inverse.epsilonName, .float, .float c.pivotEpsilon⟩] else [],
    [⟨c.alphaName, .float⟩], fs₂⟩
  have hlist : fs₂ ++ [toNative, toCartesian, velocityToCartesian, getVelocity] ++ jacobian.toList ++
      [c.scheme.integrate p.frame.dimensions (c.rounds.getD c.scheme.defaultRounds) (effective jacobian)] =
      fs₂ ++ functions := by
    simp only [functions, List.append_assoc]
  have hadd : functions.foldl Module.addFunction m = { m with functions := fs₂ ++ functions } :=
    foldl_addFunction (hlist ▸ hstage.checked.nodup)
  have hemit {α : Type} {x : Except UnknownIdentifier α} {a : α} (h : x = .ok a) :
      x.mapError CompileError.unboundIdentifier = .ok a := by rw [h]; rfl
  obtain ⟨metadata, hcompile, hmethod, hstrategy, hdimensions⟩ : ∃ metadata, p.compile c =
        .ok ⟨functions.foldl Module.addFunction m, remarks ++ p.frame.inverseDiagnostics ++ remarks', metadata⟩ ∧
      metadata.method = (if c.scheme.isImplicit then some (effective jacobian) else none) ∧
      metadata.strategy = p.frame.strategy ∧ metadata.dimensions = p.frame.dimensions := by
    unfold compile
    exact ⟨_, bind_eq_ok_of (hemit hjacobian) ((hcolor _).trans ((hinverts _).trans
      (bind_eq_ok_of (hemit hnative) (bind_eq_ok_of (hemit hcartesian)
        (bind_eq_ok_of (hemit hvelocity) (bind_eq_ok_of (hemit hget) rfl)))))), rfl, rfl, rfl⟩
  rw [hadd, ← hlist] at hcompile
  refine ⟨jacobian, remarks, fs₂, [toNative, toCartesian, velocityToCartesian, getVelocity], _, hcompile, ?_⟩
  exact {
    asked := hjacobian
    constants := rfl
    uniforms := rfl
    functions := rfl
    stage := hstage
    newton := fun f hf => ⟨(hmeets f hf).1, ((hmeets f hf).2 []).name_eq⟩
    early := fun f hf => by simpa [functionOrder] using hstage₂.names f hf
    inverter := hfunction
    color := fun h f hf => List.mem_singleton.1 (hstage₁.names f (hkept h ▸ hf))
    toNative := ⟨toNative, by simp, hnative⟩
    toCartesian := ⟨toCartesian, by simp, hcartesian⟩
    velocityToCartesian := ⟨velocityToCartesian, by simp, remarks', hvelocity⟩
    getVelocity := ⟨getVelocity, by simp, hget⟩
    names := hnames
    method := hmethod
    strategy := hstrategy
    dimensions := hdimensions
    diagnostics := by simp }

omit hp in
theorem Assembled.compiles {c : Config L} {jacobian : Option (Function L)} {remarks : List Diagnostic}
    {first transforms : List (Function L)} {out : Output L} (h : p.Assembled c jacobian remarks first transforms out)
    (hfree : Names.isTaken c.alphaName = false) : p.Compiles c out.module := by
  have hmodule : out.module = ⟨if p.inverts jacobian then [⟨Shader.Inverse.epsilonName, .float, .float c.pivotEpsilon⟩]
      else [], [⟨c.alphaName, .float⟩], out.module.functions⟩ := by
    rw [← h.constants, ← h.uniforms]
  have htransforms {f : Function L} (hf : f ∈ transforms) : f ∈ out.module.functions := by
    simp [h.functions, hf]
  obtain ⟨toNative, hnative, hnativeOk⟩ := h.toNative
  obtain ⟨toCartesian, hcartesian, hcartesianOk⟩ := h.toCartesian
  obtain ⟨velocityToCartesian, hvelocity, hvelocityOk⟩ := h.velocityToCartesian
  obtain ⟨getVelocity, hget, hgetOk⟩ := h.getVelocity
  refine ⟨?_, ⟨p.inverts jacobian, ?_⟩, h.stage.length_le, ⟨toNative, htransforms hnative, hnativeOk⟩,
    ⟨toCartesian, htransforms hcartesian, hcartesianOk⟩, ⟨velocityToCartesian, htransforms hvelocity, hvelocityOk⟩,
    ⟨getVelocity, htransforms hget, hgetOk⟩, ⟨effective jacobian, by simp [h.functions]⟩, fun f _ hf => ?_⟩
  · rw [hmodule]
    exact h.stage.checked_module hfree c.pivotEpsilon
  · rw [hmodule]
    exact types_module _ _ _ _
  · obtain ⟨rfl, -⟩ := Prod.mk.inj (Except.ok.inj (h.asked.symm.trans hf))
    obtain ⟨g, hg, hinvert, -⟩ := h.inverter rfl
    refine ⟨by simp [h.functions], ⟨g, by simp [h.functions, hg], hinvert⟩, by simp [h.functions, effective], ?_⟩
    rw [h.constants]
    rfl

end Problem

namespace Config

variable {c : Config L}

theorem exists_assembled_of_validate {p : Problem L} (h : c.validate = .ok p) :
    ∃ jacobian remarks first transforms out, c.compile = .ok out ∧
      p.Assembled c jacobian remarks first transforms out := by
  have hvalid : c.Valid := exists_validate_iff.1 ⟨p, h⟩
  obtain ⟨jacobian, remarks, first, transforms, out, hout, hassembled⟩ :=
    (checked_of_validate h).1.exists_assembled c hvalid.free
  refine ⟨jacobian, remarks, first, transforms, out, bind_eq_ok_of h ?_, hassembled⟩
  rw [hout]
  rfl

theorem exists_compile_of_validate {p : Problem L} (h : c.validate = .ok p) :
    ∃ out, c.compile = .ok out ∧ p.Compiles c out.module := by
  obtain ⟨_, _, _, _, out, hout, hassembled⟩ := exists_assembled_of_validate h
  exact ⟨out, hout, hassembled.compiles (exists_validate_iff.1 ⟨p, h⟩).free⟩

theorem settingErrors_eq_nil_of_defaults {c : Config Elementary} (hcount : c.derivatives.length = c.dimensions)
    (halpha : c.alphaName = defaultAlphaName) (hepsilon : c.pivotEpsilon = defaultPivotEpsilon)
    (hsolver : c.solver = .standard) : c.settingErrors = [] := by
  have hname : Shader.isIdentifier defaultAlphaName = true ∧ Names.isTaken defaultAlphaName = false := by decide
  refine settingErrors_eq_nil_iff.2 ⟨hcount, halpha ▸ hname, ?_, ?_⟩
  · rw [hepsilon]
    exact ⟨rfl, Elementary.lt_ofPlaces 4⟩
  · rw [hsolver]
    exact ⟨rfl, Elementary.lt_ofPlaces 6⟩

section Shadowing

open Coordinates (Record)
open Frame (hyperbolic hyperbolicFrame)

/-- Hyperbolas and rays, where `y` is the name of a hyperbola and hides the Cartesian coordinate. -/
def shadowingRecord : Record := { hyperbolic with coordinates := [⟨"y", ""⟩, ⟨"t", ""⟩] }

noncomputable def shadowingFrame : Frame Elementary :=
  { hyperbolicFrame with coordinates := [⟨"y", "y"⟩, ⟨"t", "t"⟩] }

theorem ofRecord_shadowing : Frame.ofRecord shadowingRecord = .ok shadowingFrame := by
  have hlabels : Frame.checkLabels [] ["y", "t"] = .ok () := rfl
  unfold Frame.ofRecord
  simp only [shadowingRecord, hyperbolic, Frame.checkCount, List.map, List.length, hlabels]
  change (Frame.readFormulas .forward (Names.axes 2) hyperbolic.forward >>= _) = _
  exact bind_eq_ok_of Frame.readFormulas_hyperbolic rfl

noncomputable def shadowing : Config Elementary :=
  { ofDerivatives 2 ["a * y", "x - a"] with
    frame := some (.record shadowingRecord), scheme := .implicitEuler, method := .newton, color := some "dx + a" }

noncomputable def shadowingProblem : Problem Elementary where
  frame := shadowingFrame
  derivatives := [.op .mul (.var "a") (.var "y"), .op .sub (.var "x") (.var "a")]
  newtonExpressions := none
  color := some (.op .add (.var "dx") (.var "a"))

theorem validate_shadowing : shadowing.validate = .ok shadowingProblem := by
  refine validate_eq_ok_iff.2 ⟨⟨by decide, by decide⟩, ?_, ?_, ?_, rfl, ?_⟩
  · exact settingErrors_eq_nil_of_defaults rfl rfl rfl rfl
  · exact readFrame_eq_ok_iff.2 ⟨ofRecord_shadowing, rfl⟩
  · cbv
  · cbv

end Shadowing

/-- A configuration compiles if and only if it is valid, and no error comes from the generation of code:
what is reported is what the check of the configuration found. -/
theorem compile_eq_ok_iff_valid (c : Config L) :
    ((∃ out, c.compile = .ok out) ↔ c.Valid) ∧
      ∀ errors, c.compile = .error errors → c.validate = .error errors ∧ ∀ e ∈ errors, ¬ e.IsEmission := by
  cases hvalidate : c.validate with
  | ok p =>
      obtain ⟨out, hcompile, -⟩ := exists_compile_of_validate hvalidate
      refine ⟨⟨fun _ => exists_validate_iff.1 ⟨p, hvalidate⟩, fun _ => ⟨out, hcompile⟩⟩, fun errors herrors => ?_⟩
      rw [hcompile] at herrors
      cases herrors
  | error errors =>
      have hcompile : c.compile = .error errors := by
        rw [compile, hvalidate]
        rfl
      refine ⟨⟨fun ⟨out, hout⟩ => ?_, fun hvalid => ?_⟩, fun errors' herrors => ?_⟩
      · rw [hcompile] at hout
        cases hout
      · obtain ⟨p, hp⟩ := exists_validate_iff.2 hvalid
        rw [hvalidate] at hp
        cases hp
      · obtain rfl := Except.error.inj (hcompile.symm.trans herrors)
        exact ⟨rfl, validate_notEmission hvalidate⟩

theorem compile_eq_ok_iff_valid_shadowing : shadowing.Valid ∧ ∃ out, shadowing.compile = .ok out :=
  have hvalid : shadowing.Valid := exists_validate_iff.1 ⟨_, validate_shadowing⟩
  ⟨hvalid, (compile_eq_ok_iff_valid shadowing).1.2 hvalid⟩

/-- Compiled modules are closed, and their functions return values of the types that they declare, for
all arguments of the types that they ask for and all values of the animation parameter. -/
theorem compile_closed_and_total {K : Type} [Scalar K] (literal : L → K) (c : Config L) (out : Output L)
    (h : c.compile = .ok out) :
    (∃ globals : Env K, out.module.globals literal = .ok globals ∧
      ∀ f ∈ out.module.functions, ∀ (x : K) (args : List (Value K)),
        List.Forall₂ Value.Fits args (f.params.map (·.1)) →
        ∃ v, out.module.call literal (globals.set c.alphaName (.float x)) f.name args = .ok v ∧ v.Fits f.ret) ∧
      out.module.Closed ∧ ∀ f ∈ out.module.functions, c.alphaName ∉ f.locals := by
  obtain ⟨p, hp, -⟩ := exists_of_bind_eq_ok h
  obtain ⟨out', hout, hmodule⟩ := exists_compile_of_validate hp
  obtain rfl := Except.ok.inj (h.symm.trans hout)
  obtain ⟨inverts, htypes⟩ := hmodule.types
  have halpha : out.module.types.lookup c.alphaName = some .float := htypes ▸ List.lookup_cons_self
  have hclosed := hmodule.checked.closed
  refine ⟨?_, hclosed, fun f hf hlocal => ?_⟩
  · obtain ⟨globals, hglobals, hmatches⟩ := hmodule.checked.exists_globals literal
    refine ⟨globals, hglobals, fun f hf x args hargs => ?_⟩
    exact hmodule.checked.call (hmatches.set halpha (.float x)) (Nat.le_trans hmodule.length_le (by decide)) hf hargs
  · obtain ⟨huniforms, hconstants⟩ := hclosed.locals f hf _ hlocal
    have hmem : (c.alphaName, Ty.float) ∈ out.module.types := htypes ▸ List.mem_cons_self
    rcases List.mem_append.1 hmem with hmem | hmem
    · obtain ⟨u, hu, hentry⟩ := List.mem_map.1 hmem
      exact huniforms u hu (congrArg Prod.fst hentry)
    · obtain ⟨g, hg, hentry⟩ := List.mem_map.1 hmem
      exact hconstants g hg (congrArg Prod.fst hentry)

theorem compile_closed_and_total_shadowing :
    ∃ (out : Output Elementary) (globals : Env ℝ) (v : Value ℝ), shadowing.compile = .ok out ∧ out.module.Closed ∧
      out.module.globals Elementary.toReal = .ok globals ∧
      out.module.call Elementary.toReal (globals.set "u_alpha" (.float 2)) "get_velocity" [.vec [2, 1]] = .ok v ∧
      v.Fits (.vec 2) := by
  obtain ⟨out, hout, hmodule⟩ := exists_compile_of_validate validate_shadowing
  obtain ⟨⟨globals, hglobals, hcalls⟩, hclosed, -⟩ := compile_closed_and_total Elementary.toReal shadowing out hout
  obtain ⟨f, hf, hvelocity⟩ := hmodule.getVelocity
  obtain ⟨body, rfl⟩ := Problem.exists_of_getVelocity hvelocity
  obtain ⟨v, hcall, hv⟩ := hcalls _ hf 2 [.vec [2, 1]] (.cons (.vec rfl) .nil)
  exact ⟨out, globals, v, hout, hclosed, hglobals, hcall, hv⟩

end Config

end FlowShader
