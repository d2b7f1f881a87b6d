import Mathlib.Tactic.IntervalCases
import FlowShader.Names
import FlowShader.Proofs.Shader.Checking

namespace FlowShader

open Shader

/-- Global variables that no generated function hides. -/
structure Names.Clear (globals : Types) : Prop where
  locals : ∀ v ∈ Names.locals, globals.lookup v = none
  temporaries (v : String) : Names.isNumbered Names.temporaryStem v = true → globals.lookup v = none

/-- Generated functions take parameters of their own names. -/
theorem Names.Clear.meets {L : Type} {globals : Types} {fs : Signatures} (h : Names.Clear globals) {name : String}
    (params : List (Ty × String)) {ret : Ty} {body : List (Stmt L)} (hname : Builtin.ofName? name = none)
    (hnodup : (params.map (·.2)).Nodup) (hlocals : ∀ v ∈ params.map (·.2), v ∈ Names.locals)
    (hbody : Stmt.Checks ⟨fs, globals, ret⟩ false (params.map Prod.swap ++ globals) body)
    (hreturns : Stmt.anyReturns body = true) :
    Function.Meets globals fs name ⟨params.map (·.1), ret⟩ ⟨name, params, ret, body⟩ :=
  ⟨⟨hname, hnodup, fun p hp => h.locals p.2 (hlocals p.2 (List.mem_map_of_mem hp)), hbody, hreturns⟩, rfl, rfl⟩

namespace Shader.Inverse

variable {L : Type} [Literal L] {S : Scope} {looping : Bool} {Γ : Types} {n : Nat}

theorem mem_span {lo hi x : Nat} : x ∈ span lo hi ↔ lo ≤ x ∧ x < hi := by
  rw [span, List.mem_range'_1]
  omega

theorem functionName_not_builtin (hn : 2 ≤ n) (hn' : n ≤ 4) : Builtin.ofName? (functionName n) = none := by
  interval_cases n <;> decide

section Assignments

variable {name matrix : String} {value t : Term L} {col row : Nat}

omit [Literal L] in
theorem cell_float (h : Γ.lookup matrix = some (.mat n)) (hcol : col < n) (hrow : row < n) :
    (cell matrix col row : Term L).ty? S.functions Γ = some .float :=
  Term.ty?_element h hcol hrow

omit [Literal L] in
theorem abs_float (h : t.ty? S.functions Γ = some .float) : (abs t).ty? S.functions Γ = some .float :=
  Term.ty?_builtin (b := .func .abs) (by decide) (.cons h .nil) rfl

omit [Literal L] in
theorem setVar_check (hlocal : S.globals.lookup name = none) (h : Γ.lookup name = some .float)
    (hvalue : value.ty? S.functions Γ = some .float) : (setVar name value).check S looping Γ = some Γ :=
  Stmt.check_assign hlocal h hvalue

omit [Literal L] in
theorem setCell_check (hlocal : S.globals.lookup matrix = none) (h : Γ.lookup matrix = some (.mat n))
    (hcol : col < n) (hrow : row < n) (hvalue : value.ty? S.functions Γ = some .float) :
    (setCell matrix col row value).check S looping Γ = some Γ := by
  refine Stmt.check_assign hlocal (τ := .float) ?_ hvalue
  rw [Place.ty?, h]
  exact if_pos ⟨hcol, hrow⟩

theorem clampPivot_check (hlocal : S.globals.lookup name = none) (h : Γ.lookup name = some .float)
    (hepsilon : Γ.lookup epsilonName = some .float) : (clampPivot name : Stmt L).check S looping Γ = some Γ := by
  have hp : (Term.var name : Term L).ty? S.functions Γ = some .float := h
  have heps : (Term.var epsilonName : Term L).ty? S.functions Γ = some .float := hepsilon
  have hneg : (Term.neg (.var epsilonName) : Term L).ty? S.functions Γ = some .float := by
    rw [Term.ty?, heps]
    rfl
  have hsigned : (Stmt.branch (.lt (.var name) (.float 0)) [setVar name (.neg (.var epsilonName))]
      [setVar name (.var epsilonName)] : Stmt L).check S looping Γ = some Γ :=
    Stmt.check_branch (Term.ty?_binary hp rfl rfl) (.cons (setVar_check hlocal h hneg) .nil)
      (.cons (setVar_check hlocal h heps) .nil)
  exact Stmt.check_branch (Term.ty?_binary (abs_float hp) heps rfl) (.cons hsigned .nil) .nil

end Assignments

/-- What the elimination works on: the matrix, the inverse so far, three numbers and the epsilon. -/
structure Eliminates (S : Scope) (Γ : Types) (n : Nat) : Prop where
  matrix : ∀ v ∈ ["a", "inv"], S.globals.lookup v = none ∧ Γ.lookup v = some (.mat n)
  number : ∀ v ∈ ["s", "p", "f"], S.globals.lookup v = none ∧ Γ.lookup v = some .float
  epsilon : Γ.lookup epsilonName = some .float

section Elimination

variable (h : Eliminates S Γ n)
include h

omit [Literal L] in
theorem swapRows_check {matrix : String} {first r₁ r₂ : Nat} (hmatrix : matrix ∈ ["a", "inv"]) (h₁ : r₁ < n)
    (h₂ : r₂ < n) : ∀ s ∈ swapRows (L := L) n matrix first r₁ r₂, s.check S looping Γ = some Γ := by
  obtain ⟨hlocal, hmat⟩ := h.matrix matrix hmatrix
  obtain ⟨hfree, hs⟩ := h.number "s" (by decide)
  intro s hmem
  obtain ⟨c, hc, hmem⟩ := List.mem_flatMap.1 hmem
  have hc := (mem_span.1 hc).2
  simp only [List.mem_cons, List.not_mem_nil, or_false] at hmem
  obtain rfl | rfl | rfl := hmem
  · exact setVar_check hfree hs (cell_float hmat hc h₁)
  · exact setCell_check hlocal hmat hc h₁ (cell_float hmat hc h₂)
  · exact setCell_check hlocal hmat hc h₂ hs

omit [Literal L] h in
theorem onBoth_check {k : Nat} {rowOp : String → Nat → Stmt L}
    (hop : ∀ matrix ∈ ["a", "inv"], ∀ c < n, (rowOp matrix c).check S looping Γ = some Γ) :
    ∀ s ∈ onBoth n k rowOp, s.check S looping Γ = some Γ := by
  intro s hmem
  obtain hmem | hmem := List.mem_append.1 hmem
  · obtain ⟨c, hc, rfl⟩ := List.mem_map.1 hmem
    exact hop "a" (by decide) c (mem_span.1 hc).2
  · obtain ⟨c, hc, rfl⟩ := List.mem_map.1 hmem
    exact hop "inv" (by decide) c (mem_span.1 hc).2

omit [Literal L] in
theorem pivotRows_check {k : Nat} (hk : k < n) :
    ∀ s ∈ pivotRows (L := L) n k, s.check S looping Γ = some Γ := by
  obtain ⟨-, hmat⟩ := h.matrix "a" (by decide)
  intro s hmem
  obtain ⟨r, hr, rfl⟩ := List.mem_map.1 hmem
  have hr := (mem_span.1 hr).2
  have hlarger : (Term.gt (abs (cell "a" k r)) (abs (cell "a" k k)) : Term L).ty? S.functions Γ = some .bool :=
    Term.ty?_binary (abs_float (cell_float hmat hk hr)) (abs_float (cell_float hmat hk hk)) rfl
  refine Stmt.check_branch hlarger ?_ .nil
  refine .append (Stmt.checkAll_of_forall (swapRows_check h (by decide) hk hr)) ?_
  exact .of_checkAll (Stmt.checkAll_of_forall (swapRows_check h (by decide) hk hr))

omit [Literal L] in
theorem clearRow_check {k r : Nat} (hk : k < n) (hr : r < n) :
    ∀ s ∈ clearRow (L := L) n k r, s.check S looping Γ = some Γ := by
  obtain ⟨hfree, hf⟩ := h.number "f" (by decide)
  refine List.forall_mem_cons.2 ⟨?_, onBoth_check fun matrix hmatrix c hc => ?_⟩
  · exact setVar_check hfree hf (cell_float (h.matrix "a" (by decide)).2 hk hr)
  · obtain ⟨hlocal, hmat⟩ := h.matrix matrix hmatrix
    have hmultiple : (.var "f" * cell matrix c k : Term L).ty? S.functions Γ = some .float :=
      Term.ty?_binary hf (cell_float hmat hc hk) rfl
    exact setCell_check hlocal hmat hc hr (Term.ty?_binary (cell_float hmat hc hr) hmultiple rfl)

theorem eliminate_check {k : Nat} (hk : k < n) :
    ∀ s ∈ eliminate (L := L) n k, s.check S looping Γ = some Γ := by
  obtain ⟨hfree, hp⟩ := h.number "p" (by decide)
  refine List.forall_mem_cons.2 ⟨rfl, ?_⟩
  intro s hmem
  simp only [List.append_assoc, List.mem_append] at hmem
  obtain hmem | hmem | hmem | hmem := hmem
  · exact pivotRows_check h hk s hmem
  · simp only [List.mem_cons, List.not_mem_nil, or_false] at hmem
    obtain rfl | rfl := hmem
    · exact setVar_check hfree hp (cell_float (h.matrix "a" (by decide)).2 hk hk)
    · exact clampPivot_check hfree hp h.epsilon
  · refine onBoth_check (fun matrix hmatrix c hc => ?_) s hmem
    obtain ⟨hlocal, hmat⟩ := h.matrix matrix hmatrix
    exact setCell_check hlocal hmat hc hk (Term.ty?_binary (cell_float hmat hc hk) hp rfl)
  · obtain ⟨r, hr, hmem⟩ := List.mem_flatMap.1 hmem
    exact clearRow_check h hk (mem_span.1 (List.mem_filter.1 hr).1).2 s hmem

end Elimination

section Functions

variable {globals : Types} {fs : Signatures} (hclear : Names.Clear globals)
  (hepsilon : globals.lookup epsilonName = some .float)
include hclear hepsilon

theorem Eliminates.start :
    Eliminates ⟨fs, globals, .mat n⟩ (("f", .float) :: ("p", .float) :: ("s", .float) :: ("inv", .mat n) ::
      ("a", .mat n) :: ("m", .mat n) :: globals) n := by
  refine ⟨fun v hv => ?_, fun v hv => ?_, hepsilon⟩
  · simp only [List.mem_cons, List.not_mem_nil, or_false] at hv
    obtain rfl | rfl := hv
    · exact ⟨hclear.locals "a" (by decide), rfl⟩
    · exact ⟨hclear.locals "inv" (by decide), rfl⟩
  · simp only [List.mem_cons, List.not_mem_nil, or_false] at hv
    obtain rfl | rfl | rfl := hv
    · exact ⟨hclear.locals "s" (by decide), rfl⟩
    · exact ⟨hclear.locals "p" (by decide), rfl⟩
    · exact ⟨hclear.locals "f" (by decide), rfl⟩

theorem closedForm_checks :
    Stmt.Checks ⟨fs, globals, .mat 2⟩ false (("m", .mat 2) :: globals) (closedForm (L := L)) := by
  refine .cons (Stmt.check_declare (hclear.locals "det" (by decide)) ?_) ?_
  · exact Term.ty?_binary (Term.ty?_binary rfl rfl rfl) (Term.ty?_binary rfl rfl rfl) rfl
  refine .cons (clampPivot_check (hclear.locals "det" (by decide)) rfl hepsilon) ?_
  refine .cons (Stmt.check_result (Term.ty?_binary (σ := .mat 2) (τ := .float) ?_ rfl rfl)) .nil
  exact Term.ty?_construct (.cons rfl (.cons rfl (.cons rfl (.cons rfl .nil)))) rfl

theorem gaussJordan_checks :
    Stmt.Checks ⟨fs, globals, .mat n⟩ false (("m", .mat n) :: globals) (gaussJordan (L := L) n) := by
  simp only [gaussJordan, List.cons_append, List.nil_append]
  refine .cons (Stmt.check_declare (hclear.locals "a" (by decide)) rfl) ?_
  refine .cons (Stmt.check_declare (hclear.locals "inv" (by decide)) (Term.ty?_diagonal 1)) ?_
  refine .cons (Stmt.check_declare (hclear.locals "s" (by decide)) rfl) ?_
  refine .cons (Stmt.check_declare (hclear.locals "p" (by decide)) rfl) ?_
  refine .cons (Stmt.check_declare (hclear.locals "f" (by decide)) rfl) ?_
  refine .append (Stmt.checkAll_of_forall fun s hmem => ?_) ?_
  · obtain ⟨k, hk, hmem⟩ := List.mem_flatMap.1 hmem
    exact eliminate_check (.start hclear hepsilon) (mem_span.1 hk).2 s hmem
  · exact .cons (Stmt.check_result rfl) .nil

theorem function_meets (fs : Signatures) (hn : 2 ≤ n) (hn' : n ≤ 4) :
    ∃ f, function (L := L) n = .ok f ∧ f.Meets globals fs (functionName n) ⟨[.mat n], .mat n⟩ := by
  have hname := functionName_not_builtin hn hn'
  have hclosed : Stmt.Checks ⟨fs, globals, .mat 2⟩ false (("m", .mat 2) :: globals) (closedForm (L := L)) :=
    closedForm_checks hclear hepsilon
  have helimination (n : Nat) :
      Stmt.Checks ⟨fs, globals, .mat n⟩ false (("m", .mat n) :: globals) (gaussJordan (L := L) n) :=
    gaussJordan_checks hclear hepsilon
  have hnodup : ["m"].Nodup := by decide
  have hlocals : ∀ v ∈ ["m"], v ∈ Names.locals := by decide
  interval_cases n
  · exact ⟨_, rfl, hclear.meets [(.mat 2, "m")] hname hnodup hlocals hclosed rfl⟩
  · exact ⟨_, rfl, hclear.meets [(.mat 3, "m")] hname hnodup hlocals (helimination 3) (Stmt.anyReturns_result _ _)⟩
  · exact ⟨_, rfl, hclear.meets [(.mat 4, "m")] hname hnodup hlocals (helimination 4) (Stmt.anyReturns_result _ _)⟩

end Functions

end Shader.Inverse

end FlowShader
