import FlowShader.Proofs.Scalar.Real
import FlowShader.Proofs.Scalar.Elementary
import FlowShader.Proofs.Shader.Division
import FlowShader.Proofs.Shader.Inversion

namespace FlowShader.Shader.Inverse

open Value (ofMatrix)
open Stmt (Takes DividesBy)

variable {L K : Type} [FieldScalar K] {D : Divisions L K} {env : Env K} {n : Nat} {ε : K} {P : Env K → Prop}
  {p : K → Prop}

section Undivided

variable (habs : D.ctx.call? "abs" = none)

include habs in
theorem term_abs_eq_nil {t : Term L} (ht : D.term env t = []) : D.term env (abs t) = [] := by
  rw [abs, Divisions.term, Divisions.terms, Divisions.terms, ht]
  split
  · next vs _ =>
      rw [Divisions.apply, habs]
      rfl
  · rfl

theorem swapRows_undivided (matrix : String) (first r₁ r₂ : Nat) :
    ∀ s ∈ (swapRows n matrix first r₁ r₂ : List (Stmt L)), ∀ env, D.stmt s env = [] := by
  intro s hs env
  obtain ⟨c, -, hs⟩ := List.mem_flatMap.1 hs
  simp only [List.mem_cons, List.not_mem_nil, or_false] at hs
  obtain rfl | rfl | rfl := hs <;> rfl

include habs in
theorem pivotRows_undivided (k : Nat) : ∀ s ∈ (pivotRows n k : List (Stmt L)), ∀ env, D.stmt s env = [] := by
  intro s hs env
  obtain ⟨r, -, rfl⟩ := List.mem_map.1 hs
  refine Divisions.stmt_branch_eq_nil (Divisions.term_binary_eq_nil (by decide) (term_abs_eq_nil habs rfl)
    (term_abs_eq_nil habs rfl)) (Divisions.stmts_eq_nil fun s hs => ?_) rfl
  rcases List.mem_append.1 hs with hs | hs
  · exact swapRows_undivided _ _ _ _ s hs
  · exact swapRows_undivided _ _ _ _ s hs

include habs in
theorem clampPivot_undivided [Literal L] (name : String) (env : Env K) :
    D.stmt (clampPivot name : Stmt L) env = [] := by
  have hinner (env : Env K) : D.stmt (.branch (.lt (.var name) (.float 0)) [setVar name (.neg (.var epsilonName))]
      [setVar name (.var epsilonName)] : Stmt L) env = [] :=
    Divisions.stmt_branch_eq_nil (Divisions.term_binary_eq_nil (by decide) rfl rfl)
      (Divisions.stmts_eq_nil (by simp [setVar, Divisions.stmt, Divisions.term]))
      (Divisions.stmts_eq_nil (by simp [setVar, Divisions.stmt, Divisions.term]))
  exact Divisions.stmt_branch_eq_nil (Divisions.term_binary_eq_nil (by decide) (term_abs_eq_nil habs rfl) rfl)
    (Divisions.stmts_eq_nil fun s hs => List.mem_singleton.1 hs ▸ hinner) rfl

theorem clearRow_undivided (k r : Nat) : ∀ s ∈ (clearRow n k r : List (Stmt L)), ∀ env, D.stmt s env = [] := by
  have hrow (matrix : String) (c : Nat) (env : Env K) :
      D.stmt (setCell matrix c r (cell matrix c r - .var "f" * cell matrix c k) : Stmt L) env = [] :=
    Divisions.term_binary_eq_nil (by decide) rfl (Divisions.term_binary_eq_nil (by decide) rfl rfl)
  intro s hs env
  rcases List.mem_cons.1 hs with rfl | hs
  · rfl
  · rcases List.mem_append.1 hs with hs | hs
    · obtain ⟨c, -, rfl⟩ := List.mem_map.1 hs
      exact hrow _ c env
    · obtain ⟨c, -, rfl⟩ := List.mem_map.1 hs
      exact hrow _ c env

end Undivided

section Elimination

omit [FieldScalar K] in
theorem Working.setMatrix {S : Rows K n} {x : String → K} (h : Working S x env) {matrix : String}
    (hmatrix : matrix ∈ ["a", "inv"]) :
    ∃ b : Fin n → Fin n → K, env.get? matrix = some (ofMatrix b) ∧
      ∀ b' : Fin n → Fin n → K, ∃ S' : Rows K n, Working S' x (env.set matrix (ofMatrix b')) := by
  have hne : ∀ v ∈ ["p", "f", "s", epsilonName], ∀ matrix ∈ ["a", "inv"], matrix ≠ v := by decide
  have hspare (b' : Fin n → Fin n → K) : ∃ v, (env.set matrix (ofMatrix b')).get? "s" = some v := by
    rw [Env.get?_set_ne _ (hne _ (by decide) matrix hmatrix)]
    exact h.spare
  have hnumber (b' : Fin n → Fin n → K) : ∀ v ∈ ["p", "f"],
      (env.set matrix (ofMatrix b')).get? v = some (.float (x v)) := by
    intro v hv
    rw [Env.get?_set_ne _ (hne v (by simp only [List.mem_cons] at hv ⊢; tauto) matrix hmatrix), h.number v hv]
  have hepsilon (b' : Fin n → Fin n → K) : (env.set matrix (ofMatrix b')).get? epsilonName = none := by
    rw [Env.get?_set_ne _ (hne _ (by decide) matrix hmatrix), h.epsilon]
  simp only [List.mem_cons, List.not_mem_nil, or_false] at hmatrix
  obtain rfl | rfl := hmatrix
  · exact ⟨_, h.left, fun b' => ⟨fun i => (b' i, (S i).2), Env.get?_set_self _ _ _,
      (Env.get?_set_ne _ (by decide) _).trans h.right, hspare b', hnumber b', hepsilon b'⟩⟩
  · exact ⟨_, h.right, fun b' => ⟨fun i => ((S i).1, b' i), (Env.get?_set_ne _ (by decide) _).trans h.left,
      Env.get?_set_self _ _ _, hspare b', hnumber b', hepsilon b'⟩⟩

theorem quotients_dividesBy (k : Fin n) {x : String → K} (hx : p (x "p")) :
    DividesBy D (fun env => ∃ S : Rows K n, Working S x env)
      (onBoth n k fun matrix c => setCell matrix c k (cell matrix c k / .var "p")) p := by
  have hcell : ∀ matrix ∈ ["a", "inv"], ∀ c < n,
      Takes D.ctx (fun env => ∃ S : Rows K n, Working S x env)
        [setCell matrix c k (cell matrix c k / .var "p")] (fun env => ∃ S : Rows K n, Working S x env) ∧
      DividesBy D (fun env => ∃ S : Rows K n, Working S x env)
        [setCell matrix c k (cell matrix c k / .var "p")] p := by
    intro matrix hmatrix c hc
    refine ⟨.single ?_, .single ?_⟩
    · rintro env ⟨S, h⟩
      obtain ⟨b, hb, hset⟩ := h.setMatrix hmatrix
      have hquotient : (cell matrix c k / .var "p" : Term L).eval D.ctx env = .ok (.float (b k ⟨c, hc⟩ / x "p")) :=
        Term.eval_binary_of .div (eval_cell hb ⟨c, hc⟩ k) (Term.eval_var (h.number "p" (by decide)))
      exact ⟨_, exec_setCell hb ⟨c, hc⟩ k hquotient, hset _⟩
    · rintro env ⟨S, h⟩ y hy
      have hdivisors : D.stmt (setCell matrix c k (cell matrix c k / .var "p")) env = [x "p"] :=
        Divisions.term_div_var (cell matrix c k) (h.number "p" (by decide))
      rw [hdivisors] at hy
      exact List.mem_singleton.1 hy ▸ hx
  refine .of_forall fun s hs => ?_
  rcases List.mem_append.1 hs with hs | hs
  · obtain ⟨c, hc, rfl⟩ := List.mem_map.1 hs
    exact hcell "a" (by decide) c (mem_span.1 hc).2
  · obtain ⟨c, hc, rfl⟩ := List.mem_map.1 hs
    exact hcell "inv" (by decide) c (mem_span.1 hc).2

omit [FieldScalar K] in
theorem Holds.any {Q : Rows K n → Prop} (h : Holds Q env) : Holds (fun _ : Rows K n => True) env := by
  obtain ⟨S, -, hworking⟩ := h
  exact ⟨S, trivial, hworking⟩

theorem takes_of_holds {ctx : Context L K} {ss : List (Stmt L)} {Q : Env K → Prop} {R : Rows K n → Prop}
    (h : ∀ S : Rows K n, Takes ctx (Holds (· = S)) ss Q) : Takes ctx (Holds R) ss Q := by
  rintro env ⟨S, -, hworking⟩
  exact h S env ⟨S, rfl, hworking⟩

variable [LinearOrder K] [OrderedScalar K] [IsStrictOrderedRing K] [Literal L] (habs : D.ctx.call? "abs" = none)
  (hε : D.ctx.globals.get? epsilonName = some (.float ε)) (hpos : 0 < ε)
include habs hε hpos

theorem eliminate_dividesBy (k : Fin n) :
    DividesBy D (Holds fun _ : Rows K n => True) (eliminate n k) (ε ≤ |·|) := by
  let before : List (Stmt L) :=
    .comment s!"column {k.val}" :: pivotRows n k ++ [setVar "p" (cell "a" k k), clampPivot "p"]
  let scaling : List (Stmt L) := onBoth n k fun matrix c => setCell matrix c k (cell matrix c k / .var "p")
  have hbefore : DividesBy D (Holds fun _ : Rows K n => True) before (ε ≤ |·|) := by
    refine .of_forall_nil fun s hs env => ?_
    simp only [before, List.cons_append, List.mem_cons, List.mem_append, List.not_mem_nil, or_false] at hs
    obtain rfl | hs | rfl | rfl := hs
    · rfl
    · exact pivotRows_undivided habs k.val s hs env
    · rfl
    · exact clampPivot_undivided habs "p" env
  have htakes : Takes D.ctx (Holds fun _ : Rows K n => True) before fun env => ∃ S, Scales ε k S env := by
    have hcomment : Takes (L := L) D.ctx (Holds fun _ : Rows K n => True) [.comment s!"column {k.val}"]
        (Holds fun _ : Rows K n => True) := .single fun env h => ⟨env, rfl, h⟩
    have hrows : Takes (L := L) D.ctx (Holds fun _ : Rows K n => True) (pivotRows n k)
        (Holds fun _ : Rows K n => True) :=
      takes_of_holds fun S => (takes_pivotRows habs 0 S k).weaken fun env h => h.any
    refine (hcomment.cons hrows).append ?_
    exact takes_of_holds fun S => (takes_pivot habs hε hpos k S).weaken fun env h => ⟨S, h⟩
  have hscaling : DividesBy D (fun env => ∃ S, Scales ε k S env) scaling (ε ≤ |·|) := by
    rintro env ⟨S, x, hx, -, hworking⟩
    exact quotients_dividesBy k hx env ⟨S, hworking⟩
  have htakes' : Takes D.ctx (fun env => ∃ S, Scales ε k S env) scaling (Holds fun _ : Rows K n => True) := by
    rintro env ⟨S, x, -, -, hworking⟩
    obtain ⟨env', hexec, hworking'⟩ := takes_quotients (L := L) k S x env hworking
    exact ⟨env', hexec, _, trivial, x, hworking'⟩
  have hclear : DividesBy D (Holds fun _ : Rows K n => True) (((span 0 n).filter (· ≠ k.val)).flatMap (clearRow n k))
      (ε ≤ |·|) := by
    refine .of_forall_nil fun s hs => ?_
    obtain ⟨r, -, hs⟩ := List.mem_flatMap.1 hs
    exact clearRow_undivided k.val r s hs
  have hall := hbefore.append htakes (hscaling.append htakes' hclear)
  simpa only [eliminate, before, scaling, List.append_assoc, List.cons_append] using hall

end Elimination

section Functions

variable [LinearOrder K] [OrderedScalar K] [IsStrictOrderedRing K] [Literal L] (habs : D.ctx.call? "abs" = none)
  (hone : D.ctx.literal 1 = 1) (hε : D.ctx.globals.get? epsilonName = some (.float ε)) (hpos : 0 < ε)
include habs hε hpos

include hone in
theorem gaussJordan_dividesBy (M : Fin n → Fin n → K) :
    DividesBy D (· = [("m", ofMatrix M)]) (gaussJordan n) (ε ≤ |·|) := by
  have hdeclare : DividesBy D (· = [("m", ofMatrix M)]) [.declare (.mat n) "a" (.var "m"),
      .declare (.mat n) "inv" (.construct (.mat n) [.float 1]), .declare .float "s" (.float 0),
      .declare .float "p" (.float 0), .declare .float "f" (.float 0)] (ε ≤ |·|) := by
    refine .of_forall_nil fun s hs env => ?_
    simp only [List.mem_cons, List.not_mem_nil, or_false] at hs
    obtain rfl | rfl | rfl | rfl | rfl := hs <;> rfl
  have hstep (k : Nat) (hk : k ∈ span 0 n) :
      Takes D.ctx (Holds fun _ : Rows K n => True) (eliminate n k) (Holds fun _ : Rows K n => True) ∧
      DividesBy D (Holds fun _ : Rows K n => True) (eliminate n k) (ε ≤ |·|) := by
    obtain ⟨k, rfl⟩ : ∃ k' : Fin n, k'.val = k := ⟨⟨k, (mem_span.1 hk).2⟩, rfl⟩
    refine ⟨takes_of_holds fun S => (takes_eliminate habs hε hpos 0 k S).weaken fun env h => h.any, ?_⟩
    exact eliminate_dividesBy habs hε hpos k
  have hsteps : DividesBy D (Holds (· = Rows.start M)) ((span 0 n).flatMap (eliminate n)) (ε ≤ |·|) :=
    fun env h => DividesBy.flatMap hstep env h.any
  have hresult : DividesBy D (Holds fun S => Rows.Pivots ε (List.finRange n) (Rows.start M) → Rows.Reduced M n S)
      [.result (.var "inv")] (ε ≤ |·|) := .of_forall_nil fun s hs env => List.mem_singleton.1 hs ▸ rfl
  have hall := hdeclare.append (takes_declarations hone M) (hsteps.append (takes_elimination habs hε hpos M) hresult)
  rwa [← List.append_assoc] at hall

theorem closedForm_dividesBy (M : Fin 2 → Fin 2 → K) :
    DividesBy D (· = [("m", ofMatrix M)]) closedForm (ε ≤ |·|) := by
  have hdeterminant : DividesBy D (· = [("m", ofMatrix M)])
      [.declare .float "det" (cell "m" 0 0 * cell "m" 1 1 - cell "m" 1 0 * cell "m" 0 1), clampPivot "det"]
      (ε ≤ |·|) := by
    refine .of_forall_nil fun s hs env => ?_
    simp only [List.mem_cons, List.not_mem_nil, or_false] at hs
    obtain rfl | rfl := hs
    · exact Divisions.term_binary_eq_nil (by decide) (Divisions.term_binary_eq_nil (by decide) rfl rfl)
        (Divisions.term_binary_eq_nil (by decide) rfl rfl)
    · exact clampPivot_undivided habs "det" env
  refine hdeterminant.append (takes_determinant habs hε hpos M) (.single ?_)
  rintro _ ⟨d, hd, -, rfl⟩ y hy
  exact List.mem_singleton.1 hy ▸ hd

include hone in
theorem function_divisors (M : Fin n → Fin n → K) (hn : 2 ≤ n) (hn' : n ≤ 4) {f : Function L}
    (hf : function n = .ok f) : ∀ y ∈ f.divisors D [ofMatrix M], ε ≤ |y| := by
  have hbody {body : List (Stmt L)} (h : DividesBy D (· = [("m", ofMatrix M)]) body (ε ≤ |·|)) :
      ∀ y ∈ (⟨functionName n, [(.mat n, "m")], .mat n, body⟩ : Function L).divisors D [ofMatrix M], ε ≤ |y| := by
    rw [Function.divisors, bind_matrix]
    exact h _ rfl
  have helimination := hbody (gaussJordan_dividesBy habs hone hε hpos M)
  interval_cases n
  · obtain rfl := Except.ok.inj hf
    exact hbody (closedForm_dividesBy habs hε hpos M)
  · obtain rfl := Except.ok.inj hf
    exact helimination
  · obtain rfl := Except.ok.inj hf
    exact helimination

end Functions

/-- The inverting function of a module divides by numbers no smaller than the epsilon only, so that its result does not
depend on what smaller ones would give. It returns a matrix, and the inverse of its argument if neither the determinant,
in two dimensions, nor a pivot, in more, is smaller than that. -/
theorem divisors_large_and_inverts [LinearOrder K] [OrderedScalar K] [IsStrictOrderedRing K] [Literal L] {m : Module L}
    {f : Function L} (hn : 2 ≤ n) (hn' : n ≤ 4) (hf : function n = .ok f) (hm : m.function? (functionName n) = some f)
    (habs : m.defines "abs" = false) {literal : L → K} (hone : literal 1 = 1) {globals : Env K}
    (hε : globals.get? epsilonName = some (.float ε)) (hpos : 0 < ε) (M : Fin n → Fin n → K) :
    (∀ y ∈ m.divisors literal globals (functionName n) [ofMatrix M], ε ≤ |y|) ∧
    (∀ d : K → K → K, (∀ x y, ε ≤ |y| → d x y = x / y) →
      @Module.call L K (redivided d) m literal globals (functionName n) [ofMatrix M] =
        m.call literal globals (functionName n) [ofMatrix M]) ∧
    ∃ N : Fin n → Fin n → K, m.call literal globals (functionName n) [ofMatrix M] = .ok (ofMatrix N) ∧
      (Unclamped ε M → Matrix.of M * Matrix.of N = 1 ∧ Matrix.of N * Matrix.of M = 1) := by
  let ctx := m.context literal globals 64
  have habs' : ctx.call? "abs" = none := if_neg (by rw [habs]; exact Bool.false_ne_true)
  have hlarge : ∀ y ∈ m.divisors literal globals (functionName n) [ofMatrix M], ε ≤ |y| := by
    have hdivisors := function_divisors (D := ⟨ctx, m.divisorsAt literal globals 64⟩) habs' hone hε hpos M hn hn' hf
    rw [Module.divisors, Module.maxDepth, Module.divisorsAt, hm]
    exact hdivisors
  obtain ⟨N, hrun, hN⟩ := function_run habs' hone hε hpos M hn hn' hf
  refine ⟨hlarge, fun d hd => ?_, N, ?_, fun hM => ?_⟩
  · exact m.callAt_redivided literal globals _ _ _ fun y hy x => hd x y (hlarge y hy)
  · exact (Module.callAt_of_function? literal globals hm 64 _).trans hrun
  · exact ⟨mul_eq_one_comm.1 (hN hM), hN hM⟩

/-- A matrix whose first pivot would be zero, were its rows not exchanged. -/
theorem unclamped_exchanged : Unclamped (1 : ℝ) ![![0, 1, 0], ![1, 0, 0], ![0, 0, 1]] := by
  let S₀ : Rows ℝ 3 := Rows.start ![![0, 1, 0], ![1, 0, 0], ![0, 0, 1]]
  let S : Rows ℝ 3 := S₀ ∘ Equiv.swap 0 1
  have hlast : Equiv.swap (0 : Fin 3) 1 2 = 2 := rfl
  have hfirst : Rows.pivot 0 S₀ = S := by
    change Rows.exchange 0 (Rows.exchange 0 S₀ 1) 2 = S
    simp [S, S₀, Rows.start, Rows.exchange, hlast]
  have hsecond : Rows.pivot 1 S = S := by
    change Rows.exchange 1 S 2 = S
    simp [S, S₀, Rows.start, Rows.exchange, hlast]
  have hstep (k : Fin 3) (hk : k ≠ 2) : Rows.clear k (Rows.scale k S) = S := by
    funext i
    fin_cases k <;> fin_cases i <;> simp_all [S, S₀, Rows.start, Rows.clear, Rows.scale]
  have hpivots : (1 : ℝ) ≤ |(Rows.pivot 0 S₀ 0).1 0| ∧ (1 : ℝ) ≤ |(Rows.pivot 1 (Rows.step 0 S₀) 1).1 1| ∧
      (1 : ℝ) ≤ |(Rows.step 1 (Rows.step 0 S₀) 2).1 2| ∧ True := by
    rw [Rows.step, Rows.step, hfirst, hstep 0 (by decide), hsecond, hstep 1 (by decide)]
    simp [S, S₀, Rows.start, hlast]
  rw [Unclamped, if_neg (by decide)]
  exact hpivots

theorem divisors_large_and_inverts_exchanged :
    let M : Fin 3 → Fin 3 → ℝ := ![![0, 1, 0], ![1, 0, 0], ![0, 0, 1]]
    ∃ (m : Module Elementary) (globals : Env ℝ), addTo {} 3 1 = .ok m ∧ m.globals Elementary.toReal = .ok globals ∧
      Unclamped 1 M ∧ (∀ y ∈ m.divisors Elementary.toReal globals (functionName 3) [ofMatrix M], 1 ≤ |y|) ∧
      ∃ N : Fin 3 → Fin 3 → ℝ, m.call Elementary.toReal globals (functionName 3) [ofMatrix M] = .ok (ofMatrix N) ∧
        Matrix.of M * Matrix.of N = 1 ∧ Matrix.of N * Matrix.of M = 1 := by
  have hone : Elementary.toReal 1 = 1 := Nat.cast_one
  let f : Function Elementary := ⟨functionName 3, [(.mat 3, "m")], .mat 3, gaussJordan 3⟩
  let m : Module Elementary := (({} : Module Elementary).addConstant epsilonName .float (.float 1)).addFunction f
  have hglobals : Env.get? [(epsilonName, Value.float (1 : ℝ))] epsilonName = some (.float 1) := rfl
  obtain ⟨hlarge, -, N, hN, hinverse⟩ := divisors_large_and_inverts (m := m) (f := f) (by decide) (by decide) rfl rfl
    rfl hone hglobals one_pos ![![0, 1, 0], ![1, 0, 0], ![0, 0, 1]]
  refine ⟨m, _, rfl, ?_, unclamped_exchanged, hlarge, N, hN, hinverse unclamped_exchanged⟩
  rw [← hone]
  rfl

end FlowShader.Shader.Inverse
