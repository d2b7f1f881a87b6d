import FlowShader.Proofs.Scalar.Real
import FlowShader.Proofs.Scalar.Elementary
import FlowShader.Proofs.Scheme.Step

namespace FlowShader

/-- Decimals have their values, and literals are added, subtracted and divided as their values are. -/
structure Literal.Calculates {L K : Type} [Literal L] [Field K] (literal : L → K) : Prop where
  decimal (d : Decimal) : literal (ofDecimal d) = d.digits * 10 ^ d.exponent
  add (x y : L) : literal (x + y) = literal x + literal y
  sub (x y : L) : literal (x - y) = literal x - literal y
  div (x y : L) : literal y ≠ 0 → literal (x / y) = literal x / literal y

theorem Literal.Faithful.calculates {L : Type} [Literal L] {literal : L → ℝ} (h : Literal.Faithful literal) :
    Literal.Calculates literal where
  decimal := h.decimal
  add x y := h.operator .add x y (h.finite _) (h.finite _) (h.finite _) trivial
  sub x y := h.operator .sub x y (h.finite _) (h.finite _) (h.finite _) trivial
  div x y hy := h.operator .div x y (h.finite _) (h.finite _) (h.finite _) hy

namespace Scheme

open Shader (Term Stmt Context Env Value)
open Shader.Stmt (Takes)

section Tableaux

variable {K : Type} {n : Nat}

structure Tableau (K : Type) where
  rows : List (List K)
  weights : List K

variable [Field K]

def combination (as : List K) (ks : List (Fin n → K)) : Fin n → K := (as.zipWith (· • ·) ks).sum

namespace Tableau

def rk2 : Tableau K := ⟨[[], [1 / (2 : ℕ)]], [0, 1]⟩

def rk4 : Tableau K :=
  ⟨[[], [1 / (2 : ℕ)], [0, 1 / (2 : ℕ)], [0, 0, 1]], [1 / (6 : ℕ), 1 / (3 : ℕ), 1 / (3 : ℕ), 1 / (6 : ℕ)]⟩

/-- The method of Gauss and Legendre with two stages, where `root` is a root of three. -/
def gaussLegendre (root : K) : Tableau K :=
  let quarter : K := 1 / (4 : ℕ)
  let offset : K := root / (6 : ℕ)
  ⟨[[quarter, quarter - offset], [quarter + offset, quarter]], [1 / (2 : ℕ), 1 / (2 : ℕ)]⟩

variable (T : Tableau K) (f : (Fin n → K) → Fin n → K) (pos : Fin n → K) (h : K)

def stage (ks : List (Fin n → K)) (row : List K) : Fin n → K := f (pos + h • combination row ks)

def explicitStages : List (Fin n → K) := T.rows.foldl (fun ks row => ks ++ [stage f pos h ks row]) []

def update (ks : List (Fin n → K)) : List (Fin n → K) := T.rows.map (stage f pos h ks)

def advance (ks : List (Fin n → K)) : Fin n → K := pos + h • combination T.weights ks

end Tableau

/-- One step in exact arithmetic. Implicit schemes take their number of rounds from the explicit Euler step or, with
stages, from the velocity at the start. -/
def exactStep (s : Scheme) (rounds : Nat) (root : K) (f : (Fin n → K) → Fin n → K) (pos : Fin n → K) (h : K) :
    Fin n → K :=
  match s with
  | euler => pos + h • f pos
  | rk2 => Tableau.rk2.advance pos h (Tableau.rk2.explicitStages f pos h)
  | rk4 => Tableau.rk4.advance pos h (Tableau.rk4.explicitStages f pos h)
  | implicitEuler => (fun x => pos + h • f x)^[rounds] (pos + h • f pos)
  | implicitMidpoint => (fun x => pos + h • f ((1 / (2 : ℕ) : K) • (pos + x)))^[rounds] (pos + h • f pos)
  | trapezoidal => (fun x => pos + (h / (2 : ℕ)) • (f pos + f x))^[rounds] (pos + h • f pos)
  | gaussLegendre =>
    let T := Tableau.gaussLegendre root
    T.advance pos h ((T.update f pos h)^[rounds] [f pos, f pos])
  | symplecticEuler => symplecticStep f pos h

end Tableaux

variable {L K : Type} [Literal L] [FieldScalar K] {ctx : Context L K} {env : Env K} {n : Nat}
  {f : (Fin n → K) → Fin n → K} {pos : Fin n → K} {h : K}

section Constants

variable [CharZero K] (hliteral : Literal.Calculates ctx.literal)
include hliteral

theorem literal_half : ctx.literal (Literal.ofPlaces 5 1) = 1 / 2 := by
  rw [Literal.ofPlaces, hliteral.decimal]
  norm_num

omit [CharZero K] in
theorem literal_ofNat (k : Nat) : ctx.literal (Literal.ofNat k) = k := by
  rw [Literal.ofNat, hliteral.decimal]
  simp [Decimal.ofNat]

theorem literal_quarter : ctx.literal (Literal.ofPlaces 25 2) = 1 / 4 := by
  rw [Literal.ofPlaces, hliteral.decimal]
  norm_num

theorem eval_halfStep (hh : env.get? "h" = some (.float h)) :
    (halfStep : Term L).eval ctx env = .ok (.float (h * (1 / 2))) := by
  have hhalf : (half : Term L).eval ctx env = .ok (.float (1 / 2)) :=
    congrArg (fun x => Except.ok (Value.float x)) (literal_half hliteral)
  exact Shader.eval_mul (Term.eval_var hh) hhalf

end Constants

variable [CharZero K] (hliteral : Literal.Calculates ctx.literal) (hf : Drives ctx f)

section Explicit

omit [CharZero K] in
theorem advance_rk2 : Tableau.rk2.advance pos h (Tableau.rk2.explicitStages f pos h) =
    pos + h • f (pos + (h * (1 / 2)) • f pos) := by
  simp [Tableau.advance, Tableau.explicitStages, Tableau.rk2, Tableau.stage, combination, smul_smul]

theorem advance_rk4 {k₁ k₂ k₃ k₄ : Fin n → K} (h₁ : k₁ = f pos) (h₂ : k₂ = f (pos + (h * (1 / 2)) • k₁))
    (h₃ : k₃ = f (pos + (h * (1 / 2)) • k₂)) (h₄ : k₄ = f (pos + h • k₃)) :
    Tableau.rk4.advance pos h (Tableau.rk4.explicitStages f pos h) =
      pos + (h / 6) • (k₁ + (2 : K) • k₂ + (2 : K) • k₃ + k₄) := by
  have hstages : Tableau.rk4.explicitStages f pos h = [k₁, k₂, k₃, k₄] := by
    simp [Tableau.explicitStages, Tableau.rk4, Tableau.stage, combination, smul_smul, h₁, h₂, h₃, h₄]
  rw [hstages]
  funext i
  simp [Tableau.advance, Tableau.rk4, combination]
  ring

include hliteral hf

theorem eval_halfStage (hpos : env.get? "pos" = some (.vec (List.ofFn pos))) (hh : env.get? "h" = some (.float h))
    {name : String} {k : Fin n → K} (hk : env.get? name = some (.vec (List.ofFn k))) :
    (velocity (Scheme.pos + halfStep * .var name) : Term L).eval ctx env =
      .ok (.vec (List.ofFn (f (pos + (h * (1 / 2)) • k)))) :=
  hf.eval_velocity (Term.eval_add_vec (Term.eval_var hpos)
    (Term.eval_smul_vec (eval_halfStep hliteral hh) (Term.eval_var hk)))

theorem rk2_run (rounds : Nat) (method : Method) :
    (integrate .rk2 n rounds method : Shader.Function L).run ctx [.vec (List.ofFn pos), .float h] =
      .ok (.vec (List.ofFn (Tableau.rk2.advance pos h (Tableau.rk2.explicitStages f pos h)))) := by
  let E₁ : Env K := (arguments pos h).set "k1" (.vec (List.ofFn (f pos)))
  have h₁ : (velocity Scheme.pos : Term L).eval ctx (arguments pos h) = .ok (.vec (List.ofFn (f pos))) :=
    hf.eval_velocity (Term.eval_var rfl)
  have h₂ : (velocity (Scheme.pos + halfStep * .var "k1") : Term L).eval ctx E₁ =
      .ok (.vec (List.ofFn (f (pos + (h * (1 / 2)) • f pos)))) := eval_halfStage hliteral hf rfl rfl rfl
  refine integrate_run rfl ((Takes.declare_eq (.vec n) "k1" h₁).cons (.declare_eq (.vec n) "k2" h₂)) ?_
  rintro _ rfl
  rw [advance_rk2]
  exact eval_advance rfl rfl (Term.eval_var rfl)

theorem rk4_run (rounds : Nat) (method : Method) :
    (integrate .rk4 n rounds method : Shader.Function L).run ctx [.vec (List.ofFn pos), .float h] =
      .ok (.vec (List.ofFn (Tableau.rk4.advance pos h (Tableau.rk4.explicitStages f pos h)))) := by
  obtain ⟨k₁, hk₁⟩ : ∃ k₁, k₁ = f pos := ⟨_, rfl⟩
  obtain ⟨k₂, hk₂⟩ : ∃ k₂, k₂ = f (pos + (h * (1 / 2)) • k₁) := ⟨_, rfl⟩
  obtain ⟨k₃, hk₃⟩ : ∃ k₃, k₃ = f (pos + (h * (1 / 2)) • k₂) := ⟨_, rfl⟩
  obtain ⟨k₄, hk₄⟩ : ∃ k₄, k₄ = f (pos + h • k₃) := ⟨_, rfl⟩
  let E₁ : Env K := (arguments pos h).set "k1" (.vec (List.ofFn k₁))
  let E₂ : Env K := E₁.set "k2" (.vec (List.ofFn k₂))
  let E₃ : Env K := E₂.set "k3" (.vec (List.ofFn k₃))
  let E₄ : Env K := E₃.set "k4" (.vec (List.ofFn k₄))
  have h₁ : (velocity Scheme.pos : Term L).eval ctx (arguments pos h) = .ok (.vec (List.ofFn k₁)) :=
    hk₁ ▸ hf.eval_velocity (Term.eval_var rfl)
  have h₂ : (velocity (Scheme.pos + halfStep * .var "k1") : Term L).eval ctx E₁ = .ok (.vec (List.ofFn k₂)) :=
    hk₂ ▸ eval_halfStage hliteral hf rfl rfl rfl
  have h₃ : (velocity (Scheme.pos + halfStep * .var "k2") : Term L).eval ctx E₂ = .ok (.vec (List.ofFn k₃)) :=
    hk₃ ▸ eval_halfStage hliteral hf rfl rfl rfl
  have h₄ : (velocity (Scheme.advance (.var "k3")) : Term L).eval ctx E₃ = .ok (.vec (List.ofFn k₄)) :=
    hk₄ ▸ hf.eval_velocity (eval_advance rfl rfl (Term.eval_var rfl))
  refine integrate_run rfl ((Takes.declare_eq (.vec n) "k1" h₁).cons ((Takes.declare_eq (.vec n) "k2" h₂).cons
    ((Takes.declare_eq (.vec n) "k3" h₃).cons (.declare_eq (.vec n) "k4" h₄)))) ?_
  rintro _ rfl
  rw [advance_rk4 hk₁ hk₂ hk₃ hk₄]
  have htwo : (Term.nat 2 : Term L).eval ctx E₄ = .ok (.float 2) :=
    congrArg (fun x => Except.ok (Value.float x)) ((literal_ofNat hliteral 2).trans Nat.cast_ofNat)
  have hsix : (Term.nat 6 : Term L).eval ctx E₄ = .ok (.float 6) :=
    congrArg (fun x => Except.ok (Value.float x)) ((literal_ofNat hliteral 6).trans Nat.cast_ofNat)
  have hsize : (stepSize : Term L).eval ctx E₄ = .ok (.float h) := Term.eval_var rfl
  have hsixth : (stepSize / .nat 6 : Term L).eval ctx E₄ = .ok (.float (h / 6)) :=
    Term.eval_binary_of .div hsize hsix
  have hdouble {name : String} {k : Fin n → K} (hk : E₄.get? name = some (.vec (List.ofFn k))) :
      (.nat 2 * .var name : Term L).eval ctx E₄ = .ok (.vec (List.ofFn ((2 : K) • k))) :=
    Term.eval_smul_vec htwo (Term.eval_var hk)
  exact Term.eval_add_vec (Term.eval_var rfl) (Term.eval_smul_vec hsixth (Term.eval_add_vec (Term.eval_add_vec
    (Term.eval_add_vec (Term.eval_var rfl) (hdouble rfl)) (hdouble rfl)) (Term.eval_var rfl)))

end Explicit

section Implicit

include hliteral hf

theorem implicitMidpoint_run (rounds : Nat) (method : Method) :
    (integrate .implicitMidpoint n rounds method : Shader.Function L).run ctx [.vec (List.ofFn pos), .float h] =
      .ok (.vec (List.ofFn ((fun x => pos + h • f ((1 / (2 : ℕ) : K) • (pos + x)))^[rounds] (pos + h • f pos)))) := by
  refine refine_run _ rfl .nil (hf.eval_eulerStep pos h) fun q => eval_advance rfl rfl (hf.eval_velocity ?_)
  refine Term.eval_smul_vec ?_ (Term.eval_add_vec (Term.eval_var rfl) (Term.eval_var rfl))
  exact congrArg (fun x => Except.ok (Value.float x)) (literal_half hliteral)

theorem trapezoidal_run (rounds : Nat) (method : Method) :
    (integrate .trapezoidal n rounds method : Shader.Function L).run ctx [.vec (List.ofFn pos), .float h] =
      .ok (.vec (List.ofFn ((fun x => pos + (h / (2 : ℕ)) • (f pos + f x))^[rounds] (pos + h • f pos)))) := by
  have hfirst : (velocity Scheme.pos : Term L).eval ctx (arguments pos h) = .ok (.vec (List.ofFn (f pos))) :=
    hf.eval_velocity (Term.eval_var rfl)
  refine refine_run _ rfl (.declare_eq (.vec n) "f0" hfirst) (eval_advance rfl rfl (Term.eval_var rfl)) fun q => ?_
  rw [div_eq_mul_one_div]
  exact Term.eval_add_vec (Term.eval_var rfl) (Term.eval_smul_vec (eval_halfStep hliteral rfl)
    (Term.eval_add_vec (Term.eval_var rfl) (hf.eval_velocity (Term.eval_var rfl))))

end Implicit

section Stages

structure Stages (pos k₁ k₂ : Fin n → K) (h : K) (env : Env K) : Prop where
  position : env.get? "pos" = some (.vec (List.ofFn pos))
  stepSize : env.get? "h" = some (.float h)
  first : env.get? "k1" = some (.vec (List.ofFn k₁))
  second : env.get? "k2" = some (.vec (List.ofFn k₂))

variable {k₁ k₂ : Fin n → K}

omit [FieldScalar K] [CharZero K] in
theorem Stages.set (hs : Stages pos k₁ k₂ h env) {name : String} (hname : name ∉ ["pos", "h", "k1", "k2"])
    (v : Value K) : Stages pos k₁ k₂ h (env.set name v) := by
  have hne : ∀ w ∈ ["pos", "h", "k1", "k2"], name ≠ w := by
    rintro w hw rfl
    exact hname hw
  exact ⟨(Env.get?_set_ne _ (hne _ (by decide)) _).trans hs.position,
    (Env.get?_set_ne _ (hne _ (by decide)) _).trans hs.stepSize,
    (Env.get?_set_ne _ (hne _ (by decide)) _).trans hs.first,
    (Env.get?_set_ne _ (hne _ (by decide)) _).trans hs.second⟩

omit [FieldScalar K] [CharZero K] in
theorem Stages.setFirst (hs : Stages pos k₁ k₂ h env) (k : Fin n → K) :
    Stages pos k k₂ h (env.set "k1" (.vec (List.ofFn k))) :=
  ⟨(Env.get?_set_ne _ (by decide) _).trans hs.position, (Env.get?_set_ne _ (by decide) _).trans hs.stepSize,
    Env.get?_set_self _ _ _, (Env.get?_set_ne _ (by decide) _).trans hs.second⟩

omit [FieldScalar K] [CharZero K] in
theorem Stages.setSecond (hs : Stages pos k₁ k₂ h env) (k : Fin n → K) :
    Stages pos k₁ k h (env.set "k2" (.vec (List.ofFn k))) :=
  ⟨(Env.get?_set_ne _ (by decide) _).trans hs.position, (Env.get?_set_ne _ (by decide) _).trans hs.stepSize,
    (Env.get?_set_ne _ (by decide) _).trans hs.first, Env.get?_set_self _ _ _⟩

def stageCode (a b : L) : Term L := velocity (Scheme.advance (.float a * .var "k1" + .float b * .var "k2"))

include hf

omit [Literal L] [CharZero K] in
theorem takes_stages (a₁ b₁ a₂ b₂ : L) (k₁ k₂ : Fin n → K) :
    Takes (L := L) ctx (Stages pos k₁ k₂ h)
      [.declare (.vec n) "n1" (stageCode a₁ b₁), .declare (.vec n) "n2" (stageCode a₂ b₂), setVar "k1" (.var "n1"),
        setVar "k2" (.var "n2")]
      (Stages pos (f (pos + h • (ctx.literal a₁ • k₁ + ctx.literal b₁ • k₂)))
        (f (pos + h • (ctx.literal a₂ • k₁ + ctx.literal b₂ • k₂))) h) := by
  let next (a b : L) : Fin n → K := f (pos + h • (ctx.literal a • k₁ + ctx.literal b • k₂))
  have hstage (a b : L) {env : Env K} (hs : Stages pos k₁ k₂ h env) :
      (stageCode a b).eval ctx env = .ok (.vec (List.ofFn (next a b))) :=
    hf.eval_velocity (eval_advance hs.position hs.stepSize (Term.eval_add_vec
      (Term.eval_smul_vec rfl (Term.eval_var hs.first)) (Term.eval_smul_vec rfl (Term.eval_var hs.second))))
  let P₁ (env : Env K) : Prop := Stages pos k₁ k₂ h env ∧ env.get? "n1" = some (.vec (List.ofFn (next a₁ b₁)))
  let P₂ (env : Env K) : Prop := P₁ env ∧ env.get? "n2" = some (.vec (List.ofFn (next a₂ b₂)))
  let P₃ (env : Env K) : Prop :=
    Stages pos (next a₁ b₁) k₂ h env ∧ env.get? "n2" = some (.vec (List.ofFn (next a₂ b₂)))
  refine Takes.cons (Q := P₁) (.declare fun env hs => ?_) (Takes.cons (Q := P₂) (.declare fun env hs => ?_)
    (Takes.cons (Q := P₃) (.assign fun env hs => ?_) (.assign fun env hs => ?_)))
  · exact ⟨_, hstage a₁ b₁ hs, hs.set (by decide) _, Env.get?_set_self _ _ _⟩
  · exact ⟨_, hstage a₂ b₂ hs.1, ⟨hs.1.set (by decide) _, (Env.get?_set_ne _ (by decide) _).trans hs.2⟩,
      Env.get?_set_self _ _ _⟩
  · obtain ⟨⟨hs, hn₁⟩, hn₂⟩ := hs
    exact ⟨_, _, hs.first, Term.eval_var hn₁, hs.setFirst _, (Env.get?_set_ne _ (by decide) _).trans hn₂⟩
  · exact ⟨_, _, hs.1.second, Term.eval_var hs.2, hs.1.setSecond _⟩

include hliteral

theorem gaussLegendre_run {root : K} (hroot : ctx.literal (Scalar.sqrt (Literal.ofNat 3)) = root) (rounds : Nat)
    (method : Method) :
    (integrate .gaussLegendre n rounds method : Shader.Function L).run ctx [.vec (List.ofFn pos), .float h] =
      .ok (.vec (List.ofFn ((Tableau.gaussLegendre root).advance pos h
        (((Tableau.gaussLegendre root).update f pos h)^[rounds] [f pos, f pos])))) := by
  let quarter : L := Literal.ofPlaces 25 2
  let offset : L := Scalar.sqrt (Literal.ofNat 3) / Literal.ofNat 6
  have hquarter : ctx.literal quarter = 1 / 4 := literal_quarter hliteral
  have hsix : ctx.literal (Literal.ofNat 6) = 6 := (literal_ofNat hliteral 6).trans Nat.cast_ofNat
  have hoffset : ctx.literal offset = root / 6 := by
    rw [hliteral.div _ _ (by rw [hsix]; norm_num), hroot, hsix]
  let T : Tableau K := .gaussLegendre root
  let P (ks : List (Fin n → K)) (env : Env K) : Prop := ∃ k₁ k₂, ks = [k₁, k₂] ∧ Stages pos k₁ k₂ h env
  have hround (ks : List (Fin n → K)) : Takes (L := L) ctx (P ks)
      [.declare (.vec n) "n1" (stageCode quarter (quarter - offset)),
      .declare (.vec n) "n2" (stageCode (quarter + offset) quarter), setVar "k1" (.var "n1"), setVar "k2" (.var "n2")]
      (P (T.update f pos h ks)) := by
    rintro env ⟨k₁, k₂, rfl, hs⟩
    obtain ⟨env', hexec, hs'⟩ := takes_stages hf quarter (quarter - offset) (quarter + offset) quarter k₁ k₂ env hs
    refine ⟨env', hexec, _, _, ?_, hs'⟩
    simp [T, Tableau.update, Tableau.gaussLegendre, Tableau.stage, combination, hliteral.sub, hliteral.add, hquarter,
      hoffset]
  have h₁ : (velocity Scheme.pos : Term L).eval ctx (arguments pos h) = .ok (.vec (List.ofFn (f pos))) :=
    hf.eval_velocity (Term.eval_var rfl)
  have h₂ : (Term.var "k1" : Term L).eval ctx ((arguments pos h).set "k1" (.vec (List.ofFn (f pos)))) =
      .ok (.vec (List.ofFn (f pos))) := Term.eval_var rfl
  have hstart := ((Takes.declare_eq (.vec n) "k1" h₁).cons (.declare_eq (.vec n) "k2" h₂)).weaken
    (R := P [f pos, f pos]) (by
      rintro _ rfl
      exact ⟨_, _, rfl, rfl, rfl, rfl, rfl⟩)
  refine integrate_run rfl (hstart.append (Takes.iterate hround rounds _)) ?_
  rintro env ⟨k₁, k₂, hks, hs⟩
  have hadvance : T.advance pos h [k₁, k₂] = pos + (h * (1 / 2)) • (k₁ + k₂) := by
    simp [T, Tableau.advance, Tableau.gaussLegendre, combination, smul_smul]
  rw [hks, hadvance]
  exact Term.eval_add_vec (Term.eval_var hs.position) (Term.eval_smul_vec (eval_halfStep hliteral hs.stepSize)
    (Term.eval_add_vec (Term.eval_var hs.first) (Term.eval_var hs.second)))

end Stages

/-- The function `integrate` of a module whose velocity field computes `f` returns the exact step of its scheme.
Implicit Euler is meant by fixed-point iteration, and the tableau of Gauss and Legendre with the root of three that the
literals have. -/
theorem integrate_eq_exactStep {literal : L → K} (hliteral : Literal.Calculates literal) (s : Scheme) (rounds : Nat)
    (method : Method) (hmethod : s = .implicitEuler → method = .fixedPoint) {root : K}
    (hroot : s = .gaussLegendre → root ^ 2 = 3 ∧ literal (Scalar.sqrt (Literal.ofNat 3)) = root) {m : Shader.Module L}
    {globals : Env K} (hm : m.function? Names.integrate = some (s.integrate n rounds method))
    {f : (Fin n → K) → Fin n → K}
    (hf : ∀ q, m.callAt literal globals (Shader.Module.maxDepth - 1) Names.getVelocity [.vec (List.ofFn q)] =
      .ok (.vec (List.ofFn (f q))))
    (pos : Fin n → K) (h : K) :
    m.call literal globals Names.integrate [.vec (List.ofFn pos), .float h] =
      .ok (.vec (List.ofFn (s.exactStep rounds root f pos h))) := by
  let ctx := m.context literal globals (Shader.Module.maxDepth - 1)
  have hdrives : Drives ctx f := fun q =>
    (Shader.Module.context_apply_of_callAt literal globals (hf q)).trans (hf q)
  have hrun : m.call literal globals Names.integrate [.vec (List.ofFn pos), .float h] =
      (s.integrate n rounds method).run ctx [.vec (List.ofFn pos), .float h] :=
    Shader.Module.callAt_of_function? literal globals hm _ _
  rw [hrun]
  cases s with
  | euler => exact euler_run hdrives rounds method
  | rk2 => exact rk2_run hliteral hdrives rounds method
  | rk4 => exact rk4_run hliteral hdrives rounds method
  | implicitEuler =>
      rw [hmethod rfl]
      exact implicitEuler_run hdrives rounds
  | implicitMidpoint => exact implicitMidpoint_run hliteral hdrives rounds method
  | trapezoidal => exact trapezoidal_run hliteral hdrives rounds method
  | gaussLegendre => exact gaussLegendre_run hliteral hdrives (hroot rfl).2 rounds method
  | symplecticEuler => exact symplecticEuler_run hdrives rounds method

/-- Two rounds for the decay `x' = -x` in three dimensions. -/
theorem integrate_eq_exactStep_decay :
    let decay : Shader.Function Elementary :=
      ⟨Names.getVelocity, [(.vec 3, "pos")], .vec 3, [.result (.neg (.var "pos"))]⟩
    let m : Shader.Module Elementary := { functions := [decay, gaussLegendre.integrate 3 2 .fixedPoint] }
    m.call Elementary.toReal [] Names.integrate [.vec (List.ofFn ![1, -2, 5]), .float (1 / 4)] =
      .ok (.vec (List.ofFn (gaussLegendre.exactStep 2 (√3) (fun q => -q) ![1, -2, 5] (1 / 4)))) := by
  intro decay m
  have hroot : (√3 : ℝ) ^ 2 = 3 ∧ Elementary.toReal (Scalar.sqrt (Literal.ofNat 3)) = √3 :=
    ⟨Real.sq_sqrt (by norm_num), congrArg Real.sqrt (Elementary.faithful_toReal.ofNat 3)⟩
  refine integrate_eq_exactStep Elementary.faithful_toReal.calculates .gaussLegendre 2 .fixedPoint (fun h => by cases h)
    (fun _ => hroot) rfl (fun q => ?_) _ _
  have hbody : (Term.neg (.var "pos") : Term Elementary).eval (m.context Elementary.toReal [] 63)
      [("pos", .vec (List.ofFn q))] = .ok (.vec (List.ofFn (-q))) := by
    refine bind_eq_ok_of (Term.eval_var rfl) ?_
    rw [Value.map, List.map_ofFn]
    rfl
  have hbind : Shader.Function.bind Names.getVelocity [(.vec 3, "pos")] [.vec (List.ofFn q)] [] =
      .ok [("pos", .vec (List.ofFn q))] := by
    simp [Shader.Function.bind, Value.ty, Env.set]
  have hresult : Stmt.execAll (m.context Elementary.toReal [] 63) ([] ++ [.result (.neg (.var "pos"))])
      [("pos", .vec (List.ofFn q))] = .ok ([("pos", .vec (List.ofFn q))], .result (.vec (List.ofFn (-q)))) :=
    Stmt.execAll_result rfl hbody
  exact Shader.Function.run_eq_ok (f := decay) rfl hbind hresult

end Scheme

end FlowShader
