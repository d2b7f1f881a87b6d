import FlowShader.Proofs.Scalar.Real
import FlowShader.Proofs.Lowering.Meaning
import FlowShader.Proofs.Shader.Execution
import FlowShader.Proofs.Shader.LinearAlgebra
import FlowShader.Scheme.Step

namespace FlowShader.Scheme

open Shader (Term Stmt Context Env Value)
open Shader.Stmt (Takes)

variable {L K : Type} [RingScalar K] {ctx : Context L K} {env : Env K} {n : Nat} {f : (Fin n → K) → Fin n → K}
  {pos q v : Fin n → K} {h : K}

def Drives (ctx : Context L K) (f : (Fin n → K) → Fin n → K) : Prop :=
  ∀ q, ctx.apply Names.getVelocity [.vec (List.ofFn q)] = .ok (.vec (List.ofFn (f q)))

theorem Drives.eval_velocity (hf : Drives ctx f) {t : Term L} (ht : t.eval ctx env = .ok (.vec (List.ofFn q))) :
    (velocity t).eval ctx env = .ok (.vec (List.ofFn (f q))) :=
  (Term.eval_call ht).trans (hf q)

theorem eval_advance (hpos : env.get? "pos" = some (.vec (List.ofFn pos))) (hh : env.get? "h" = some (.float h))
    {t : Term L} (ht : t.eval ctx env = .ok (.vec (List.ofFn v))) :
    (advance t).eval ctx env = .ok (.vec (List.ofFn (pos + h • v))) :=
  Term.eval_add_vec (Term.eval_var hpos) (Term.eval_smul_vec (Term.eval_var hh) ht)

def arguments (pos : Fin n → K) (h : K) : Env K := [("pos", .vec (List.ofFn pos)), ("h", .float h)]

theorem integrate_run [Literal L] {s : Scheme} {rounds : Nat} {method : Method} {code : List (Stmt L)} {t : Term L}
    {Q : Env K → Prop} {w : Value K} (hcode : s.step n rounds method = code ++ [.result t])
    (htakes : Takes ctx (· = arguments pos h) code Q) (ht : ∀ env, Q env → t.eval ctx env = .ok w) :
    (integrate s n rounds method : Shader.Function L).run ctx [.vec (List.ofFn pos), .float h] = .ok w := by
  have hbind : Shader.Function.bind Names.integrate [(.vec n, "pos"), (.float, "h")]
      [.vec (List.ofFn pos), .float h] [] = .ok (arguments pos h) := by
    simp only [Shader.Function.bind, Value.ty, List.length_ofFn, if_true]
    rfl
  obtain ⟨env, hexec, hQ⟩ := htakes _ rfl
  have hbody : Stmt.execAll ctx (s.step n rounds method) (arguments pos h) = .ok (env, .result w) := by
    rw [hcode]
    exact Stmt.execAll_result hexec (ht env hQ)
  exact Shader.Function.run_eq_ok rfl hbind hbody

section Euler

theorem Drives.eval_eulerStep (hf : Drives ctx f) (pos : Fin n → K) (h : K) :
    (advance (velocity Scheme.pos)).eval ctx (arguments pos h) = .ok (.vec (List.ofFn (pos + h • f pos))) :=
  eval_advance rfl rfl (hf.eval_velocity (Term.eval_var rfl))

variable [Literal L]

theorem euler_run (hf : Drives ctx f) (rounds : Nat) (method : Method) :
    (integrate .euler n rounds method : Shader.Function L).run ctx [.vec (List.ofFn pos), .float h] =
      .ok (.vec (List.ofFn (pos + h • f pos))) := by
  refine integrate_run rfl .nil ?_
  rintro _ rfl
  exact hf.eval_eulerStep pos h

theorem refine_run {s : Scheme} {rounds : Nat} {method : Method} {code : List (Stmt L)} {guess round : Term L}
    {E : Env K} (g : (Fin n → K) → Fin n → K)
    (hstep : s.step n rounds method = code ++ refine n rounds guess [setVar "x" round])
    (hcode : Takes ctx (· = arguments pos h) code (· = E)) (hguess : guess.eval ctx E = .ok (.vec (List.ofFn q)))
    (hround : ∀ q, round.eval ctx (E.set "x" (.vec (List.ofFn q))) = .ok (.vec (List.ofFn (g q)))) :
    (integrate s n rounds method : Shader.Function L).run ctx [.vec (List.ofFn pos), .float h] =
      .ok (.vec (List.ofFn (g^[rounds] q))) := by
  let P (q : Fin n → K) (env : Env K) : Prop := env = E.set "x" (.vec (List.ofFn q))
  have hloop : Takes ctx (P q) [.loop rounds [setVar "x" round]] (P (g^[rounds] q)) := by
    refine .iterate (fun q => .assign ?_) rounds q
    rintro _ rfl
    exact ⟨_, _, Env.get?_set_self _ _ _, hround q, Env.set_set _ _ _ _⟩
  have hall := hcode.append ((Takes.declare_eq (.vec n) "x" hguess).cons hloop)
  refine integrate_run (by rw [hstep, List.append_assoc]; rfl) hall ?_
  rintro _ rfl
  exact Term.eval_var (Env.get?_set_self _ _ _)

theorem implicitEuler_run (hf : Drives ctx f) (rounds : Nat) :
    (integrate .implicitEuler n rounds .fixedPoint : Shader.Function L).run ctx [.vec (List.ofFn pos), .float h] =
      .ok (.vec (List.ofFn ((fun q => pos + h • f q)^[rounds] (pos + h • f pos)))) :=
  refine_run _ rfl .nil (hf.eval_eulerStep pos h) fun _ =>
    eval_advance rfl rfl (hf.eval_velocity (Term.eval_var rfl))

end Euler

section Symplectic

/-- The momenta are moved, the positions are where they were. -/
def kicked {R : Type} [CommRing R] (f : (Fin n → R) → Fin n → R) (pos : Fin n → R) (h : R) : Fin n → R :=
  fun i => if i.val % 2 = 1 then pos i + h * f pos i else pos i

/-- Momenta, at odd places, move with the velocity at the start. Positions, at even places, move with the velocity after
that, and a last place that is not paired with the one at the start. -/
def symplecticStep {R : Type} [CommRing R] (f : (Fin n → R) → Fin n → R) (pos : Fin n → R) (h : R) : Fin n → R :=
  fun i => if i.val % 2 = 1 then pos i + h * f pos i
    else if i.val + 1 < n then pos i + h * f (kicked f pos h) i
    else pos i + h * f pos i

def move (source : String) (i : Nat) : Stmt L :=
  .assign (.component "next" i) (.component Scheme.pos i + stepSize * .component (.var source) i)

/-- The vector with some of its places moved by `w`. -/
def movedAt (is : List Nat) (pos w : Fin n → K) (h : K) (u : Fin n → K) : Fin n → K :=
  fun i => if i.val ∈ is then pos i + h * w i else u i

theorem takes_moves {source : String} {w : Fin n → K} {E : (Fin n → K) → Env K}
    (hE : ∀ u, (E u).get? "pos" = some (.vec (List.ofFn pos)) ∧ (E u).get? "h" = some (.float h) ∧
      (E u).get? source = some (.vec (List.ofFn w)) ∧ (E u).get? "next" = some (.vec (List.ofFn u)) ∧
      ∀ u', (E u).set "next" (.vec (List.ofFn u')) = E u')
    {is : List Nat} (his : ∀ i ∈ is, i < n) (u : Fin n → K) :
    Takes (L := L) ctx (· = E u) (is.map (move source)) (· = E (movedAt is pos w h u)) := by
  induction is generalizing u with
  | nil =>
      have hnil : movedAt [] pos w h u = u := funext fun i => if_neg List.not_mem_nil
      rw [hnil]
      exact .nil
  | cons i is ih =>
      obtain ⟨hi, his⟩ := List.forall_mem_cons.1 his
      let y : K := pos ⟨i, hi⟩ + h * w ⟨i, hi⟩
      have hmove : Takes (L := L) ctx (· = E u) [move source i] (· = E (Function.update u ⟨i, hi⟩ y)) := by
        refine .single ?_
        rintro _ rfl
        obtain ⟨hpos, hh, hsource, hnext, hset⟩ := hE u
        have hcomponent {name : String} {x : Fin n → K} (hx : (E u).get? name = some (.vec (List.ofFn x))) :
            (Term.component (.var name) i : Term L).eval ctx (E u) = .ok (.float (x ⟨i, hi⟩)) :=
          Term.eval_component_var hx (by rw [List.getElem?_ofFn, dif_pos hi])
        have hvalue := Term.eval_binary_of .add (hcomponent hpos)
          (Shader.eval_mul (Term.eval_var (L := L) hh) (hcomponent hsource))
        have hwrite : Shader.Place.write (.component "next" i) (.float y) (E u) =
            .ok (E (Function.update u ⟨i, hi⟩ y)) := by
          rw [Shader.Place.write, Shader.Place.name, hnext]
          simp only [List.length_ofFn, hi, if_true]
          refine Eq.trans ?_ (congrArg Except.ok (hset (Function.update u ⟨i, hi⟩ y)))
          rw [← Value.ofFn_set u ⟨i, hi⟩ y]
          rfl
        exact ⟨_, bind_eq_ok_of hvalue (bind_eq_ok_of hwrite rfl), rfl⟩
      have hcons : movedAt is pos w h (Function.update u ⟨i, hi⟩ y) = movedAt (i :: is) pos w h u := by
        funext j
        by_cases hj : j.val ∈ is
        · simp [movedAt, hj]
        · by_cases hji : j.val = i
          · obtain rfl : j = ⟨i, hi⟩ := Fin.ext hji
            simp [movedAt, hj, y]
          · have hne : j ≠ ⟨i, hi⟩ := fun h => hji (congrArg Fin.val h)
            simp [movedAt, hj, hji, hne]
      exact hmove.cons (hcons ▸ ih his _)

theorem movedAt_odd (n : Nat) (f : (Fin n → K) → Fin n → K) (pos : Fin n → K) (h : K) :
    movedAt ((List.range (n / 2)).map fun i => 2 * i + 1) pos (f pos) h pos = kicked f pos h := by
  funext i
  have hmem : i.val ∈ (List.range (n / 2)).map (fun i => 2 * i + 1) ↔ i.val % 2 = 1 := by
    simp only [List.mem_map, List.mem_range]
    exact ⟨by omega, fun hi => ⟨i.val / 2, by omega, by omega⟩⟩
  simp only [movedAt, hmem, kicked]

theorem movedAt_even (n : Nat) (f : (Fin n → K) → Fin n → K) (pos : Fin n → K) (h : K) :
    movedAt (if n % 2 = 1 then [n - 1] else []) pos (f pos) h
      (movedAt ((List.range (n / 2)).map (2 * ·)) pos (f (kicked f pos h)) h (kicked f pos h)) =
        symplecticStep f pos h := by
  funext i
  have hlast : i.val ∈ (if n % 2 = 1 then [n - 1] else []) ↔ i.val % 2 = 0 ∧ ¬i.val + 1 < n := by
    split <;> simp <;> omega
  have hpaired : i.val ∈ (List.range (n / 2)).map (2 * ·) ↔ i.val % 2 = 0 ∧ i.val + 1 < n := by
    simp only [List.mem_map, List.mem_range]
    exact ⟨by omega, fun hi => ⟨i.val / 2, by omega, by omega⟩⟩
  simp only [movedAt, hlast, hpaired, symplecticStep, kicked]
  by_cases hodd : i.val % 2 = 1
  · simp [hodd]
  · have heven : i.val % 2 = 0 := by omega
    by_cases hlt : i.val + 1 < n <;> simp [heven, hlt]

theorem symplecticEuler_run [Literal L] (hf : Drives ctx f) (rounds : Nat) (method : Method) :
    (integrate .symplecticEuler n rounds method : Shader.Function L).run ctx [.vec (List.ofFn pos), .float h] =
      .ok (.vec (List.ofFn (symplecticStep f pos h))) := by
  let odd := (List.range (n / 2)).map fun i => 2 * i + 1
  let even := (List.range (n / 2)).map (2 * ·)
  let last := if n % 2 = 1 then [n - 1] else []
  let E₁ (u : Fin n → K) : Env K := arguments pos h ++ [("next", .vec (List.ofFn u)), ("v", .vec (List.ofFn (f pos)))]
  let E₂ (u : Fin n → K) : Env K := E₁ u ++ [("moved", .vec (List.ofFn (f (kicked f pos h))))]
  have hcode : (symplecticEuler.step n rounds method : List (Stmt L)) =
      ([.declare (.vec n) "next" Scheme.pos, .declare (.vec n) "v" (velocity Scheme.pos)] ++ odd.map (move "v") ++
        [.declare (.vec n) "moved" (velocity (.var "next"))] ++ even.map (move "moved") ++ last.map (move "v")) ++
        [.result (.var "next")] := by
    have hlast : last.map (move (L := L) "v") = if n % 2 = 1 then [move "v" (n - 1)] else [] := by
      simp only [last]
      split <;> rfl
    rw [hlast, List.map_map, List.map_map]
    rfl
  have hstart : Takes (L := L) ctx (· = arguments pos h)
      [.declare (.vec n) "next" Scheme.pos, .declare (.vec n) "v" (velocity Scheme.pos)] (· = E₁ pos) :=
    (Takes.declare_eq (.vec n) "next" (Term.eval_var rfl)).cons
      (.declare_eq (.vec n) "v" (hf.eval_velocity (Term.eval_var rfl)))
  have hodd : Takes (L := L) ctx (· = E₁ pos) (odd.map (move "v")) (· = E₁ (kicked f pos h)) := by
    rw [← movedAt_odd]
    refine takes_moves (fun u => ⟨rfl, rfl, rfl, rfl, fun _ => rfl⟩) (fun i hi => ?_) pos
    obtain ⟨j, hj, rfl⟩ := List.mem_map.1 hi
    have := List.mem_range.1 hj
    omega
  have hmoved : Takes (L := L) ctx (· = E₁ (kicked f pos h)) [.declare (.vec n) "moved" (velocity (.var "next"))]
      (· = E₂ (kicked f pos h)) :=
    .declare_eq (.vec n) "moved" (hf.eval_velocity (Term.eval_var rfl))
  have heven : Takes (L := L) ctx (· = E₂ (kicked f pos h)) (even.map (move "moved"))
      (· = E₂ (movedAt even pos (f (kicked f pos h)) h (kicked f pos h))) := by
    refine takes_moves (fun u => ⟨rfl, rfl, rfl, rfl, fun _ => rfl⟩) (fun i hi => ?_) _
    obtain ⟨j, hj, rfl⟩ := List.mem_map.1 hi
    have := List.mem_range.1 hj
    omega
  have hlast : Takes (L := L) ctx (· = E₂ (movedAt even pos (f (kicked f pos h)) h (kicked f pos h)))
      (last.map (move "v")) (· = E₂ (symplecticStep f pos h)) := by
    rw [← movedAt_even]
    refine takes_moves (fun u => ⟨rfl, rfl, rfl, rfl, fun _ => rfl⟩) (fun i hi => ?_) _
    simp only [last] at hi
    split at hi
    · have := List.mem_singleton.1 hi
      omega
    · cases hi
  refine integrate_run hcode ((((hstart.append hodd).append hmoved).append heven).append hlast) ?_
  rintro _ rfl
  exact Term.eval_var rfl

end Symplectic

end FlowShader.Scheme
