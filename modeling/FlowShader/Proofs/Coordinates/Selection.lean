import FlowShader.Proofs.Coordinates.Typing
import FlowShader.Proofs.Coordinates.Velocity

namespace FlowShader

open Shader (Context Env Stmt)

/-- Numbers are in order one way or the other, and so are their sizes. -/
structure Scalar.Ordered {K : Type} [Scalar K] (isNaN : K → Bool) : Prop where
  abs (x : K) : isNaN x = false → isNaN (Scalar.abs x) = false
  le_eq (x y : K) : isNaN x = false → isNaN y = false → Scalar.le y x = !Scalar.lt x y

theorem Double.ordered : Scalar.Ordered Float.isNaN := ⟨fun _ => isNaN_abs, fun _ _ => le_eq_not_lt⟩

variable {L K : Type} [Scalar K]

theorem Expr.exists_eval {ρ : Valuation L K} {e : Expr L} (h : ∀ v ∈ e.names, ∃ x, ρ.binding v = some x) :
    ∃ x, e.eval ρ = .ok x := by
  induction e with
  | literal | constant => exact ⟨_, rfl⟩
  | var v =>
      obtain ⟨x, hx⟩ := h v (by simp [names])
      exact ⟨x, by rw [eval, hx]⟩
  | call f a ih =>
      obtain ⟨x, hx⟩ := ih h
      exact ⟨f.apply x, by rw [eval, hx]; rfl⟩
  | call₂ f a b iha ihb =>
      obtain ⟨x, hx⟩ := iha fun v hv => h v (by simp [names, hv])
      obtain ⟨y, hy⟩ := ihb fun v hv => h v (by simp [names, hv])
      exact ⟨f.apply x y, by rw [eval, hx, hy]; rfl⟩
  | op o a b iha ihb =>
      obtain ⟨x, hx⟩ := iha fun v hv => h v (by simp [names, hv])
      obtain ⟨y, hy⟩ := ihb fun v hv => h v (by simp [names, hv])
      exact ⟨o.apply x y, by rw [eval, hx, hy]; rfl⟩

namespace Coordinates

variable {ρ : Valuation L K}

theorem Region.exists_holds {r : Region L} (h : ∀ e ∈ r.formulas, ∃ x, e.eval ρ = .ok x) : ∃ b, r.holds ρ = .ok b := by
  cases r with
  | everywhere => exact ⟨true, rfl⟩
  | atLeast a b | below a b =>
      obtain ⟨x, hx⟩ := h a (by simp [formulas])
      obtain ⟨y, hy⟩ := h b (by simp [formulas])
      exact ⟨_, by rw [holds, hx, hy]; rfl⟩
  | above a limit =>
      obtain ⟨x, hx⟩ := h a (by simp [formulas])
      exact ⟨_, by rw [holds, hx]; rfl⟩

theorem Region.holds_cut {isNaN : K → Bool} (hordered : Scalar.Ordered isNaN) {a b : Expr L} {x y : K}
    (hx : a.eval ρ = .ok x) (hy : b.eval ρ = .ok y) (hxn : isNaN x = false) (hyn : isNaN y = false) :
    ∃ p, (atLeast a b).holds ρ = .ok p ∧ (below a b).holds ρ = .ok !p := by
  refine ⟨Scalar.le (Scalar.abs y) (Scalar.abs x), by rw [holds, hx, hy]; rfl, ?_⟩
  rw [hordered.le_eq _ _ (hordered.abs x hxn) (hordered.abs y hyn), Bool.not_not, holds, hx, hy]
  rfl

def Atlas.Halves (atlas : Atlas L) (ρ : Valuation L K) : Prop :=
  ∃ caps primary swapped p, atlas.charts = caps ++ [primary, swapped] ∧ primary.kind = .primary ∧
    swapped.kind = .swapped ∧ primary.region.holds ρ = .ok p ∧ swapped.region.holds ρ = .ok !p

theorem Atlas.covers_of_mem {atlas : Atlas L} (hholds : ∀ c ∈ atlas.charts, ∃ b, c.region.holds ρ = .ok b) {c : Chart L}
    (hc : c ∈ atlas.charts) (h : c.region.holds ρ = .ok true) : atlas.covers ρ = .ok true := by
  have howner (charts : List (Chart L)) (hholds : ∀ c ∈ charts, ∃ b, c.region.holds ρ = .ok b) (hc : c ∈ charts) :
      ∃ i, owner? ρ charts = .ok (some i) := by
    induction charts with
    | nil => cases hc
    | cons d charts ih =>
        obtain ⟨⟨b, hb⟩, hholds⟩ := List.forall_mem_cons.1 hholds
        rw [owner?, hb]
        cases b with
        | true => exact ⟨0, rfl⟩
        | false =>
            rcases List.mem_cons.1 hc with rfl | hc
            · rw [h] at hb
              cases hb
            · obtain ⟨i, hi⟩ := ih hholds hc
              exact ⟨i + 1, by rw [hi]; rfl⟩
  obtain ⟨i, hi⟩ := howner atlas.charts hholds hc
  rw [covers, hi]
  rfl

variable [Literal L]

theorem Atlas.charts_of_lastAzimuth?_eq_none (axes : List String) {forward : List (Expr L)}
    (h : lastAzimuth? forward = none) : ⟨.everywhere, forward, .primary⟩ ∈ (generate axes forward).charts := by
  unfold generate
  simp only [h]
  exact List.mem_append_right _ List.mem_cons_self

theorem Atlas.charts_of_lastAzimuth?_eq_some (axes : List String) {forward : List (Expr L)} {a b : Expr L}
    (h : lastAzimuth? forward = some (a, b)) :
    ∃ caps primary swapped, (generate axes forward).charts = caps ++ [primary, swapped] ∧
      primary.kind = .primary ∧ primary.region = .atLeast b a ∧
      swapped.kind = .swapped ∧ swapped.region = .below b a := by
  unfold generate
  simp only [h]
  exact ⟨_, _, _, rfl, rfl, rfl, rfl, rfl⟩

namespace Frame

section Points

variable {s : Frame L} (hs : s.Checked) {literal : L → K} {pos : List K} (hpos : pos.length = s.dimensions)
include hs hpos

omit [Scalar K] in
theorem Checked.exists_binding_ofPoint {v : String} (hv : v ∈ s.axes) :
    ∃ x, (Valuation.ofPoint literal s.axes pos).binding v = some x := by
  obtain ⟨i, hi⟩ := List.mem_iff_getElem?.1 hv
  obtain ⟨hlt, -⟩ := List.getElem?_eq_some_iff.1 hi
  have hx : pos[i]? = some (pos.get ⟨i, by rw [hpos, ← hs.length_axes]; exact hlt⟩) := List.getElem?_eq_getElem _
  exact ⟨_, Valuation.binding_ofPoint literal (nodup_axes _) hi hx⟩

theorem Checked.exists_eval_ofPoint {e : Expr L} (he : e.Over s.axes) :
    ∃ x, e.eval (.ofPoint literal s.axes pos) = .ok x :=
  Expr.exists_eval fun v hv => hs.exists_binding_ofPoint hpos (he v hv)

theorem Checked.exists_holds :
    ∀ c ∈ s.atlas.charts, ∃ b, c.region.holds (.ofPoint literal s.axes pos) = .ok b :=
  fun c hc => Region.exists_holds fun e he =>
    hs.exists_eval_ofPoint hpos ((hs.charts_over c hc).region.formulas e he)

theorem Checked.covers_of_lastAzimuth?_eq_none (h : Atlas.lastAzimuth? s.forward = none) :
    s.atlas.covers (.ofPoint literal s.axes pos) = .ok true := by
  have hmem := Atlas.charts_of_lastAzimuth?_eq_none s.axes h
  rw [← hs.atlas] at hmem
  exact Atlas.covers_of_mem (hs.exists_holds hpos) hmem rfl

theorem Checked.covers_of_lastAzimuth?_eq_some {isNaN : K → Bool} (hordered : Scalar.Ordered isNaN) {a b : Expr L}
    (h : Atlas.lastAzimuth? s.forward = some (a, b)) :
    let ρ : Valuation L K := .ofPoint literal s.axes pos
    ∃ x y, a.eval ρ = .ok x ∧ b.eval ρ = .ok y ∧
      (isNaN x = false → isNaN y = false → s.atlas.covers ρ = .ok true ∧ s.atlas.Halves ρ) := by
  obtain ⟨caps, primary, swapped, hcharts, hprimary, hregion, hswapped, hregion'⟩ :=
    Atlas.charts_of_lastAzimuth?_eq_some s.axes h
  rw [← hs.atlas] at hcharts
  have hmem : primary ∈ s.atlas.charts := by simp [hcharts]
  have hmem' : swapped ∈ s.atlas.charts := by simp [hcharts]
  obtain ⟨hb, ha⟩ : b.Over s.axes ∧ a.Over s.axes := by
    have hover := (hs.charts_over primary hmem).region
    rwa [hregion] at hover
  obtain ⟨x, hx⟩ : ∃ x, a.eval (.ofPoint literal s.axes pos) = .ok x := hs.exists_eval_ofPoint hpos ha
  obtain ⟨y, hy⟩ : ∃ y, b.eval (.ofPoint literal s.axes pos) = .ok y := hs.exists_eval_ofPoint hpos hb
  refine ⟨x, y, hx, hy, fun hxn hyn => ?_⟩
  obtain ⟨p, hp, hp'⟩ := Region.holds_cut hordered hy hx hyn hxn
  rw [← hregion] at hp
  rw [← hregion'] at hp'
  refine ⟨?_, caps, primary, swapped, p, hcharts, hprimary, hswapped, hp, hp'⟩
  cases p with
  | true => exact Atlas.covers_of_mem (hs.exists_holds hpos) hmem hp
  | false => exact Atlas.covers_of_mem (hs.exists_holds hpos) hmem' hp'

end Points

theorem map_fst_invertedCharts (s : Frame L) : s.invertedCharts.map (·.1.1) = s.atlas.charts := by
  change s.invertedCharts.map (Prod.fst ∘ Prod.fst) = _
  rw [invertedCharts, ← List.map_map, List.zipIdx_map_fst, List.map_map]
  exact List.map_id _

theorem Checked.exists_branches {s : Frame L} (hs : s.Checked) (hcartesian : s.isCartesian = false) :
    ∃ branches code, List.Forall₂ (fun p (q : Chart L × List (Stmt L)) => q.1 = p.1.1 ∧ s.chartBody p.1.1 p.1.2 = .ok q.2)
        s.invertedCharts branches ∧
      s.cascade branches = .ok code ∧
      s.velocityToCartesian = .ok (s.velocityFunction code, s.velocityDiagnostics s.invertedCharts) := by
  have hclear : Names.Clear [] := ⟨fun _ _ => rfl, fun _ _ => rfl⟩
  obtain ⟨f, remarks, hok, -⟩ : ∃ f remarks, s.velocityToCartesian = .ok (f, remarks) ∧ f.Meets [] [] _ _ :=
    velocityToCartesian_meets hclear hs
  have hok' := hok
  rw [velocityToCartesian, if_neg (by simp [hcartesian])] at hok'
  obtain ⟨branches, hbranches, hcode⟩ := exists_of_bind_eq_ok hok'
  obtain ⟨code, hcode, hf⟩ := exists_of_bind_eq_ok hcode
  refine ⟨branches, code, (forall₂_of_mapM_eq_ok hbranches).imp fun p q hq => ?_, hcode, ?_⟩
  · obtain ⟨body, hbody, hq⟩ := exists_of_bind_eq_ok hq
    obtain rfl := Except.ok.inj hq
    exact ⟨rfl, hbody⟩
  · rw [hok, ← Except.ok.inj hf]
    rfl

/-- One choice of charts. Outside of Cartesian coordinates the code of every chart is generated, and at every
point the velocity transform runs that of the chart that the atlas selects, whatever the comparisons say of
what is not a number. The atlas covers every point, save those where an argument of the last azimuth is not
a number; elsewhere exactly one of its two forms applies. -/
theorem velocityToCartesian_runs_selected (s : Frame L) (hs : s.Checked) (literal : L → K)
    (hliterals : Literal.Interprets literal) (hpowers : ∀ f ∈ s.forward, f.PowersAreProducts literal)
    (isNaN : K → Bool) (hordered : Scalar.Ordered isNaN) :
    (s.isCartesian = false → ∃ bodies code,
      List.Forall₂ (fun p body => s.chartBody p.1.1 p.1.2 = .ok body) s.invertedCharts bodies ∧
      s.velocityToCartesian = .ok (s.velocityFunction code, s.velocityDiagnostics s.invertedCharts) ∧
      ∀ (ctx : Context L K) (env : Env K) (pos : List K), ctx.Plain → ctx.literal = literal →
        env.get? "pos" = some (.vec pos) → pos.length = s.dimensions →
        ∃ i body, s.atlas.select (.ofPoint literal s.axes pos) = .ok i ∧ bodies[i]? = some body ∧
          Stmt.execAll ctx code env = Stmt.execAll ctx body env) ∧
    ∀ pos : List K, pos.length = s.dimensions →
      let ρ : Valuation L K := .ofPoint literal s.axes pos
      match Atlas.lastAzimuth? s.forward with
      | none => s.atlas.covers ρ = .ok true
      | some (a, b) => ∃ x y, a.eval ρ = .ok x ∧ b.eval ρ = .ok y ∧
        (isNaN x = false → isNaN y = false → s.atlas.covers ρ = .ok true ∧ s.atlas.Halves ρ) := by
  refine ⟨fun hcartesian => ?_, fun pos hpos => ?_⟩
  · obtain ⟨branches, code, hbranches, hcode, hfunction⟩ := hs.exists_branches hcartesian
    have hcharts : branches.map (·.1) = s.atlas.charts := by
      rw [← map_fst_invertedCharts, ← List.forall₂_eq_eq_eq, List.forall₂_map_left_iff, List.forall₂_map_right_iff]
      exact hbranches.flip.imp fun q p hq => hq.1
    refine ⟨branches.map (·.2), code, ?_, hfunction, fun ctx env pos hplain hliteral henv hpos => ?_⟩
    · rw [List.forall₂_map_right_iff]
      exact hbranches.imp fun p q hq => hq.2
    · subst hliteral
      obtain ⟨code', i, branch, hcode', hselect, hbranch, hexec⟩ :=
        hs.cascade_selects hcharts hplain hliterals hpowers henv hpos
      obtain rfl : code = code' := Except.ok.inj (hcode.symm.trans hcode')
      exact ⟨i, branch.2, hselect, by rw [List.getElem?_map, hbranch]; rfl, hexec⟩
  · cases hlast : Atlas.lastAzimuth? s.forward with
    | none => exact hs.covers_of_lastAzimuth?_eq_none hpos hlast
    | some ab => exact hs.covers_of_lastAzimuth?_eq_some hpos hordered hlast

def twoAngles : Frame Float :=
  let x : Expr Float := .var "x"
  let y : Expr Float := .var "y"
  let size : Expr Float := .call .sqrt (.op .add (.op .mul x x) (.op .mul y y))
  let forward : List (Expr Float) := [.call .acos (.op .div x size), .call₂ .atan2 y x]
  ⟨"two angles", [⟨"u", "u"⟩, ⟨"v", "v"⟩], forward, none, false, .generate ["x", "y"] forward⟩

theorem checked_twoAngles : twoAngles.Checked where
  two_le := by decide
  le_four := by decide
  coordinates := rfl
  forward := by
    change ∀ f ∈ twoAngles.forward, ∀ v ∈ f.names, v ∈ ["x", "y"]
    decide
  atlas := rfl
  labels := by decide
  nodup := by decide
  inverse := nofun

/-- Where `x` is not a number no region has the point, and both ways the last chart is taken; the point (3, 1)
belongs to the first form of the azimuth. -/
theorem velocityToCartesian_runs_selected_without_number :
    let nan : Float := 0.0 / 0.0
    let ctx : Context Float Float := ⟨id, [], fun _ => none⟩
    twoAngles.Checked ∧ twoAngles.atlas.select (.ofPoint id twoAngles.axes [nan, 1.0]) = .ok 2 ∧
      (∃ bodies code body,
        List.Forall₂ (fun p body => twoAngles.chartBody p.1.1 p.1.2 = .ok body) twoAngles.invertedCharts bodies ∧
        twoAngles.velocityToCartesian =
          .ok (twoAngles.velocityFunction code, twoAngles.velocityDiagnostics twoAngles.invertedCharts) ∧
        bodies[2]? = some body ∧ ∀ env : Env Float, env.get? "pos" = some (.vec [nan, 1.0]) →
          Stmt.execAll ctx code env = Stmt.execAll ctx body env) ∧
      twoAngles.atlas.covers (.ofPoint id twoAngles.axes [3.0, 1.0]) = .ok true := by
  intro nan ctx
  -- no formula has a power in it
  have hpowers : ∀ f ∈ twoAngles.forward, f.PowersAreProducts (id : Float → Float) := by
    intro f hf a z n hmem
    simp only [twoAngles, List.mem_cons, List.not_mem_nil, or_false] at hf
    rcases hf with rfl | rfl <;> simp [Expr.subtrees] at hmem
  have hselect : twoAngles.atlas.select (.ofPoint id twoAngles.axes [nan, 1.0]) = .ok 2 := by decide
  obtain ⟨hruns, hcovers⟩ := velocityToCartesian_runs_selected twoAngles checked_twoAngles id
    ⟨rfl, rfl, fun _ => rfl⟩ hpowers Float.isNaN Double.ordered
  obtain ⟨bodies, code, hbodies, hfunction, hrun⟩ := hruns (by decide)
  have hat (env : Env Float) (henv : env.get? "pos" = some (.vec [nan, 1.0])) :
      ∃ body, bodies[2]? = some body ∧ Stmt.execAll ctx code env = Stmt.execAll ctx body env := by
    obtain ⟨i, body, hi, hbody, hexec⟩ := hrun ctx env [nan, 1.0] (fun _ => rfl) rfl henv rfl
    obtain rfl : i = 2 := Except.ok.inj (hi.symm.trans hselect)
    exact ⟨body, hbody, hexec⟩
  refine ⟨checked_twoAngles, hselect, ?_, ?_⟩
  · obtain ⟨body, hbody, -⟩ := hat [("pos", .vec [nan, 1.0])] rfl
    refine ⟨bodies, code, body, hbodies, hfunction, hbody, fun env henv => ?_⟩
    obtain ⟨body', hbody', hexec⟩ := hat env henv
    obtain rfl : body = body' := Option.some.inj (hbody.symm.trans hbody')
    exact hexec
  · obtain ⟨x, y, hx, hy, hnumbers⟩ := hcovers [3.0, 1.0] rfl
    obtain rfl : 1.0 = x := Except.ok.inj hx
    obtain rfl : 3.0 = y := Except.ok.inj hy
    exact (hnumbers (by decide) (by decide)).1

end Frame

end Coordinates

end FlowShader
