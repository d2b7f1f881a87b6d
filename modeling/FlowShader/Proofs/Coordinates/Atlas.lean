import FlowShader.Coordinates.Frame
import FlowShader.Proofs.Except
import FlowShader.Proofs.Expr.Names

namespace FlowShader

variable {L : Type} {names : List String}

namespace Coordinates

open FlowShader.Expr (Over)

def Region.Over (names : List String) : Region L → Prop
  | everywhere => True
  | atLeast a b | below a b => a.Over names ∧ b.Over names
  | above a _ => a.Over names

def Region.formulas : Region L → List (Expr L)
  | everywhere => []
  | atLeast a b | below a b => [a, b]
  | above a _ => [a]

theorem Region.Over.formulas {r : Region L} (h : r.Over names) : ∀ e ∈ r.formulas, e.Over names := by
  cases r with
  | everywhere => exact nofun
  | atLeast a b | below a b => exact List.forall_mem_cons.2 ⟨h.1, List.forall_mem_singleton.2 h.2⟩
  | above a limit => exact List.forall_mem_singleton.2 h

/-- Region, formulas and displacement are in terms of the names. -/
structure Chart.Over (names : List String) (c : Chart L) : Prop where
  region : c.region.Over names
  length : c.forward.length = names.length
  forward : ∀ f ∈ c.forward, f.Over names
  axis (k : Nat) : c.kind = .polarCap k → k < names.length

namespace Atlas

variable [Literal L] {forward : List (Expr L)}

omit [Literal L] in
theorem mem_of_mem_distinct [BEq L] {calls seen : List (Expr L)} {c : Expr L}
    (h : c ∈ calls.foldl (fun seen c => if seen.contains c then seen else seen ++ [c]) seen) :
    c ∈ seen ∨ c ∈ calls := by
  induction calls generalizing seen with
  | nil => exact .inl h
  | cons d calls ih =>
      rcases ih h with h | h
      · dsimp only at h
        split at h
        · exact .inl h
        · rcases List.mem_append.1 h with h | h
          · exact .inl h
          · exact .inr (List.mem_singleton.1 h ▸ List.mem_cons_self)
      · exact .inr (List.mem_cons_of_mem _ h)

theorem exists_of_mem_capArguments {a : Expr L} (ha : a ∈ capArguments forward) :
    ∃ f ∈ forward, ∃ g, .call g a ∈ f.subtrees := by
  obtain ⟨call, hcall, ha⟩ := List.mem_filterMap.1 ha
  obtain ⟨f, hf, hcall⟩ := List.mem_flatMap.1 ((mem_of_mem_distinct hcall).resolve_left List.not_mem_nil)
  split at ha
  · obtain rfl := Option.some.inj ha
    exact ⟨f, hf, _, (List.mem_filter.1 hcall).1⟩
  · cases ha

omit [Literal L] in
theorem exists_of_lastAzimuth? {a b : Expr L} (h : lastAzimuth? forward = some (a, b)) :
    ∃ f ∈ forward, .call₂ .atan2 a b ∈ f.subtrees := by
  obtain ⟨call, hcall, hab⟩ := List.mem_filterMap.1 (List.mem_of_getLast? h)
  obtain ⟨f, hf, hcall⟩ := List.mem_flatMap.1 hcall
  split at hab
  · obtain ⟨rfl, rfl⟩ := Prod.mk.inj (Option.some.inj hab)
    exact ⟨f, hf, hcall⟩
  · cases hab

theorem capAxis_lt {axes : List String} (haxes : 0 < axes.length) (arg : Expr L) :
    capAxis axes arg < axes.length := by
  have hgetD {best : Option (Nat × L)} (h : ∀ p ∈ best, p.1 < axes.length) :
      (best.map (·.1)).getD 0 < axes.length := by
    cases best with
    | none => exact haxes
    | some p => exact h p rfl
  -- Whatever is best so far, its axis is one of the axes.
  refine hgetD (List.foldlRecOn (motive := fun best : Option (Nat × L) => ∀ p ∈ best, p.1 < axes.length) _ _
    (fun p hp => nomatch hp) ?_)
  intro best hbest p hp
  have hlt : p.2 < axes.length := by simpa using List.snd_lt_of_mem_zipIdx hp
  have hnew (size : L) : ∀ q ∈ some (p.2, size), q.1 < axes.length := by
    rintro _ ⟨⟩
    exact hlt
  dsimp only
  split
  · exact hbest
  · split
    · exact hbest
    · split
      · exact hnew _
      · split
        · exact hnew _
        · exact hbest

theorem generate_over {axes : List String} (haxes : 0 < axes.length) (hlength : forward.length = axes.length)
    (h : ∀ f ∈ forward, f.Over axes) : ∀ c ∈ (generate axes forward).charts, c.Over axes := by
  have hcap : ∀ c ∈ (capArguments forward).map fun arg =>
      (⟨.above arg capLimit, forward, .polarCap (capAxis axes arg)⟩ : Chart L), c.Over axes := by
    intro c hc
    obtain ⟨arg, harg, rfl⟩ := List.mem_map.1 hc
    obtain ⟨f, hf, g, hcall⟩ := exists_of_mem_capArguments harg
    have hover : arg.Over axes := (h f hf).of_mem_subtrees (.call g arg) hcall
    refine ⟨hover, hlength, h, ?_⟩
    rintro _ ⟨⟩
    exact capAxis_lt haxes arg
  unfold generate
  cases hlast : lastAzimuth? forward with
  | none => exact List.forall_mem_append.2 ⟨hcap, List.forall_mem_singleton.2 ⟨trivial, hlength, h, nofun⟩⟩
  | some ab =>
      obtain ⟨a, b⟩ := ab
      obtain ⟨f, hf, hcall⟩ := exists_of_lastAzimuth? hlast
      obtain ⟨ha, hb⟩ := Expr.over_call₂.1 ((h f hf).of_mem_subtrees _ hcall)
      have hswap : (swapAzimuth a b).Over axes :=
        ((Expr.over_constant _).div (Expr.over_literal _)).sub (Expr.over_call₂.2 ⟨hb, ha⟩)
      refine List.forall_mem_append.2 ⟨hcap, List.forall_mem_cons.2 ⟨⟨⟨hb, ha⟩, hlength, h, nofun⟩,
        List.forall_mem_singleton.2 ⟨⟨hb, ha⟩, by rw [List.length_map, hlength], ?_, nofun⟩⟩⟩
      intro f hf
      obtain ⟨g, hg, rfl⟩ := List.mem_map.1 hf
      exact (h g hg).replace hswap

theorem exists_of_mem_region_formulas {axes : List String} {c : Chart L} (hc : c ∈ (generate axes forward).charts)
    {e : Expr L} (he : e ∈ c.region.formulas) : ∃ f ∈ forward, e ∈ f.subtrees := by
  have hcap (hc : c ∈ (capArguments forward).map fun arg =>
      (⟨.above arg capLimit, forward, .polarCap (capAxis axes arg)⟩ : Chart L)) : ∃ f ∈ forward, e ∈ f.subtrees := by
    obtain ⟨arg, harg, rfl⟩ := List.mem_map.1 hc
    obtain rfl := List.mem_singleton.1 he
    obtain ⟨f, hf, g, hcall⟩ := exists_of_mem_capArguments harg
    exact ⟨f, hf, Expr.mem_subtrees_trans hcall (List.mem_cons_of_mem _ (Expr.mem_subtrees_self _))⟩
  unfold generate at hc
  cases hlast : lastAzimuth? forward with
  | none =>
      simp only [hlast] at hc
      rcases List.mem_append.1 hc with hc | hc
      · exact hcap hc
      · obtain rfl := List.mem_singleton.1 hc
        cases he
  | some ab =>
      obtain ⟨a, b⟩ := ab
      obtain ⟨f, hf, hcall⟩ := exists_of_lastAzimuth? hlast
      have hargument (h : e ∈ [b, a]) : ∃ f ∈ forward, e ∈ f.subtrees := by
        refine ⟨f, hf, Expr.mem_subtrees_trans hcall (List.mem_cons_of_mem _ (List.mem_append.2 ?_))⟩
        rcases List.mem_cons.1 h with rfl | h
        · exact .inr (Expr.mem_subtrees_self _)
        · obtain rfl := List.mem_singleton.1 h
          exact .inl (Expr.mem_subtrees_self _)
      simp only [hlast] at hc
      rcases List.mem_append.1 hc with hc | hc
      · exact hcap hc
      · rcases List.mem_cons.1 hc with rfl | hc
        · exact hargument he
        · obtain rfl := List.mem_singleton.1 hc
          exact hargument he

/-- Coordinates that are variables need one chart only. -/
theorem generate_map_var (axes names : List String) :
    generate axes (names.map .var : List (Expr L)) = single (names.map .var) := by
  have hsubtrees {f : Expr L} (hf : f ∈ names.map Expr.var) {a : Expr L} (ha : a ∈ f.subtrees) : ∃ v, a = .var v := by
    obtain ⟨v, -, rfl⟩ := List.mem_map.1 hf
    exact ⟨v, List.mem_singleton.1 ha⟩
  have hcaps : capArguments (names.map .var : List (Expr L)) = [] := by
    rw [List.eq_nil_iff_forall_not_mem]
    intro a ha
    obtain ⟨f, hf, g, hcall⟩ := exists_of_mem_capArguments ha
    obtain ⟨v, hv⟩ := hsubtrees hf hcall
    cases hv
  unfold generate
  rw [hcaps]
  cases hlast : lastAzimuth? (names.map .var : List (Expr L)) with
  | none => rfl
  | some ab =>
      obtain ⟨f, hf, hcall⟩ := exists_of_lastAzimuth? hlast
      obtain ⟨v, hv⟩ := hsubtrees hf hcall
      cases hv

theorem forward_of_primary {axes : List String} {c : Chart L}
    (hc : c ∈ (generate axes forward).charts) (hprimary : c.kind = .primary) : c.forward = forward := by
  unfold generate at hc
  dsimp only at hc
  split at hc <;> simp only [single, List.mem_append, List.mem_map, List.mem_cons, List.not_mem_nil, or_false] at hc
  · rcases hc with ⟨_, -, rfl⟩ | rfl
    · cases hprimary
    · rfl
  · rcases hc with ⟨_, -, rfl⟩ | rfl | rfl
    · cases hprimary
    · rfl
    · cases hprimary

theorem charts_ne_nil (axes : List String) (forward : List (Expr L)) : (generate axes forward).charts ≠ [] := by
  unfold generate
  split <;> simp [single]

end Atlas

end Coordinates

end FlowShader
