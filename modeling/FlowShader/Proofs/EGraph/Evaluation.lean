import FlowShader.EGraph.Saturate

namespace FlowShader.EGraph

variable {L : Type} [Literal L] {g : EGraph L}

section Table

def enterEntries (table : Std.HashMap (Node L) Nat) (entries : List (Node L × Nat)) : Std.HashMap (Node L) Nat :=
  entries.foldl (fun table (n, i) => table.insert n i) table

theorem size_enterEntries_le [LawfulBEq L] (table : Std.HashMap (Node L) Nat) (entries : List (Node L × Nat)) :
    (enterEntries table entries).size ≤ table.size + entries.length := by
  induction entries generalizing table with
  | nil => exact Nat.le_refl _
  | cons entry entries ih =>
      obtain ⟨n, i⟩ := entry
      have hinsert : (table.insert n i).size ≤ table.size + 1 := Std.HashMap.size_insert_le
      have hrest := ih (table.insert n i)
      rw [List.length_cons]
      exact Nat.le_trans hrest (by omega)

theorem table_union (g : EGraph L) (i j : Nat) : (g.union i j).table = g.table := by
  unfold union
  dsimp only
  split
  · rfl
  · split <;> rfl

end Table

section Rounds

variable {effort : Effort} {rules : List (Rule L)}

theorem applyAll_cons {rule : Rule L} {found : Array (Nat × Assignment)} {state t : EGraph L × Bool}
    (hfound : found.toList.foldl (applyMatch rule) state = t) (hsize : t.1.table.size ≤ effort.nodes)
    (rest : List (Rule L × Array (Nat × Assignment))) :
    applyAll effort ((rule, found) :: rest) state = applyAll effort rest t := by
  rw [applyAll, ← Array.foldl_toList, hfound]
  exact if_neg (Nat.not_lt.2 hsize)

theorem applyAll_filter (searched : List (Rule L × Array (Nat × Assignment))) (state : EGraph L × Bool)
    (hsize : state.1.table.size ≤ effort.nodes) :
    applyAll effort searched state = applyAll effort (searched.filter fun entry => !entry.2.isEmpty) state := by
  induction searched generalizing state with
  | nil => rfl
  | cons entry searched ih =>
      obtain ⟨rule, found⟩ := entry
      by_cases hfound : found = #[]
      · subst hfound
        rw [List.filter_cons_of_neg (by simp), applyAll]
        exact (if_neg (Nat.not_lt.2 hsize)).trans (ih state hsize)
      · rw [List.filter_cons_of_pos (by simpa using hfound), applyAll, applyAll]
        dsimp only
        split
        · rfl
        · next hnodes => exact ih _ (Nat.not_lt.1 hnodes)

theorem search_of_few {k : Nat} {rule : Rule L} {members : Array (Array (Node L))}
    (hfew : (g.occurrences members effort.matchLimit rule.lhs).size ≤ effort.matchLimit) :
    g.search effort k members rule {} = (g.occurrences members effort.matchLimit rule.lhs, {}) := by
  have hlimit : effort.matchLimit * Nat.pow 2 0 = effort.matchLimit := Nat.mul_one _
  rw [search, if_neg (Nat.not_lt_zero k)]
  dsimp only
  rw [hlimit, if_neg (Nat.not_lt.2 hfew)]

/-- The rules that match something, with their matches. -/
def searched (effort : Effort) (rules : List (Rule L)) (g : EGraph L) : List (Rule L × Array (Nat × Assignment)) :=
  (rules.map fun rule => (rule, g.occurrences g.members effort.matchLimit rule.lhs)).filter fun entry =>
    !entry.2.isEmpty

/-- Where the matches of each rule are few, a round applies those of all rules. -/
theorem round_eq (k : Nat) (hsize : g.table.size ≤ effort.nodes)
    (hfew : ∀ entry ∈ searched effort rules g, entry.2.size ≤ effort.matchLimit) :
    g.round effort rules k (rules.map fun _ => {}) =
      ((applyAll effort (searched effort rules g) (g, false)).1.rebuild,
        (applyAll effort (searched effort rules g) (g, false)).2, rules.map fun _ => {}) := by
  have hfew (rule : Rule L) (hrule : rule ∈ rules) :
      (g.occurrences g.members effort.matchLimit rule.lhs).size ≤ effort.matchLimit := by
    cases hempty : (g.occurrences g.members effort.matchLimit rule.lhs).isEmpty with
    | true => simp [Array.isEmpty_iff.1 hempty]
    | false => exact hfew (rule, _) (List.mem_filter.2 ⟨List.mem_map_of_mem hrule, congrArg not hempty⟩)
  have hsearch : rules.zipWith (g.search effort k g.members) (rules.map fun _ => {}) =
      rules.map fun rule => (g.occurrences g.members effort.matchLimit rule.lhs, {}) := by
    rw [List.zipWith_map_right, List.zipWith_self]
    exact List.map_congr_left fun rule hrule => search_of_few (hfew rule hrule)
  have hzip : rules.zip ((rules.zipWith (g.search effort k g.members) (rules.map fun _ => {})).map (·.1)) =
      rules.map fun rule => (rule, g.occurrences g.members effort.matchLimit rule.lhs) := by
    rw [hsearch, List.map_map, List.zip_eq_zipWith, List.zipWith_map_right, List.zipWith_self]
    rfl
  rw [round]
  dsimp only
  rw [hzip, applyAll_filter _ _ hsize, hsearch, List.map_map]
  rfl

theorem run_of_changed {g' : EGraph L} (hsize : g.table.size ≤ effort.nodes)
    (hfew : ∀ entry ∈ searched effort rules g, entry.2.size ≤ effort.matchLimit)
    (happly : applyAll effort (searched effort rules g) (g, false) = (g', true)) (fuel k : Nat) :
    g.run effort rules (fuel + 1) k (rules.map fun _ => {}) =
      g'.rebuild.run effort rules fuel (k + 1) (rules.map fun _ => {}) := by
  rw [run, if_neg (Nat.not_lt.2 hsize), round_eq k hsize hfew, happly]

theorem run_of_no_match (hrebuild : g.rebuild = g) (hsize : g.table.size ≤ effort.nodes)
    (hnone : searched effort rules g = []) (fuel k : Nat) :
    g.run effort rules fuel k (rules.map fun _ => {}) = g := by
  cases fuel with
  | zero => rfl
  | succ fuel =>
      have hfew : ∀ entry ∈ searched effort rules g, entry.2.size ≤ effort.matchLimit := by simp [hnone]
      have hround := round_eq k hsize hfew
      have hidle : (rules.map fun _ => ({} : Suspension)).filter (k < ·.upTo) = [] := by simp
      have hhasten : hasten k (rules.map fun _ => ({} : Suspension)) = none := by
        simp only [hasten, hidle, List.map_nil]
      rw [hnone] at hround
      rw [run, if_neg (Nat.not_lt.2 hsize), hround]
      simp only [applyAll, hrebuild, hhasten]

theorem saturate_of_no_match {begun : EGraph L} (hbegun : g.rebuild = begun) (hquiet : begun.rebuild = begun)
    (hsize : begun.table.size ≤ effort.nodes) (hnone : searched effort rules begun = []) :
    g.saturate effort rules = begun := by
  rw [saturate, hbegun]
  exact run_of_no_match hquiet hsize hnone _ _

/-- One round merges classes, and after it no rule matches anything. -/
theorem saturate_of_one_round {begun clashed collapsed : EGraph L} {found : List (Rule L × Array (Nat × Assignment))}
    {rounds : Nat} (hrounds : effort.rounds = rounds + 1) (hbegun : g.rebuild = begun)
    (hsize : begun.table.size ≤ effort.nodes) (hfound : searched effort rules begun = found)
    (hfew : ∀ entry ∈ found, entry.2.size ≤ effort.matchLimit)
    (happly : applyAll effort found (begun, false) = (clashed, true)) (hcollapsed : clashed.rebuild = collapsed)
    (hquiet : collapsed.rebuild = collapsed) (hsize' : collapsed.table.size ≤ effort.nodes)
    (hnone : searched effort rules collapsed = []) : g.saturate effort rules = collapsed := by
  subst hfound
  rw [saturate, hbegun, hrounds, run_of_changed hsize hfew happly, hcollapsed]
  exact run_of_no_match hquiet hsize' hnone _ _

end Rounds

end FlowShader.EGraph
