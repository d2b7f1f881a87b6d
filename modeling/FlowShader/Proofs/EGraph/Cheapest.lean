import FlowShader.Proofs.EGraph.Extract
import FlowShader.Proofs.EGraph.Rebuild

namespace FlowShader

namespace Layer

variable {L : Type} {n : Layer L Nat} {prices prices' : Nat → Nat}

theorem price_map (n : Layer L Nat) (prices : Nat → Nat) :
    (n.map prices).price = n.ownPrice + (n.parts.map prices).sum := by
  cases n <;> rfl

theorem ownPrice_pos (n : Layer L Nat) : 0 < n.ownPrice := by
  cases n with
  | literal | constant | var => exact Nat.succ_pos _
  | call f _ => cases f <;> exact Nat.succ_pos _
  | call₂ f _ _ => cases f <;> exact Nat.succ_pos _
  | op o _ _ => cases o <;> exact Nat.succ_pos _

theorem price_map_mono (h : ∀ k ∈ n.parts, prices k ≤ prices' k) : (n.map prices).price ≤ (n.map prices').price := by
  rw [price_map, price_map]
  exact Nat.add_le_add_left (List.sum_le_sum h) _

theorem lt_price_map {k : Nat} (h : k ∈ n.parts) : prices k < (n.map prices).price := by
  have hsum := List.single_le_sum (l := n.parts.map prices) (fun _ _ => Nat.zero_le _) _ (List.mem_map_of_mem h)
  have hpos := n.ownPrice_pos
  rw [price_map]
  omega

theorem one_le_price (n : Layer L Nat) (prices : Nat → Nat) : 1 ≤ (n.map prices).price := by
  rw [price_map n]
  exact n.ownPrice_pos.trans_le (Nat.le_add_right _ _)

variable {α : Type} {f : Nat → Option α}

theorem sequence?_map {values : Nat → α} (h : ∀ k ∈ n.parts, f k = some (values k)) :
    (n.map f).sequence? = some (n.map values) := by
  cases n <;> simp_all [map, parts, sequence?]

theorem of_sequence?_map {m : Layer L α} (h : (n.map f).sequence? = some m) (default : α) :
    (∀ k ∈ n.parts, f k = some ((f k).getD default)) ∧ m = n.map fun k => (f k).getD default := by
  have hsome : ∀ k ∈ n.parts, f k = some ((f k).getD default) := by
    cases n with
    | literal | constant | var => simp [parts]
    | call g a =>
        obtain ⟨x, hx, -⟩ := Option.map_eq_some_iff.1 h
        simp [parts, hx]
    | call₂ g a b | op g a b =>
        obtain ⟨x, hx, h⟩ := Option.bind_eq_some_iff.1 h
        obtain ⟨y, hy, -⟩ := Option.map_eq_some_iff.1 h
        simp [parts, hx, hy]
  refine ⟨hsome, ?_⟩
  rw [sequence?_map hsome] at h
  exact (Option.some.inj h).symm

theorem price_toExpr (m : Layer L (Expr L)) : m.toExpr.price = (m.map Expr.price).price := by
  cases m <;> rfl

end Layer

namespace EGraph

variable {L : Type} [Literal L] {g g' : EGraph L} {i j k p q : Nat}

/-- Entries make up a tree of at most this price for the class. -/
inductive Affords (g : EGraph L) : Nat → Nat → Prop
  | node {n : Node L} {i k p : Nat} {prices : Nat → Nat} : (n, k) ∈ g.entries → g.root k = g.root i →
      (∀ part ∈ n.parts, Affords g part (prices part)) → (n.map prices).price ≤ p → Affords g i p

noncomputable def leastPrice (g : EGraph L) (i : Nat) : Nat := sInf {p | g.Affords i p}

section Affords

theorem Affords.congr (h : g.Affords i p) (hij : g.root i = g.root j) : g.Affords j p := by
  cases h with
  | node he hroot hparts hp => exact .node he (hroot.trans hij) hparts hp

theorem Affords.mono_price (h : g.Affords i p) (hpq : p ≤ q) : g.Affords i q := by
  cases h with
  | node he hroot hparts hp => exact .node he hroot hparts (hp.trans hpq)

theorem Affords.least (h : g.Affords i p) : g.Affords i (g.leastPrice i) := Nat.sInf_mem ⟨p, h⟩

theorem Affords.leastPrice_le (h : g.Affords i p) : g.leastPrice i ≤ p := Nat.sInf_le h

theorem leastPrice_congr (h : g.root i = g.root j) : g.leastPrice i = g.leastPrice j := by
  unfold leastPrice
  congr 1
  ext p
  exact ⟨fun hp => hp.congr h, fun hp => hp.congr h.symm⟩

theorem Affords.lt (h : g.Affords i p) (hcoherent : Coherent g) : i < g.leader.size := by
  cases h with
  | node he hroot _ _ =>
      exact lt_of_root_lt (hroot ▸ hcoherent.root_lt _ (hcoherent.nodes _ (Array.mem_filter.1 he).1).1)

theorem HoldsLiteral.exists_mem (h : g.HoldsLiteral i) : ∃ x k, (.literal x, k) ∈ g.nodes ∧ g.root k = g.root i := by
  obtain ⟨x, ⟨n, k⟩, hmem, hbeq, hroot⟩ := h
  cases n with
  | literal y => exact ⟨y, k, hmem, hroot⟩
  | constant | var | call | call₂ | op => obtain hn | ⟨_, _, hn, -⟩ := Layer.beq_cases hbeq <;> cases hn

theorem HoldsLiteral.affords (h : g.HoldsLiteral i) : g.Affords i 1 := by
  obtain ⟨x, k, hliteral, hk⟩ := h.exists_mem
  have hentry : (.literal x, k) ∈ g.entries := Array.mem_filter.2 ⟨hliteral, rfl⟩
  have hprice : ((Layer.literal x : Node L).map fun _ => 0).price ≤ 1 := le_rfl
  exact .node hentry hk (by simp [Layer.parts]) hprice

/-- A node of the graph can be paid for by the cheapest trees of its parts, even if it is not an entry
any more: then its class holds a literal. -/
theorem WellFormed.affords_of_has (h : WellFormed g) {n : Node L} (hn : g.Has (n, i))
    (hparts : ∀ part ∈ n.parts, ∃ p, g.Affords part p) : g.Affords i (n.map g.leastPrice).price := by
  obtain ⟨⟨m, k⟩, hmem, hbeq, hroot⟩ := hn
  by_cases hk : (g.value? k).isSome = true
  · exact ((h.settled k hk).affords.congr hroot).mono_price (Layer.one_le_price n g.leastPrice)
  · have hentry : (m, k) ∈ g.entries := Array.mem_filter.2 ⟨hmem, by simp [Option.not_isSome_iff_eq_none.1 hk]⟩
    have hcanonical (n : Node L) : (g.canonical n).map g.leastPrice = n.map g.leastPrice := by
      rw [EGraph.canonical, Layer.map_map]
      exact Layer.map_congr fun l _ => leastPrice_congr (h.coherent.root_root l)
    have hprice := Layer.price_map_eq_of_beq g.leastPrice hbeq
    rw [hcanonical, hcanonical] at hprice
    have hroots := Layer.parts_eq_of_beq hbeq
    rw [EGraph.canonical, EGraph.canonical, Layer.parts_map, Layer.parts_map] at hroots
    refine .node hentry hroot (fun part hpart => ?_) hprice.le
    obtain ⟨part', hpart', heq⟩ := List.mem_map.1 (hroots ▸ List.mem_map_of_mem hpart)
    obtain ⟨p, hp⟩ := hparts part' hpart'
    exact (hp.congr heq).least

/-- Every class affords the tree of the nodes that classes were made for. -/
theorem WellFormed.exists_affords (h : WellFormed g) (hi : i < g.leader.size) : ∃ p, g.Affords i p := by
  induction i using Nat.strong_induction_on with
  | _ i ih =>
      obtain ⟨n, hn, hparts⟩ := h.coherent.founded i hi
      exact ⟨_, h.affords_of_has hn fun part hpart => ih part (hparts part hpart) ((hparts part hpart).trans hi)⟩

variable [PartialEquivBEq L]

theorem Affords.mono (h : g.Affords i p) (hg : Grows g g') (hwell : WellFormed g') : g'.Affords i p := by
  induction h with
  | @node n i k p prices he hroot _ hp ih =>
      have hhas := (hg.nodes _ (Array.mem_filter.1 he).1).congr (b := (n, i)) ⟨BEq.rfl, hg.root_eq hroot⟩
      have haffords := hwell.affords_of_has hhas fun part hpart => ⟨_, ih part hpart⟩
      exact haffords.mono_price ((Layer.price_map_mono fun part hpart => (ih part hpart).leastPrice_le).trans hp)

variable [LawfulHashable L]

theorem WellFormed.affords_add (h : WellFormed g) {n : Node L} (hparts : ∀ part ∈ n.parts, ∃ p, g.Affords part p) :
    (g.add n).2.Affords (g.add n).1 (n.map g.leastPrice).price := by
  obtain ⟨hwell, hgrows, hhas⟩ := h.add fun part hpart => (hparts part hpart).choose_spec.lt h.coherent
  have hlater (part : Nat) (hpart : part ∈ n.parts) : (g.add n).2.Affords part (g.leastPrice part) :=
    (hparts part hpart).choose_spec.least.mono hgrows hwell
  exact (hwell.affords_of_has hhas fun part hpart => ⟨_, hlater part hpart⟩).mono_price
    (Layer.price_map_mono fun part hpart => (hlater part hpart).leastPrice_le)

theorem WellFormed.affords_addExpr (h : WellFormed g) (e : Expr L) :
    (g.addExpr (fun _ => none) e).2.Affords (g.addExpr (fun _ => none) e).1 e.price := by
  have hwell {g : EGraph L} (h : WellFormed g) (e : Expr L) := h.addExpr (σ := fun _ => none) (by simp) e
  induction e generalizing g with
  | literal x => exact h.affords_add (n := .literal x) (by simp [Layer.parts])
  | constant c => exact h.affords_add (n := .constant c) (by simp [Layer.parts])
  | var v => exact h.affords_add (n := .var v) (by simp [Layer.parts])
  | call f a ih =>
      have ha := ih h
      refine ((hwell h a).1.affords_add (n := .call f _) ?_).mono_price ?_
      · simpa [Layer.parts] using ⟨_, ha⟩
      · exact Nat.add_le_add_left ha.leastPrice_le _
  | call₂ f a b iha ihb =>
      obtain ⟨hwell', hgrows, -⟩ := hwell (hwell h a).1 b
      have ha := (iha h).mono hgrows hwell'
      have hb := ihb (hwell h a).1
      refine (hwell'.affords_add (n := .call₂ f _ _) ?_).mono_price ?_
      · simpa [Layer.parts] using ⟨⟨_, ha⟩, _, hb⟩
      · exact Nat.add_le_add_left (Nat.add_le_add ha.leastPrice_le hb.leastPrice_le) _
  | op o a b iha ihb =>
      obtain ⟨hwell', hgrows, -⟩ := hwell (hwell h a).1 b
      have ha := (iha h).mono hgrows hwell'
      have hb := ihb (hwell h a).1
      refine (hwell'.affords_add (n := .op o _ _) ?_).mono_price ?_
      · simpa [Layer.parts] using ⟨⟨_, ha⟩, _, hb⟩
      · exact Nat.add_le_add_left (Nat.add_le_add ha.leastPrice_le hb.leastPrice_le) _

end Affords

section Ranking

open Classical in
noncomputable def below (size : Nat) (hasPrice : Nat → Nat → Prop) (p : Nat) : Finset Nat :=
  (Finset.range size).filter fun k => ∃ q < p, hasPrice k q

variable {size : Nat} {hasPrice : Nat → Nat → Prop}

theorem card_below_le (size : Nat) (hasPrice : Nat → Nat → Prop) (p : Nat) : (below size hasPrice p).card ≤ size := by
  classical
  exact (Finset.card_filter_le _ _).trans (Finset.card_range size).le

/-- There is less below the least price of a class than below what is dearer: the class itself is. -/
theorem card_below_lt (hk : k < size) (hq : hasPrice k q) (hleast : ∀ p, hasPrice k p → q ≤ p) (hqp : q < p) :
    (below size hasPrice q).card < (below size hasPrice p).card := by
  refine Finset.card_lt_card ((Finset.ssubset_iff_of_subset fun l hl => ?_).2 ⟨k, ?_, fun hmem => ?_⟩)
  · simp only [below, Finset.mem_filter] at hl ⊢
    obtain ⟨hl, r, hr, hlr⟩ := hl
    exact ⟨hl, r, hr.trans hqp, hlr⟩
  · simp only [below, Finset.mem_filter, Finset.mem_range]
    exact ⟨hk, q, hqp, hq⟩
  · simp only [below, Finset.mem_filter] at hmem
    obtain ⟨-, r, hr, hkr⟩ := hmem
    exact (hleast r hkr).not_gt hr

end Ranking

section Choose

variable {entries : Array (Node L × Nat)} {choice choice' : Choice L} {n : Node L}

omit [Literal L]

def Choice.AtMost (choice : Choice L) (i p : Nat) : Prop := ∃ q, choice.price? i = some q ∧ q ≤ p

theorem Choice.AtMost.mono (h : choice.AtMost i p) (hpq : p ≤ q) : choice.AtMost i q := by
  obtain ⟨r, hr, hrp⟩ := h
  exact ⟨r, hr, hrp.trans hpq⟩

structure Choice.Improves (choice choice' : Choice L) : Prop where
  size : choice'.size = choice.size
  atMost (i p : Nat) : choice.AtMost i p → choice'.AtMost i p

def Choice.Pays (choice : Choice L) (n : Node L) (p : Nat) : Prop :=
  ∃ prices : Nat → Nat, (∀ k ∈ n.parts, choice.AtMost k (prices k)) ∧ (n.map prices).price ≤ p

def Choice.Backed (choice : Choice L) : Prop := ∀ i p n, choice.getD i none = some (p, n) → choice.Pays n p

theorem Choice.Improves.pays (h : choice.Improves choice') (hn : choice.Pays n p) : choice'.Pays n p := by
  obtain ⟨prices, hparts, hp⟩ := hn
  exact ⟨prices, fun k hk => h.atMost k _ (hparts k hk), hp⟩

theorem Choice.Improves.refl (choice : Choice L) : choice.Improves choice := ⟨rfl, fun _ _ h => h⟩

theorem Choice.Improves.trans {choice'' : Choice L} (h : choice.Improves choice') (h' : choice'.Improves choice'') :
    choice.Improves choice'' :=
  ⟨h'.size.trans h.size, fun i p hp => h'.atMost i p (h.atMost i p hp)⟩

/-- What `improve` does: it takes the price of a node if that is new to its class, or lower. -/
theorem improve_cases (choice : Choice L) (improved : Bool) (n : Node L) (i : Nat) :
    improve (choice, improved) (n, i) = (choice, improved) ∧
        (∀ m, (n.map choice.price?).sequence? = some m → choice.AtMost i m.price) ∨
      ∃ m, (n.map choice.price?).sequence? = some m ∧ (∀ q, choice.price? i = some q → m.price < q) ∧
        improve (choice, improved) (n, i) = (choice.setIfInBounds i (some (m.price, n)), true) := by
  unfold improve
  dsimp only
  cases hm : (n.map choice.price?).sequence? with
  | none => exact .inl ⟨rfl, by simp⟩
  | some m =>
      dsimp only [Option.map_some]
      cases hq : choice.price? i with
      | none => exact .inr ⟨m, rfl, by simp, rfl⟩
      | some q =>
          dsimp only
          by_cases hlt : m.price < q
          · rw [if_pos hlt]
            exact .inr ⟨m, rfl, by simpa using hlt, rfl⟩
          · rw [if_neg hlt]
            refine .inl ⟨rfl, ?_⟩
            rintro _ ⟨⟩
            exact ⟨q, hq, Nat.le_of_not_lt hlt⟩

theorem Choice.price?_set (choice : Choice L) (i p k : Nat) (n : Node L) :
    Choice.price? (choice.setIfInBounds i (some (p, n))) k = choice.price? k ∨
      k = i ∧ Choice.price? (choice.setIfInBounds i (some (p, n))) k = some p := by
  rcases getD_setIfInBounds choice i k (some (p, n)) none with heq | ⟨hk, heq⟩
  · exact .inl (congrArg (Option.map Prod.fst) heq)
  · exact .inr ⟨hk, congrArg (Option.map Prod.fst) heq⟩

theorem Choice.improves_improve (choice : Choice L) (improved : Bool) (entry : Node L × Nat) :
    choice.Improves (improve (choice, improved) entry).1 := by
  obtain ⟨n, i⟩ := entry
  obtain ⟨heq, -⟩ | ⟨m, -, hlt, heq⟩ := improve_cases choice improved n i <;> rw [heq]
  · exact .refl choice
  · refine ⟨Array.size_setIfInBounds, ?_⟩
    rintro k p ⟨q, hq, hqp⟩
    rcases choice.price?_set i m.price k n with hk | ⟨rfl, hk⟩
    · exact ⟨q, hk.trans hq, hqp⟩
    · exact ⟨_, hk, (hlt q hq).le.trans hqp⟩

theorem Choice.Pays.exists_price (h : choice.Pays n p) :
    ∃ m, (n.map choice.price?).sequence? = some m ∧ m.price ≤ p := by
  obtain ⟨prices, hparts, hp⟩ := h
  have hprice (k : Nat) (hk : k ∈ n.parts) :
      choice.price? k = some ((choice.price? k).getD 0) ∧ (choice.price? k).getD 0 ≤ prices k := by
    obtain ⟨q, hq, hle⟩ := hparts k hk
    simp [hq, hle]
  exact ⟨_, Layer.sequence?_map fun k hk => (hprice k hk).1,
    (Layer.price_map_mono fun k hk => (hprice k hk).2).trans hp⟩

theorem Choice.pays_of_sequence? {m : Layer L Nat} (h : (n.map choice.price?).sequence? = some m) :
    choice.Pays n m.price := by
  obtain ⟨hparts, rfl⟩ := Layer.of_sequence?_map h 0
  exact ⟨_, fun k hk => ⟨_, hparts k hk, le_rfl⟩, le_rfl⟩

theorem Choice.Pays.atMost_improve (h : choice.Pays n p) (hi : i < choice.size) (improved : Bool) :
    (improve (choice, improved) (n, i)).1.AtMost i p := by
  obtain ⟨m, hm, hle⟩ := h.exists_price
  obtain ⟨heq, hold⟩ | ⟨m', hm', -, heq⟩ := improve_cases choice improved n i <;> rw [heq]
  · exact (hold m hm).mono hle
  · obtain rfl := Option.some.inj (hm.symm.trans hm')
    exact ⟨m.price, by simp [Choice.price?, hi], hle⟩

theorem Choice.Backed.improve (h : choice.Backed) (improved : Bool) (entry : Node L × Nat) :
    (EGraph.improve (choice, improved) entry).1.Backed := by
  have himproves := choice.improves_improve improved entry
  obtain ⟨n, i⟩ := entry
  obtain ⟨heq, -⟩ | ⟨m, hm, -, heq⟩ := improve_cases choice improved n i
  · rwa [heq]
  · rw [heq] at himproves ⊢
    intro k p n' hk
    rcases getD_setIfInBounds choice i k (some (m.price, n)) none with heq | ⟨-, heq⟩
    · exact himproves.pays (h k p n' (heq ▸ hk))
    · obtain ⟨rfl, rfl⟩ : m.price = p ∧ n = n' := by simpa [heq] using hk
      exact himproves.pays (Choice.pays_of_sequence? hm)

def Choice.pass (entries : Array (Node L × Nat)) (choice : Choice L) : Choice L :=
  (entries.foldl EGraph.improve (choice, false)).1

theorem foldl_improve_of_not_improved {entries : List (Node L × Nat)} {state : Choice L × Bool}
    (h : (entries.foldl improve state).2 = false) : entries.foldl improve state = state := by
  induction entries generalizing state with
  | nil => rfl
  | cons entry entries ih =>
      obtain ⟨choice, improved⟩ := state
      rw [List.foldl_cons] at h ⊢
      have hrest := ih h
      rw [hrest] at h ⊢
      obtain ⟨heq, -⟩ | ⟨m, -, -, heq⟩ := improve_cases choice improved entry.1 entry.2
      · exact heq
      · rw [heq] at h
        cases h

theorem improveAll_eq_iterate (entries : Array (Node L × Nat)) (fuel : Nat) (choice : Choice L) :
    improveAll entries fuel choice = (Choice.pass entries)^[fuel] choice := by
  induction fuel generalizing choice with
  | zero => rfl
  | succ fuel ih =>
      unfold improveAll
      split
      · next heq => rw [ih, Function.iterate_succ_apply, Choice.pass, heq]
      · next choice' heq =>
        have hsame : entries.foldl improve (choice, false) = (choice, false) := by
          rw [← Array.foldl_toList] at heq ⊢
          exact foldl_improve_of_not_improved (by rw [heq])
        have hpass : Choice.pass entries choice = choice := by rw [Choice.pass, hsame]
        rw [Function.iterate_fixed hpass]
        exact congrArg Prod.fst (heq.symm.trans hsame)

theorem Choice.improves_foldl (entries : List (Node L × Nat)) (state : Choice L × Bool) :
    state.1.Improves (entries.foldl EGraph.improve state).1 := by
  induction entries generalizing state with
  | nil => exact .refl _
  | cons entry entries ih => exact (improves_improve state.1 state.2 entry).trans (ih _)

theorem Choice.Backed.foldl (state : Choice L × Bool) (h : state.1.Backed) (entries : List (Node L × Nat)) :
    (entries.foldl EGraph.improve state).1.Backed := by
  induction entries generalizing state with
  | nil => exact h
  | cons entry entries ih => exact ih _ (h.improve state.2 entry)

theorem Choice.Pays.atMost_pass (h : choice.Pays n p) (hi : i < choice.size) (hn : (n, i) ∈ entries) :
    (Choice.pass entries choice).AtMost i p := by
  have hfold (entries : List (Node L × Nat)) (state : Choice L × Bool) (h : state.1.Pays n p) (hi : i < state.1.size)
      (hn : (n, i) ∈ entries) : (entries.foldl EGraph.improve state).1.AtMost i p := by
    induction entries generalizing state with
    | nil => cases hn
    | cons entry entries ih =>
        have himproves := improves_improve state.1 state.2 entry
        rcases List.mem_cons.1 hn with rfl | hn
        · exact (improves_foldl entries _).atMost i p (h.atMost_improve hi state.2)
        · exact ih _ (himproves.pays h) (himproves.size.symm ▸ hi) hn
  rw [Choice.pass, ← Array.foldl_toList]
  exact hfold _ (choice, false) h hi (by simpa using hn)

theorem Choice.improves_iterate (entries : Array (Node L × Nat)) (passes : Nat) (choice : Choice L) :
    choice.Improves ((Choice.pass entries)^[passes] choice) := by
  induction passes with
  | zero => exact .refl choice
  | succ passes ih =>
      rw [Function.iterate_succ_apply', Choice.pass, ← Array.foldl_toList]
      exact ih.trans (improves_foldl _ (_, false))

theorem Choice.Backed.iterate (h : choice.Backed) (entries : Array (Node L × Nat)) (passes : Nat) :
    ((Choice.pass entries)^[passes] choice).Backed := by
  induction passes with
  | zero => exact h
  | succ passes ih =>
      rw [Function.iterate_succ_apply', Choice.pass, ← Array.foldl_toList]
      exact Backed.foldl (_, false) ih _

/-- Parts cost less than the whole, so a tree of chosen nodes is no deeper than there are classes. -/
theorem Choice.Backed.exists_tree? (h : choice.Backed) (fuel : Nat) (hp : choice.price? i = some p)
    (hfuel : (below choice.size (fun k q => choice.price? k = some q) p).card < fuel) :
    ∃ e, tree? choice fuel i = some e ∧ e.price ≤ p := by
  induction fuel generalizing i p with
  | zero => omega
  | succ fuel ih =>
      obtain ⟨⟨p', n⟩, hi, rfl⟩ := Option.map_eq_some_iff.1 hp
      dsimp only at hfuel ⊢
      obtain ⟨prices, hparts, hle⟩ := h i p' n hi
      have htree (k : Nat) (hk : k ∈ n.parts) :
          tree? choice fuel k = some ((tree? choice fuel k).getD (.var "")) ∧
            ((tree? choice fuel k).getD (.var "")).price ≤ prices k := by
        obtain ⟨q, hq, hqk⟩ := hparts k hk
        have hlt : q < p' := (hqk.trans_lt (Layer.lt_price_map hk)).trans_le hle
        have hsize : k < choice.size := by
          by_contra hge
          simp [Choice.price?, Array.getD_eq_getD_getElem?, hge] at hq
        have hless : _ < (below choice.size (fun k q => choice.price? k = some q) p').card :=
          card_below_lt hsize hq (fun r hr => (Option.some.inj (hq.symm.trans hr)).le) hlt
        obtain ⟨e, he, hprice⟩ := ih hq (by omega)
        rw [he]
        exact ⟨rfl, hprice.trans hqk⟩
      have hsequence := Layer.sequence?_map fun k hk => (htree k hk).1
      refine ⟨_, by simp only [tree?, hi, hsequence, Option.bind_eq_bind, Option.bind_some]; rfl, ?_⟩
      rw [Layer.price_toExpr, Layer.map_map]
      exact (Layer.price_map_mono fun k hk => (htree k hk).2).trans hle

end Choose

section Extract

/-- After as many passes as there are cheaper classes, the choice for a class is no dearer than what it
affords. -/
theorem Restored.atMost_iterate (h : Restored g) {passes : Nat} {start : Choice L}
    (hstart : start.size = g.leader.size) (hp : g.Affords i p) (hpasses : (below g.leader.size g.Affords p).card < passes) :
    ((Choice.pass g.entries)^[passes] start).AtMost (g.root i) p := by
  induction passes generalizing i p with
  | zero => omega
  | succ passes ih =>
      cases hp with
      | @node n _ k _ prices he hroot hparts hle =>
          have hcoherent := h.coherent
          have hmem := (Array.mem_filter.1 he).1
          obtain ⟨hk, hcanonical⟩ := h.nodes _ hmem
          have hsize := (Choice.improves_iterate g.entries passes start).size.trans hstart
          have hpays : Choice.Pays ((Choice.pass g.entries)^[passes] start) n p := by
            refine ⟨g.leastPrice, fun part hpart => ?_, ?_⟩
            · have hleast := (hparts part hpart).least
              have hlt : g.leastPrice part < p :=
                ((hparts part hpart).leastPrice_le.trans_lt (Layer.lt_price_map hpart)).trans_le hle
              have hless := card_below_lt ((hcoherent.nodes _ hmem).2 part hpart) hleast
                (fun q hq => hq.leastPrice_le) hlt
              have hatMost := ih hleast (by omega)
              rwa [Layer.map_eq_self_iff.1 hcanonical part hpart] at hatMost
            · exact (Layer.price_map_mono fun part hpart => (hparts part hpart).leastPrice_le).trans hle
          rw [Function.iterate_succ_apply', ← hroot, hk]
          exact hpays.atMost_pass (by rw [hsize]; exact (hcoherent.nodes _ hmem).1) he

/-- The extracted tree costs no more than any price that its class affords. -/
theorem Restored.exists_extract? (h : Restored g) (hp : g.Affords i p) :
    ∃ e, g.extract? g.choose i = some e ∧ e.price ≤ p := by
  have hstart : Choice.Backed (Array.replicate g.leader.size none : Choice L) := by
    intro k q n hk
    have hnone : (Array.replicate g.leader.size (none : Option (Nat × Node L))).getD k none = none := by
      rw [Array.getD_eq_getD_getElem?, Array.getElem?_replicate]
      split <;> rfl
    cases hnone.symm.trans hk
  have hsize : (Array.replicate g.leader.size none : Choice L).size = g.leader.size := Array.size_replicate
  have hchoose : g.choose = (Choice.pass g.entries)^[g.leader.size + 1] (Array.replicate g.leader.size none) :=
    improveAll_eq_iterate ..
  obtain ⟨q, hq, hqp⟩ := h.atMost_iterate hsize hp (Nat.lt_succ_of_le (card_below_le ..))
  have hbacked := hstart.iterate g.entries (g.leader.size + 1)
  have hsize' := (Choice.improves_iterate g.entries (g.leader.size + 1) _).size.trans hsize
  rw [← hchoose] at hq hbacked hsize'
  obtain ⟨e, he, hprice⟩ := hbacked.exists_tree? (g.leader.size + 1) hq
    (Nat.lt_succ_of_le (hsize' ▸ card_below_le ..))
  exact ⟨e, he, hprice.trans hqp⟩

theorem Coherent.affords_of_extract? (h : Coherent g) {e : Expr L} (he : g.extract? g.choose i = some e) :
    g.Affords i e.price := by
  have hroot : g.Affords (g.root i) e.price := by
    refine g.choose_from.extract? (P := fun k e => g.Affords k e.price) (fun n k m tree hn htree hm => ?_) he
    obtain ⟨hparts, rfl⟩ := Layer.of_sequence?_map hm (.var "")
    refine .node hn rfl (fun part hpart => htree part _ (hparts part hpart)) ?_
    rw [Layer.price_toExpr, Layer.map_map]
    rfl
  exact hroot.congr (h.root_root i)

end Extract

end EGraph

end FlowShader
