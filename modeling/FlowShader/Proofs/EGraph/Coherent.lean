import FlowShader.Proofs.EGraph.Saturate

namespace FlowShader

namespace Layer

variable {L : Type} [BEq L] {n m k : Layer L Nat}

/-- Nodes are equal if they are the same, or literals that count as the same without being so. -/
theorem beq_cases (h : (n == m) = true) :
    n = m ∨ ∃ x y, n = .literal x ∧ m = .literal y ∧ sameLiteral x y = true := by
  cases n <;> cases m <;> simp_all [BEq.beq, beq]

theorem literal_beq {x y : L} : ((literal x : Layer L Nat) == literal y) = sameLiteral x y := rfl

theorem sameLiteral_iff {x y : L} :
    sameLiteral x y = true ↔ (x == y) = true ∨ (x == x) = false ∧ (y == y) = false := by
  simp [sameLiteral, bne]

section Same

variable [PartialEquivBEq L] {x y z : L}

theorem beq_self_of_beq (h : (x == y) = true) : (x == x) = true := BEq.trans h (BEq.symm h)

theorem sameLiteral_symm (h : sameLiteral x y = true) : sameLiteral y x = true := by
  rw [sameLiteral_iff] at h ⊢
  exact h.imp BEq.symm And.symm

theorem sameLiteral_trans (h : sameLiteral x y = true) (h' : sameLiteral y z = true) : sameLiteral x z = true := by
  rw [sameLiteral_iff] at h h' ⊢
  rcases h with h | ⟨hx, hy⟩ <;> rcases h' with h' | ⟨hy', hz⟩
  · exact .inl (BEq.trans h h')
  · exact absurd (beq_self_of_beq (BEq.symm h)) (by simp [hy'])
  · exact absurd (beq_self_of_beq h') (by simp [hy])
  · exact .inr ⟨hx, hz⟩

end Same

instance [PartialEquivBEq L] : EquivBEq (Layer L Nat) where
  symm {n m} h := by
    obtain rfl | ⟨x, y, rfl, rfl, hxy⟩ := beq_cases h
    · exact h
    · exact literal_beq.trans (sameLiteral_symm hxy)
  trans {n m k} h h' := by
    obtain rfl | ⟨x, y, rfl, rfl, hxy⟩ := beq_cases h
    · exact h'
    · obtain rfl | ⟨y', z, hy, rfl, hyz⟩ := beq_cases h'
      · exact h
      · cases hy
        exact literal_beq.trans (sameLiteral_trans hxy hyz)

instance [PartialEquivBEq L] [Hashable L] [LawfulHashable L] : LawfulHashable (Layer L Nat) where
  hash_eq n m h := by
    obtain rfl | ⟨x, y, rfl, rfl, hxy⟩ := beq_cases h
    · rfl
    · refine congrArg (mixHash 0) ?_
      rcases sameLiteral_iff.1 hxy with hxy | ⟨hx, hy⟩
      · rw [if_pos (beq_self_of_beq hxy), if_pos (beq_self_of_beq (BEq.symm hxy)), hash_eq hxy]
      · rw [if_neg (by simp [hx]), if_neg (by simp [hy])]

omit [BEq L] in
theorem map_eq_self_iff {f : Nat → Nat} : n.map f = n ↔ ∀ k ∈ n.parts, f k = k := by
  cases n <;> simp [map, parts]

theorem beq_map (f : Nat → Nat) (h : (n == m) = true) : (n.map f == m.map f) = true := by
  obtain rfl | ⟨x, y, rfl, rfl, hxy⟩ := beq_cases h
  · exact BEq.rfl
  · exact hxy

theorem parts_eq_of_beq (h : (n == m) = true) : n.parts = m.parts := by
  obtain rfl | ⟨x, y, rfl, rfl, -⟩ := beq_cases h <;> rfl

theorem price_map_eq_of_beq (f : Nat → Nat) (h : (n == m) = true) : (n.map f).price = (m.map f).price := by
  obtain rfl | ⟨x, y, rfl, rfl, -⟩ := beq_cases h <;> rfl

end Layer

namespace EGraph

variable {L : Type} [Literal L] {g g' g'' : EGraph L} {a b c : Node L × Nat} {i j k : Nat}

/-- Entries that have come to be the same node in the same class. -/
def Alike (g : EGraph L) (a b : Node L × Nat) : Prop :=
  (g.canonical a.1 == g.canonical b.1) = true ∧ g.root a.2 = g.root b.2

def Has (g : EGraph L) (a : Node L × Nat) : Prop := ∃ b ∈ g.nodes, g.Alike b a

def leaders (g : EGraph L) : Finset Nat := (Finset.range g.leader.size).filter fun i => g.root i = i

def load (g : EGraph L) : Nat := ∑ i ∈ g.leaders, (g.uses.getD i #[]).size

/-- The table and the lists of uses are complete, except that the table may take class `j` for class `i`.
Every class has a node over earlier classes, the one that it was made for. -/
structure CoherentUpTo (i j : Nat) (g : EGraph L) : Prop where
  values_size : g.values.size = g.leader.size
  uses_size : g.uses.size = g.leader.size
  root_lt (k : Nat) : k < g.leader.size → g.root k < g.leader.size
  root_root (k : Nat) : g.root (g.root k) = g.root k
  nodes : ∀ a ∈ g.nodes, a.2 < g.leader.size ∧ ∀ k ∈ a.1.parts, k < g.leader.size
  table (n : Node L) (k : Nat) : g.table[n]? = some k → g.canonical n = n → g.Has (n, k)
  uses (k : Nat) : ∀ a ∈ g.uses.getD k #[], g.Has a
  stale : ∀ a ∈ g.stale, g.Has a
  awaiting : ∀ a ∈ g.awaiting, g.Has a
  listed : ∀ a ∈ g.nodes, ∀ k ∈ (g.canonical a.1).parts, ∃ b ∈ g.uses.getD k #[], g.Alike b a
  known : ∀ a ∈ g.nodes,
    (∃ k, g.table[g.canonical a.1]? = some k ∧
      (g.root k = g.root a.2 ∨ g.root k = g.root j ∧ g.root a.2 = g.root i)) ∨
    ∃ b ∈ g.stale, g.Alike b a
  load_le : g.load ≤ 2 * g.leader.size
  founded (k : Nat) : k < g.leader.size → ∃ n, g.Has (n, k) ∧ ∀ l ∈ n.parts, l < k

abbrev Coherent (g : EGraph L) : Prop := CoherentUpTo 0 0 g

/-- All classes and nodes are still there; some classes may have become one. -/
structure Grows (g g' : EGraph L) : Prop where
  le : g.leader.size ≤ g'.leader.size
  root (i : Nat) : g'.root (g.root i) = g'.root i
  nodes : ∀ a ∈ g.nodes, g'.Has a

section Alike

theorem Grows.canonical (h : Grows g g') (n : Node L) : g'.canonical (g.canonical n) = g'.canonical n := by
  rw [EGraph.canonical, EGraph.canonical, Layer.map_map]
  exact Layer.map_congr fun i _ => h.root i

theorem Grows.root_eq (h : Grows g g') (hij : g.root i = g.root j) : g'.root i = g'.root j := by
  rw [← h.root i, hij, h.root]

theorem Alike.refl (g : EGraph L) (a : Node L × Nat) : g.Alike a a := ⟨BEq.rfl, rfl⟩

theorem Alike.mono (h : g.Alike a b) (hg : Grows g g') : g'.Alike a b := by
  refine ⟨?_, hg.root_eq h.2⟩
  rw [← hg.canonical a.1, ← hg.canonical b.1]
  exact Layer.beq_map _ h.1

theorem has_of_mem (h : a ∈ g.nodes) : g.Has a := ⟨a, h, .refl g a⟩

theorem CoherentUpTo.grows (h : CoherentUpTo i j g) : Grows g g := ⟨le_rfl, h.root_root, fun _ => has_of_mem⟩

variable [PartialEquivBEq L]

theorem Alike.symm (h : g.Alike a b) : g.Alike b a := ⟨BEq.symm h.1, h.2.symm⟩

theorem Alike.trans (h : g.Alike a b) (h' : g.Alike b c) : g.Alike a c := ⟨BEq.trans h.1 h'.1, h.2.trans h'.2⟩

theorem Has.mono (h : g.Has a) (hg : Grows g g') : g'.Has a := by
  obtain ⟨b, hb, hba⟩ := h
  obtain ⟨c, hc, hcb⟩ := hg.nodes b hb
  exact ⟨c, hc, hcb.trans (hba.mono hg)⟩

theorem Has.congr (h : g.Has a) (hab : g.Alike a b) : g.Has b := by
  obtain ⟨c, hc, hca⟩ := h
  exact ⟨c, hc, hca.trans hab⟩

theorem Grows.trans (h : Grows g g') (h' : Grows g' g'') : Grows g g'' := by
  refine ⟨h.le.trans h'.le, fun i => ?_, fun a ha => (h.nodes a ha).mono h'⟩
  rw [← h'.root (g.root i), h.root, h'.root]

theorem CoherentUpTo.founded_mono (h : CoherentUpTo i j g) (hg : Grows g g') (hk : k < g.leader.size) :
    ∃ n, g'.Has (n, k) ∧ ∀ l ∈ n.parts, l < k := by
  obtain ⟨n, hn, hparts⟩ := h.founded k hk
  exact ⟨n, hn.mono hg, hparts⟩

end Alike

section Classes

theorem mem_leaders : i ∈ g.leaders ↔ i < g.leader.size ∧ g.root i = i := by simp [leaders]

theorem lt_of_root_lt (h : g.root i < g.leader.size) : i < g.leader.size := by
  by_contra hi
  simp [EGraph.root, hi] at h

theorem CoherentUpTo.root_mem (h : CoherentUpTo i j g) (hk : k < g.leader.size) : g.root k ∈ g.leaders :=
  mem_leaders.2 ⟨h.root_lt k hk, h.root_root k⟩

theorem CoherentUpTo.lt_of_has (h : CoherentUpTo i j g) (ha : g.Has a) : a.2 < g.leader.size := by
  obtain ⟨b, hb, -, hroot⟩ := ha
  exact lt_of_root_lt (hroot ▸ h.root_lt _ (h.nodes b hb).1)

theorem CoherentUpTo.parts_canonical (h : CoherentUpTo i j g) {n : Node L} (hn : ∀ k ∈ n.parts, k < g.leader.size) :
    ∀ k ∈ (g.canonical n).parts, k ∈ g.leaders := by
  rw [EGraph.canonical, Layer.parts_map]
  simp only [List.mem_map]
  rintro _ ⟨k, hk, rfl⟩
  exact h.root_mem (hn k hk)

theorem CoherentUpTo.alike_current (h : CoherentUpTo i j g) (a : Node L × Nat) :
    g.Alike (g.canonical a.1, g.root a.2) a :=
  ⟨by rw [h.grows.canonical]; exact BEq.rfl, h.root_root _⟩

theorem CoherentUpTo.alike_canonical (h : CoherentUpTo i j g) (n : Node L) (k : Nat) :
    g.Alike (g.canonical n, k) (n, k) :=
  ⟨by rw [h.grows.canonical]; exact BEq.rfl, rfl⟩

end Classes

theorem Coherent.found (h : Coherent g) (ha : a ∈ g.nodes) :
    (∃ k, g.table[g.canonical a.1]? = some k ∧ g.root k = g.root a.2) ∨ ∃ b ∈ g.stale, g.Alike b a :=
  (h.known a ha).imp_left fun ⟨k, hk, heq⟩ => ⟨k, hk, by omega⟩

section Absorb

theorem root_absorb (hj : j ∈ g.leaders) (k : Nat) :
    (g.absorb i j).root k = if g.root k = j then i else g.root k := by
  have hj := (mem_leaders.1 hj).1
  by_cases hk : k < g.leader.size
  · simp [EGraph.absorb, EGraph.root, hk]
  · have hne : k ≠ j := by omega
    simp [EGraph.absorb, EGraph.root, hk, hne]

theorem root_absorb_of_mem (hj : j ∈ g.leaders) (hk : g.root k = i ∨ g.root k = j) :
    (g.absorb i j).root k = i := by
  rw [root_absorb hj]
  split
  · rfl
  · next hne => exact hk.resolve_right hne

theorem leaders_absorb (hi : i ∈ g.leaders) (hj : j ∈ g.leaders) (hij : i ≠ j) :
    (g.absorb i j).leaders = g.leaders.erase j := by
  obtain ⟨-, hi⟩ := mem_leaders.1 hi
  ext k
  rw [mem_leaders, Finset.mem_erase, mem_leaders, size_absorb, root_absorb hj]
  by_cases hk : g.root k = j
  · rw [if_pos hk]
    constructor
    · rintro ⟨-, rfl⟩
      exact absurd (hi.symm.trans hk) hij
    · rintro ⟨hne, -, hroot⟩
      exact absurd (hroot.symm.trans hk) hne
  · rw [if_neg hk]
    exact ⟨fun h => ⟨fun heq => hk (h.2.trans heq), h⟩, fun h => h.2⟩

theorem uses_absorb (hi : i < g.uses.size) (k : Nat) :
    (g.absorb i j).uses.getD k #[] = if k = i then g.uses.getD i #[] ++ g.usesOf j else g.uses.getD k #[] := by
  have huses : (g.absorb i j).uses = g.uses.modify i (· ++ g.usesOf j) := rfl
  simp only [huses, Array.getD_eq_getD_getElem?, Array.getElem?_modify]
  by_cases hk : k = i
  · subst hk
    simp [hi]
  · simp [hk, Ne.symm hk]

theorem stale_absorb (g : EGraph L) (i j : Nat) :
    (g.absorb i j).stale = (g.usesOf j).toList.reverse ++ g.stale := by
  simp [EGraph.absorb, ← Array.foldl_toList]

theorem mem_stale_absorb : a ∈ (g.absorb i j).stale ↔ a ∈ g.usesOf j ∨ a ∈ g.stale := by
  simp [stale_absorb]

theorem mem_awaiting_absorb (ha : a ∈ (g.absorb i j).awaiting) :
    a ∈ g.awaiting ∨ a ∈ g.usesOf i ∨ a ∈ g.usesOf j := by
  rcases Array.mem_append.1 ha with ha | ha
  · exact .inl ha
  · split at ha
    · exact .inr (.inl ha)
    · exact .inr (.inr ha)
    · simp at ha

theorem load_absorb (hi : i ∈ g.leaders) (hj : j ∈ g.leaders) (hij : i ≠ j) (hsize : i < g.uses.size) :
    (g.absorb i j).load = g.load := by
  have huses (k : Nat) : ((g.absorb i j).uses.getD k #[]).size =
      (g.uses.getD k #[]).size + if k = i then (g.uses.getD j #[]).size else 0 := by
    rw [uses_absorb hsize, EGraph.usesOf, (mem_leaders.1 hj).2]
    by_cases hk : k = i
    · rw [if_pos hk, if_pos hk, hk, Array.size_append]
    · rw [if_neg hk, if_neg hk, add_zero]
  have hi' : i ∈ g.leaders.erase j := Finset.mem_erase.2 ⟨hij, hi⟩
  rw [load, leaders_absorb hi hj hij, Finset.sum_congr rfl fun k _ => huses k, Finset.sum_add_distrib,
    Finset.sum_ite_eq_of_mem' _ _ _ hi', add_comm]
  exact Finset.add_sum_erase g.leaders (fun k => (g.uses.getD k #[]).size) hj

theorem CoherentUpTo.grows_absorb {i' j' : Nat} (h : CoherentUpTo i' j' g) (hj : j ∈ g.leaders) :
    Grows g (g.absorb i j) := by
  refine ⟨(size_absorb g i j).ge, fun k => ?_, fun a ha => ⟨a, ha, .refl _ a⟩⟩
  rw [root_absorb hj, root_absorb hj, h.root_root]

/-- Uses stay with their class when it takes over another one or is taken over. -/
theorem mem_uses_absorb (hi : i < g.uses.size) (hj : j ∈ g.leaders) (ha : a ∈ g.uses.getD (g.root k) #[]) :
    a ∈ (g.absorb i j).uses.getD ((g.absorb i j).root k) #[] := by
  rw [root_absorb hj]
  by_cases hk : g.root k = j
  · rw [if_pos hk, uses_absorb hi, if_pos rfl, EGraph.usesOf, (mem_leaders.1 hj).2, ← hk]
    exact Array.mem_append_right _ ha
  · rw [if_neg hk, uses_absorb hi]
    by_cases hki : g.root k = i
    · rw [if_pos hki, ← hki]
      exact Array.mem_append_left _ ha
    · rwa [if_neg hki]

variable [PartialEquivBEq L]

/-- Merging two classes settles which of them the table means, and makes stale what the table may not
find under its new parts. -/
theorem CoherentUpTo.absorb {i' j' : Nat} (h : CoherentUpTo i' j' g) (hi : i ∈ g.leaders) (hj : j ∈ g.leaders)
    (hij : i ≠ j) (hjoin : g.root i' = i ∧ g.root j' = j ∨ g.root i' = j ∧ g.root j' = i) :
    Coherent (g.absorb i j) := by
  obtain ⟨hlt, hroot⟩ := mem_leaders.1 hi
  obtain ⟨hlt', hroot'⟩ := mem_leaders.1 hj
  have hsize : i < g.uses.size := h.uses_size ▸ hlt
  have hgrows : Grows g (g.absorb i j) := h.grows_absorb hj
  have huses (k : Nat) : ∀ a ∈ g.usesOf k, (g.absorb i j).Has a := fun a ha => (h.uses _ a ha).mono hgrows
  constructor
  case values_size => simpa [EGraph.absorb] using h.values_size
  case uses_size => simpa [EGraph.absorb] using h.uses_size
  case root_lt =>
    intro k hk
    rw [size_absorb] at hk ⊢
    rw [root_absorb hj]
    split
    · exact hlt
    · exact h.root_lt k hk
  case root_root =>
    intro k
    rw [root_absorb hj k]
    split
    · exact root_absorb_of_mem hj (.inl hroot)
    · next hk => rw [root_absorb hj, h.root_root, if_neg hk]
  case nodes => exact size_absorb g i j ▸ h.nodes
  case table =>
    intro n k hk hn
    -- parts that are leaders now were leaders before
    have hcanonical : g.canonical n = n := by
      refine Layer.map_eq_self_iff.2 fun p hp => ?_
      have hp := Layer.map_eq_self_iff.1 hn p hp
      rw [root_absorb hj] at hp
      split at hp
      · next hpj =>
        subst hp
        exact absurd (hroot.symm.trans hpj) hij
      · exact hp
    exact (h.table n k hk hcanonical).mono hgrows
  case uses =>
    intro k a ha
    rw [uses_absorb hsize] at ha
    by_cases hk : k = i
    · rw [if_pos hk] at ha
      rcases Array.mem_append.1 ha with ha | ha
      · exact (h.uses i a ha).mono hgrows
      · exact huses j a ha
    · rw [if_neg hk] at ha
      exact (h.uses k a ha).mono hgrows
  case stale =>
    intro a ha
    rcases mem_stale_absorb.1 ha with ha | ha
    · exact huses j a ha
    · exact (h.stale a ha).mono hgrows
  case awaiting =>
    intro a ha
    rcases mem_awaiting_absorb ha with ha | ha | ha
    · exact (h.awaiting a ha).mono hgrows
    · exact huses i a ha
    · exact huses j a ha
  case listed =>
    intro a ha k hk
    rw [EGraph.canonical, Layer.parts_map] at hk
    obtain ⟨p, hp, rfl⟩ := List.mem_map.1 hk
    have hp : g.root p ∈ (g.canonical a.1).parts := by
      rw [EGraph.canonical, Layer.parts_map]
      exact List.mem_map_of_mem hp
    obtain ⟨b, hb, hba⟩ := h.listed a ha _ hp
    exact ⟨b, mem_uses_absorb hsize hj hb, hba.mono hgrows⟩
  case known =>
    intro a ha
    by_cases hpart : j ∈ (g.canonical a.1).parts
    · obtain ⟨b, hb, hba⟩ := h.listed a ha j hpart
      refine .inr ⟨b, mem_stale_absorb.2 (.inl ?_), hba.mono hgrows⟩
      rwa [EGraph.usesOf, hroot']
    · have hcanonical : (g.absorb i j).canonical a.1 = g.canonical a.1 := by
        refine Layer.map_congr fun p hp => ?_
        rw [root_absorb hj, if_neg]
        rintro rfl
        rw [EGraph.canonical, Layer.parts_map] at hpart
        exact hpart (List.mem_map_of_mem hp)
      rcases h.known a ha with ⟨k, hk, heq⟩ | ⟨b, hb, hba⟩
      · refine .inl ⟨k, by rw [hcanonical]; exact hk, .inl ?_⟩
        rcases heq with heq | ⟨hkj, hai⟩
        · exact hgrows.root_eq heq
        · rw [root_absorb_of_mem hj (by omega), root_absorb_of_mem hj (by omega)]
      · exact .inr ⟨b, mem_stale_absorb.2 (.inr hb), hba.mono hgrows⟩
  case load_le =>
    rw [load_absorb hi hj hij hsize, size_absorb]
    exact h.load_le
  case founded => exact fun k hk => h.founded_mono hgrows (size_absorb g i j ▸ hk)

end Absorb

section Union

/-- The table may take one class for another as long as they are the same. -/
theorem CoherentUpTo.congr (h : CoherentUpTo i j g) {i' j' : Nat} (hij : g.root i = g.root j) :
    CoherentUpTo i' j' g := by
  refine { h with known := fun a ha => ?_ }
  rcases h.known a ha with ⟨k, hk, heq⟩ | hstale
  · exact .inl ⟨k, hk, .inl (by omega)⟩
  · exact .inr hstale

theorem union_of_root_eq (h : g.root i = g.root j) : g.union i j = g := by
  simp only [EGraph.union, h, if_true]

theorem CoherentUpTo.union_cases (h : CoherentUpTo i j g) (hi : i < g.leader.size) (hj : j < g.leader.size) :
    g.root i = g.root j ∧ g.union i j = g ∨
      ∃ k l, k ∈ g.leaders ∧ l ∈ g.leaders ∧ k ≠ l ∧ (g.root i = k ∧ g.root j = l ∨ g.root i = l ∧ g.root j = k) ∧
        g.union i j = g.absorb k l := by
  by_cases hij : g.root i = g.root j
  · exact .inl ⟨hij, union_of_root_eq hij⟩
  · right
    unfold EGraph.union
    dsimp only
    rw [if_neg hij]
    split
    · exact ⟨_, _, h.root_mem hj, h.root_mem hi, Ne.symm hij, .inr ⟨rfl, rfl⟩, rfl⟩
    · exact ⟨_, _, h.root_mem hi, h.root_mem hj, hij, .inl ⟨rfl, rfl⟩, rfl⟩

theorem CoherentUpTo.grows_union (h : CoherentUpTo i j g) (hi : i < g.leader.size) (hj : j < g.leader.size) :
    Grows g (g.union i j) := by
  obtain ⟨-, heq⟩ | ⟨k, l, -, hl, -, -, heq⟩ := h.union_cases hi hj <;> rw [heq]
  · exact h.grows
  · exact h.grows_absorb hl

theorem CoherentUpTo.root_union (h : CoherentUpTo i j g) (hi : i < g.leader.size) (hj : j < g.leader.size) :
    (g.union i j).root i = (g.union i j).root j := by
  obtain ⟨hij, heq⟩ | ⟨k, l, -, hl, -, hjoin, heq⟩ := h.union_cases hi hj <;> rw [heq]
  · exact hij
  · rw [root_absorb_of_mem hl (by omega), root_absorb_of_mem hl (by omega)]

theorem CoherentUpTo.union [PartialEquivBEq L] (h : CoherentUpTo i j g) (hi : i < g.leader.size)
    (hj : j < g.leader.size) : Coherent (g.union i j) := by
  obtain ⟨hij, heq⟩ | ⟨k, l, hk, hl, hkl, hjoin, heq⟩ := h.union_cases hi hj <;> rw [heq]
  · exact h.congr hij
  · exact h.absorb hk hl hkl hjoin

end Union

section Enter

variable {n : Node L}

theorem enter_cases (g : EGraph L) (n : Node L) :
    (∃ k, g.table[g.canonical n]? = some k ∧ g.enter n = (g.root k, g)) ∨
      g.table[g.canonical n]? = none ∧ g.enter n = (g.leader.size, g.grown (g.canonical n)) := by
  unfold EGraph.enter
  cases hk : g.table[g.canonical n]? with
  | some k => exact .inl ⟨k, rfl, rfl⟩
  | none => exact .inr ⟨rfl, rfl⟩

theorem leaders_grown (g : EGraph L) (n : Node L) : (g.grown n).leaders = insert g.leader.size g.leaders := by
  have hroot : g.root g.leader.size = g.leader.size := by simp [EGraph.root]
  ext k
  rw [Finset.mem_insert, mem_leaders, mem_leaders, size_grown, root_grown]
  constructor
  · rintro ⟨hlt, hk⟩
    exact (Nat.lt_succ_iff_lt_or_eq.1 hlt).elim (fun hlt => .inr ⟨hlt, hk⟩) .inl
  · rintro (rfl | ⟨hlt, hk⟩)
    · exact ⟨Nat.lt_succ_self _, hroot⟩
    · exact ⟨hlt.trans (Nat.lt_succ_self _), hk⟩

omit [Literal L] in
/-- A node is listed once for every place that a class fills in it. -/
theorem getD_foldl_modify (a : Node L × Nat) (parts : List Nat) (uses : Array (Array (Node L × Nat)))
    (hk : k < uses.size) :
    (parts.foldl (fun uses part => uses.modify part (·.push a)) uses).getD k #[] =
      uses.getD k #[] ++ Array.replicate (parts.count k) a := by
  induction parts generalizing uses with
  | nil => simp
  | cons part parts ih =>
      rw [List.foldl_cons, ih _ (by simpa using hk), List.count_cons]
      rcases eq_or_ne part k with rfl | hne
      · have hfirst : (uses.modify part (·.push a)).getD part #[] = (uses.getD part #[]).push a := by
          simp [Array.getD_eq_getD_getElem?, Array.getElem_modify, hk]
        rw [hfirst, ← Array.toList_inj]
        simp [List.replicate_succ]
      · simp [Array.getD_eq_getD_getElem?, Array.getElem?_modify, hne]

omit [Literal L] in
theorem size_foldl_modify (a : Node L × Nat) (parts : List Nat) (uses : Array (Array (Node L × Nat))) :
    (parts.foldl (fun uses part => uses.modify part (·.push a)) uses).size = uses.size := by
  induction parts generalizing uses with
  | nil => rfl
  | cons part parts ih => exact (ih _).trans (Array.size_modify ..)

theorem uses_grown (hk : k < g.uses.size) (n : Node L) :
    (g.grown n).uses.getD k #[] =
      g.uses.getD k #[] ++ Array.replicate (n.parts.count k) (n, g.leader.size) := by
  rw [← getD_foldl_modify _ _ _ hk]
  rcases getD_push (n.parts.foldl (fun uses part => uses.modify part (·.push (n, g.leader.size))) g.uses) #[] #[] k
    with heq | ⟨heq, -⟩
  · exact heq
  · rw [size_foldl_modify] at heq
    omega

theorem uses_grown_of_le (hk : g.uses.size ≤ k) (n : Node L) : (g.grown n).uses.getD k #[] = #[] := by
  have huses : (g.grown n).uses =
    (n.parts.foldl (fun uses part => uses.modify part (·.push (n, g.leader.size))) g.uses).push #[] := rfl
  rw [huses, Array.getD_eq_getD_getElem?, Array.getElem?_push, size_foldl_modify]
  split
  · rfl
  · rw [Array.getElem?_eq_none (by rwa [size_foldl_modify]), Option.getD_none]

theorem mem_uses_grown (h : a ∈ (g.grown n).uses.getD k #[]) : a = (n, g.leader.size) ∨ a ∈ g.uses.getD k #[] := by
  by_cases hk : k < g.uses.size
  · rw [uses_grown hk, Array.mem_append, Array.mem_replicate] at h
    exact h.symm.imp_left And.right
  · rw [uses_grown_of_le (Nat.le_of_not_lt hk)] at h
    simp at h

theorem uses_subset_grown (n : Node L) (h : a ∈ g.uses.getD k #[]) : a ∈ (g.grown n).uses.getD k #[] := by
  by_cases hk : k < g.uses.size
  · rw [uses_grown hk]
    exact Array.mem_append_left _ h
  · simp [Array.getD_eq_getD_getElem?, hk] at h

theorem mem_uses_grown_self (hk : k < g.uses.size) (hn : k ∈ n.parts) :
    (n, g.leader.size) ∈ (g.grown n).uses.getD k #[] := by
  rw [uses_grown hk, Array.mem_append, Array.mem_replicate]
  exact .inr ⟨(List.count_pos_iff.2 hn).ne', rfl⟩

theorem sum_count_le (s : Finset Nat) (parts : List Nat) : ∑ k ∈ s, parts.count k ≤ parts.length := by
  induction parts with
  | nil => simp
  | cons part parts ih =>
      have hpart : ∑ k ∈ s, (if part = k then 1 else 0) ≤ 1 := by
        rw [Finset.sum_ite_eq]
        split <;> omega
      simp only [List.count_cons, beq_iff_eq, Finset.sum_add_distrib, List.length_cons]
      omega

theorem load_grown (h : Coherent g) (n : Node L) : (g.grown n).load ≤ g.load + 2 := by
  have hnew : g.leader.size ∉ g.leaders := fun hmem => (mem_leaders.1 hmem).1.false
  have hlength : n.parts.length ≤ 2 := by cases n <;> simp [Layer.parts]
  have hold : ∑ k ∈ g.leaders, ((g.grown n).uses.getD k #[]).size =
      g.load + ∑ k ∈ g.leaders, n.parts.count k := by
    rw [load, ← Finset.sum_add_distrib]
    refine Finset.sum_congr rfl fun k hk => ?_
    rw [uses_grown (h.uses_size ▸ (mem_leaders.1 hk).1), Array.size_append, Array.size_replicate]
  have hcount := sum_count_le g.leaders n.parts
  rw [load, leaders_grown, Finset.sum_insert hnew, hold, uses_grown_of_le h.uses_size.le, Array.size_empty]
  omega

theorem Coherent.grows_grown (h : Coherent g) (n : Node L) : Grows g (g.grown n) := by
  refine ⟨(size_grown g n).ge.trans' (Nat.le_succ _), fun k => ?_, fun a ha => has_of_mem (Array.mem_push_of_mem _ ha)⟩
  rw [root_grown, root_grown, h.root_root]

variable [PartialEquivBEq L] [LawfulHashable L]

/-- A node that is new goes to the table and to the uses of its parts. -/
theorem Coherent.grown (h : Coherent g) (hparts : ∀ k ∈ n.parts, k ∈ g.leaders) (hnew : g.table[n]? = none) :
    Coherent (g.grown n) := by
  have hgrows := h.grows_grown n
  have hcanonical : g.canonical n = n := Layer.map_eq_self_iff.2 fun k hk => (mem_leaders.1 (hparts k hk)).2
  have hself : (g.grown n).Has (n, g.leader.size) := has_of_mem Array.mem_push_self
  have hlt : g.leader.size < (g.grown n).leader.size := by rw [size_grown]; exact Nat.lt_succ_self _
  constructor
  case values_size => simpa [EGraph.grown] using h.values_size
  case uses_size => simpa [EGraph.grown, size_foldl_modify] using h.uses_size
  case root_lt =>
    intro k hk
    rw [size_grown] at hk ⊢
    rw [root_grown]
    rcases Nat.lt_succ_iff_lt_or_eq.1 hk with hk | rfl
    · exact (h.root_lt k hk).trans (Nat.lt_succ_self _)
    · simp [EGraph.root]
  case root_root =>
    intro k
    rw [root_grown, root_grown]
    exact h.root_root k
  case nodes =>
    intro a ha
    rcases Array.mem_push.1 ha with ha | rfl
    · exact ⟨(h.nodes a ha).1.trans hlt, fun k hk => ((h.nodes a ha).2 k hk).trans hlt⟩
    · exact ⟨hlt, fun k hk => (mem_leaders.1 (hparts k hk)).1.trans hlt⟩
  case table =>
    intro m k hk hm
    have hk : (g.table.insert n g.leader.size)[m]? = some k := hk
    rw [Std.HashMap.getElem?_insert] at hk
    split at hk
    · next heq =>
      obtain rfl := Option.some.inj hk
      exact hself.congr ⟨Layer.beq_map _ heq, rfl⟩
    · rw [canonical_grown] at hm
      exact (h.table m k hk hm).mono hgrows
  case uses =>
    intro k a ha
    rcases mem_uses_grown ha with rfl | ha
    · exact hself
    · exact (h.uses k a ha).mono hgrows
  case stale => exact fun a ha => (h.stale a ha).mono hgrows
  case awaiting => exact fun a ha => (h.awaiting a ha).mono hgrows
  case listed =>
    intro a ha k hk
    rw [canonical_grown] at hk
    rcases Array.mem_push.1 ha with ha | rfl
    · obtain ⟨b, hb, hba⟩ := h.listed a ha k hk
      exact ⟨b, uses_subset_grown n hb, hba.mono hgrows⟩
    · have hk : k ∈ n.parts := hcanonical ▸ hk
      exact ⟨_, mem_uses_grown_self (h.uses_size ▸ (mem_leaders.1 (hparts k hk)).1) hk, .refl _ _⟩
  case known =>
    intro a ha
    have htable : (g.grown n).table = g.table.insert n g.leader.size := rfl
    rw [canonical_grown, htable, Std.HashMap.getElem?_insert]
    rcases Array.mem_push.1 ha with ha | rfl
    · rcases h.found ha with ⟨k, hk, heq⟩ | ⟨b, hb, hba⟩
      · -- the new node is not equal to one that the table has
        have hne : (n == g.canonical a.1) = false := by
          by_contra hbeq
          rw [← Std.HashMap.getElem?_congr (by simpa using hbeq), hnew] at hk
          cases hk
        refine .inl ⟨k, by simpa [hne] using hk, .inl ?_⟩
        rw [root_grown, root_grown, heq]
      · exact .inr ⟨b, hb, hba.mono hgrows⟩
    · exact .inl ⟨g.leader.size, by rw [hcanonical, if_pos BEq.rfl], .inl rfl⟩
  case load_le =>
    have hload := load_grown h n
    have hle := h.load_le
    rw [size_grown]
    omega
  case founded =>
    intro k hk
    rw [size_grown] at hk
    rcases Nat.lt_succ_iff_lt_or_eq.1 hk with hk | rfl
    · exact h.founded_mono hgrows hk
    · exact ⟨n, hself, fun l hl => (mem_leaders.1 (hparts l hl)).1⟩

theorem Coherent.enter (h : Coherent g) (hparts : ∀ k ∈ n.parts, k < g.leader.size) :
    Coherent (g.enter n).2 ∧ Grows g (g.enter n).2 ∧ (g.enter n).2.Has (n, (g.enter n).1) := by
  obtain ⟨k, hk, heq⟩ | ⟨hnone, heq⟩ := enter_cases g n <;> rw [heq]
  · have hhas := h.table _ k hk (h.grows.canonical n)
    exact ⟨h, h.grows, hhas.congr ⟨(h.alike_canonical n k).1, (h.root_root k).symm⟩⟩
  · have hcoherent := h.grown (h.parts_canonical hparts) hnone
    have hgrows := h.grows_grown (g.canonical n)
    refine ⟨hcoherent, hgrows, ?_⟩
    exact (has_of_mem Array.mem_push_self).congr ((h.alike_canonical n _).mono hgrows)

end Enter

section Relocate

def reentered (g : EGraph L) (a : Node L × Nat) (rest : List (Node L × Nat)) : EGraph L :=
  { g with stale := rest, table := g.table.insert (g.canonical a.1) a.2 }

theorem relocate_eq (g : EGraph L) (a : Node L × Nat) (rest : List (Node L × Nat)) :
    relocate { g with stale := rest } a =
      (g.reentered a rest).union ((g.table[g.canonical a.1]?).getD a.2) a.2 := by
  have hcanonical : ({ g with stale := rest } : EGraph L).canonical a.1 = g.canonical a.1 := rfl
  unfold EGraph.relocate
  dsimp only
  rw [hcanonical]
  cases hj : g.table[g.canonical a.1]? with
  | some j => rfl
  | none => exact (union_of_root_eq rfl).symm

variable [PartialEquivBEq L] [LawfulHashable L]

/-- The table is right about a node that has been entered again, but may now be wrong about the class
that such a node had before. -/
theorem Coherent.reentered (h : Coherent g) {rest : List (Node L × Nat)} (hstale : g.stale = a :: rest) :
    CoherentUpTo ((g.table[g.canonical a.1]?).getD a.2) a.2 (g.reentered a rest) := by
  obtain ⟨n, i⟩ := a
  have hentry : g.Has (n, i) := h.stale _ (hstale ▸ List.mem_cons_self)
  refine { h with table := fun m k hk hm => ?_, stale := fun a ha => ?_, known := fun a ha => ?_ }
  · have hk : (g.table.insert (g.canonical n) i)[m]? = some k := hk
    rw [Std.HashMap.getElem?_insert] at hk
    split at hk
    · next heq =>
      obtain rfl := Option.some.inj hk
      have hm : g.canonical m = m := hm
      exact hentry.congr ⟨by rw [hm]; exact heq, rfl⟩
    · exact h.table m k hk hm
  · exact h.stale a (hstale ▸ List.mem_cons_of_mem _ ha)
  · have hlookup (hbeq : (g.canonical n == g.canonical a.1) = true) :
        (g.table.insert (g.canonical n) i)[g.canonical a.1]? = some i := by
      rw [Std.HashMap.getElem?_insert, if_pos hbeq]
    rcases h.found ha with ⟨k, hk, heq⟩ | ⟨b, hb, hba⟩
    · by_cases hbeq : (g.canonical n == g.canonical a.1) = true
      · have hbefore : (g.table[g.canonical n]?).getD i = k := by
          rw [Std.HashMap.getElem?_congr hbeq, hk, Option.getD_some]
        exact .inl ⟨i, hlookup hbeq, .inr ⟨rfl, by rw [hbefore]; exact heq.symm⟩⟩
      · refine .inl ⟨k, ?_, .inl heq⟩
        exact (Std.HashMap.getElem?_insert.trans (if_neg hbeq)).trans hk
    · rw [hstale] at hb
      rcases List.mem_cons.1 hb with rfl | hb
      · exact .inl ⟨i, hlookup hba.1, .inl hba.2⟩
      · exact .inr ⟨b, hb, hba⟩

end Relocate

section Distinct

variable [PartialEquivBEq L] [LawfulHashable L]

theorem exists_mem_distinct (hb : b ∈ g.nodes) : ∃ a ∈ g.distinct, (a.1 == g.canonical b.1) = true := by
  have hnext (state : Array (Node L × Nat) × Std.HashSet (Node L)) (entry : Node L × Nat)
      (hstate : ∀ n, state.2.contains n = true → ∃ a ∈ state.1, (a.1 == n) = true) (n : Node L)
      (hn : (g.keepNext state entry).2.contains n = true) : ∃ a ∈ (g.keepNext state entry).1, (a.1 == n) = true := by
    unfold keepNext at hn ⊢
    split
    · next hmet => exact hstate n (by rwa [if_pos hmet] at hn)
    · next hmet =>
      rw [if_neg hmet, Std.HashSet.contains_insert, Bool.or_eq_true] at hn
      rcases hn with hn | hn
      · exact ⟨_, Array.mem_push_self, hn⟩
      · obtain ⟨a, ha, heq⟩ := hstate n hn
        exact ⟨a, Array.mem_push_of_mem _ ha, heq⟩
  have hmet (state : Array (Node L × Nat) × Std.HashSet (Node L)) (entry : Node L × Nat) (n : Node L)
      (hn : state.2.contains n = true ∨ (g.canonical entry.1 == n) = true) :
      (g.keepNext state entry).2.contains n = true := by
    unfold keepNext
    split
    · next hmet => exact hn.elim id fun heq => (Std.HashSet.contains_congr heq).symm.trans hmet
    · rw [Std.HashSet.contains_insert, Bool.or_eq_true]
      exact hn.symm
  have hfold (entries : List (Node L × Nat)) (state : Array (Node L × Nat) × Std.HashSet (Node L))
      (hstate : ∀ n, state.2.contains n = true → ∃ a ∈ state.1, (a.1 == n) = true) (n : Node L)
      (hn : state.2.contains n = true ∨ ∃ b ∈ entries, (g.canonical b.1 == n) = true) :
      ∃ a ∈ (entries.foldl g.keepNext state).1, (a.1 == n) = true := by
    induction entries generalizing state with
    | nil => exact hstate n (hn.elim id (by simp))
    | cons entry entries ih =>
        refine ih _ (hnext state entry hstate) ?_
        rcases hn with hn | ⟨b, hb, heq⟩
        · exact .inl (hmet state entry n (.inl hn))
        · rcases List.mem_cons.1 hb with rfl | hb
          · exact .inl (hmet state b n (.inr heq))
          · exact .inr ⟨b, hb, heq⟩
  obtain ⟨a, ha, heq⟩ := hfold g.nodes.toList (#[], Std.HashSet.emptyWithCapacity g.nodes.size) (by simp) _
    (.inr ⟨b, by simpa using hb, BEq.rfl⟩)
  refine ⟨a, ?_, heq⟩
  rwa [distinct, mem_arrange, kept, ← Array.foldl_toList]

/-- Where nothing is stale, equal nodes are in one class, so keeping one of them is enough. -/
theorem Coherent.exists_alike_distinct (h : Coherent g) (hstale : g.stale = []) (hb : b ∈ g.nodes) :
    ∃ a ∈ g.distinct, g.Alike a b := by
  have hclass (c : Node L × Nat) (hc : c ∈ g.nodes) :
      ∃ k, g.table[g.canonical c.1]? = some k ∧ g.root k = g.root c.2 :=
    (h.found hc).resolve_right (by simp [hstale])
  obtain ⟨a, ha, heq⟩ := exists_mem_distinct hb
  obtain ⟨c, hc, rfl⟩ := mem_distinct ha
  obtain ⟨k, hk, hkb⟩ := hclass b hb
  obtain ⟨l, hl, hlc⟩ := hclass c hc
  obtain rfl : l = k := by
    rw [Std.HashMap.getElem?_congr heq, hk] at hl
    exact (Option.some.inj hl).symm
  exact ⟨_, ha, (h.alike_current c).trans ⟨heq, hlc.symm.trans hkb⟩⟩

theorem Coherent.distinct (h : Coherent g) (hstale : g.stale = []) :
    Coherent { g with nodes := g.distinct } ∧ Grows g { g with nodes := g.distinct } := by
  have hgrows : Grows g { g with nodes := g.distinct } :=
    ⟨le_rfl, h.root_root, fun a ha => h.exists_alike_distinct hstale ha⟩
  refine ⟨?_, hgrows⟩
  refine { h with
    nodes := fun a ha => ?_
    table := fun n k hk hn => (h.table n k hk hn).mono hgrows
    uses := fun k a ha => (h.uses k a ha).mono hgrows
    stale := fun a ha => (h.stale a ha).mono hgrows
    awaiting := fun a ha => (h.awaiting a ha).mono hgrows
    listed := fun a ha k hk => ?_
    known := fun a ha => ?_
    founded := fun k hk => h.founded_mono hgrows hk }
  · obtain ⟨b, hb, rfl⟩ := mem_distinct ha
    obtain ⟨hlt, hparts⟩ := h.nodes b hb
    exact ⟨h.root_lt _ hlt, fun k hk => (mem_leaders.1 (h.parts_canonical hparts k hk)).1⟩
  · obtain ⟨b, hb, rfl⟩ := mem_distinct ha
    have hk : k ∈ (g.canonical b.1).parts := h.grows.canonical b.1 ▸ hk
    obtain ⟨c, hc, hcb⟩ := h.listed b hb k hk
    exact ⟨c, hc, hcb.trans (h.alike_current b).symm⟩
  · obtain ⟨b, hb, rfl⟩ := mem_distinct ha
    rcases h.found hb with ⟨k, hk, heq⟩ | ⟨c, hc, hcb⟩
    · exact .inl ⟨k, (congrArg (g.table[·]?) (h.grows.canonical b.1)).trans hk, .inl (heq.trans (h.root_root _).symm)⟩
    · exact .inr ⟨c, hc, hcb.trans (h.alike_current b).symm⟩

end Distinct

end EGraph

end FlowShader
