import FlowShader.Coordinates.Transform
import FlowShader.Proofs.Coordinates.Atlas
import FlowShader.Proofs.Lowering.Exact

namespace FlowShader

theorem Names.length_axes {n : Nat} (hn : n ≤ 4) : (Names.axes n).length = n := by
  simp only [Names.axes, List.length_take, List.length_cons, List.length_nil]
  omega

namespace Coordinates.Frame

variable {L : Type} [Literal L]

/-- What acceptance of a record promises. -/
structure Checked (s : Frame L) : Prop where
  two_le : 2 ≤ s.dimensions
  le_four : s.dimensions ≤ 4
  coordinates : s.coordinates.length = s.dimensions
  forward : ∀ f ∈ s.forward, f.Over s.axes
  atlas : s.atlas = .generate s.axes s.forward
  labels : ∀ v ∈ s.labels, isLabel v = true
  nodup : s.labels.Nodup
  inverse (es : List (Expr L)) : s.inverse = some es → es.length = s.dimensions ∧ ∀ e ∈ es, e.Over s.labels

theorem readFormula_over {part : Part} {allowed : List String} {index : Nat} {source : String} {e : Expr L}
    (h : readFormula part allowed index source = .ok e) : e.Over allowed := by
  unfold readFormula at h
  split at h
  · cases h
  · split at h
    · cases h
    · next hfind =>
        obtain rfl := Except.ok.inj h
        intro v hv
        have hallowed := List.find?_eq_none.1 hfind v (Expr.mem_sortNames.2 hv)
        simpa using hallowed

theorem readFormulas_over {part : Part} {allowed sources : List String} {es : List (Expr L)}
    (h : readFormulas part allowed sources = .ok es) :
    es.length = sources.length ∧ ∀ e ∈ es, e.Over allowed := by
  have hall := forall₂_of_mapM_eq_ok h
  refine ⟨by simpa using hall.length_eq.symm, fun e he => ?_⟩
  obtain ⟨_, _, hread⟩ := exists_of_mem_forall₂ hall he
  exact readFormula_over hread

theorem length_eq_of_checkCount {expected found : Nat} {part : Part} {u : Unit}
    (h : checkCount expected part found = .ok u) : found = expected := by
  unfold checkCount at h
  split at h
  · assumption
  · cases h

theorem forall_isLabel_of_checkLabels {seen labels : List String} {u : Unit} (h : checkLabels seen labels = .ok u) :
    (∀ v ∈ labels, isLabel v = true) ∧ labels.Nodup ∧ ∀ v ∈ labels, v ∉ seen := by
  induction labels generalizing seen with
  | nil => exact ⟨nofun, List.nodup_nil, nofun⟩
  | cons label rest ih =>
      rw [checkLabels] at h
      split at h
      · cases h
      next hlabel =>
      split at h
      · cases h
      next hnew =>
      obtain ⟨hlabels, hnodup, hseen⟩ := ih h
      have hlabel : isLabel label = true := by simpa using hlabel
      have hnew : label ∉ seen := by simpa using hnew
      refine ⟨List.forall_mem_cons.2 ⟨hlabel, hlabels⟩, ?_, List.forall_mem_cons.2 ⟨hnew, fun v hv hmem => ?_⟩⟩
      · exact List.nodup_cons.2 ⟨fun hmem => hseen label hmem List.mem_cons_self, hnodup⟩
      · exact hseen v hv (List.mem_cons_of_mem _ hmem)

/-- The label of a coordinate is the same with and without a display label. -/
theorem map_label_display (cs : List Coordinate) :
    (cs.map fun c => if c.display.isEmpty then ⟨c.label, c.label⟩ else c).map Coordinate.label =
      cs.map Coordinate.label := by
  rw [List.map_map]
  refine List.map_congr_left fun c _ => ?_
  change Coordinate.label (if c.display.isEmpty then ⟨c.label, c.label⟩ else c) = c.label
  split <;> rfl

/-- What is read of an accepted record. -/
structure OfRecord (r : Record) (s : Frame L) : Prop where
  two_le : 2 ≤ r.dimensions
  le_four : r.dimensions ≤ 4
  coordinates : r.coordinates.length = r.dimensions
  sources : r.forward.length = r.dimensions
  checked : ∃ u, checkLabels [] (r.coordinates.map (·.label)) = .ok u
  forward : readFormulas .forward (Names.axes r.dimensions) r.forward = .ok s.forward
  inverse (es : List (Expr L)) : s.inverse = some es → ∃ sources : List String, r.inverse = some sources ∧
    sources.length = r.dimensions ∧ readFormulas .inverse (r.coordinates.map (·.label)) sources = .ok es
  labels : s.labels = r.coordinates.map (·.label)
  atlas : s.atlas = .generate (Names.axes r.dimensions) s.forward
  display : s.coordinates = r.coordinates.map fun c => if c.display.isEmpty then ⟨c.label, c.label⟩ else c

theorem exists_of_ofRecord {r : Record} {s : Frame L} (h : ofRecord r = .ok s) : OfRecord r s := by
  unfold ofRecord at h
  dsimp only at h
  split at h
  · cases h
  next hsize =>
  obtain ⟨_, hcoordinates, h⟩ := exists_of_bind_eq_ok h
  obtain ⟨_, hsources, h⟩ := exists_of_bind_eq_ok h
  have hbounds : 2 ≤ r.dimensions ∧ r.dimensions ≤ 4 := by
    rw [Bool.or_eq_true, decide_eq_true_eq, decide_eq_true_eq] at hsize
    omega
  have hcoordinates := length_eq_of_checkCount hcoordinates
  have hsources := length_eq_of_checkCount hsources
  cases hinverse : r.inverse with
  | none =>
      simp only [hinverse] at h
      obtain ⟨u, hlabels, h⟩ := exists_of_bind_eq_ok h
      obtain ⟨forward, hforward, h⟩ := exists_of_bind_eq_ok h
      obtain rfl := Except.ok.inj h
      exact ⟨hbounds.1, hbounds.2, hcoordinates, hsources, ⟨u, hlabels⟩, hforward, nofun, map_label_display _, rfl, rfl⟩
  | some sources =>
      simp only [hinverse] at h
      obtain ⟨_, hcount, h⟩ := exists_of_bind_eq_ok h
      obtain ⟨u, hlabels, h⟩ := exists_of_bind_eq_ok h
      obtain ⟨forward, hforward, h⟩ := exists_of_bind_eq_ok h
      obtain ⟨inverse, hread, h⟩ := exists_of_bind_eq_ok h
      obtain rfl := Except.ok.inj h
      refine ⟨hbounds.1, hbounds.2, hcoordinates, hsources, ⟨u, hlabels⟩, hforward, fun es hes => ?_,
        map_label_display _, rfl, rfl⟩
      obtain ⟨es', hes', hsome⟩ := exists_of_bind_eq_ok hread
      obtain rfl := Except.ok.inj hsome
      obtain rfl := Option.some.inj hes
      exact ⟨sources, hinverse, length_eq_of_checkCount hcount, hes'⟩

theorem checked_of_ofRecord {r : Record} {s : Frame L} (h : ofRecord r = .ok s) : s.Checked := by
  have h := exists_of_ofRecord h
  obtain ⟨hforward, hover⟩ := readFormulas_over h.forward
  obtain ⟨_, hchecked⟩ := h.checked
  obtain ⟨hlabels, hnodup, -⟩ := forall_isLabel_of_checkLabels hchecked
  have hdimensions : s.dimensions = r.dimensions := hforward.trans h.sources
  have hcoordinates : s.coordinates.length = r.coordinates.length := by
    simpa [labels] using congrArg List.length h.labels
  refine ⟨hdimensions ▸ h.two_le, hdimensions ▸ h.le_four, ?_, ?_, ?_, ?_, ?_, fun es hes => ?_⟩
  · rw [hcoordinates, h.coordinates, hdimensions]
  · rwa [axes, hdimensions]
  · rw [axes, hdimensions, h.atlas]
  · rwa [h.labels]
  · rwa [h.labels]
  · obtain ⟨sources, -, hsources, hread⟩ := h.inverse es hes
    obtain ⟨hlength, hover⟩ := readFormulas_over hread
    rw [hdimensions, h.labels]
    exact ⟨hlength.trans hsources, hover⟩

end Coordinates.Frame

section Keys

variable {L : Type} [Literal L] [Literal.Legible L]

theorem Expr.text_ne_nil {e : Expr L} (he : e.Legible) : e.text.toList ≠ [] := by
  rw [text_toList, Ne, List.append_eq_nil_iff]
  rintro ⟨hlead, htrail⟩
  rcases e.trail_eq with ⟨hw, -⟩ | ⟨-, t, ht⟩
  · exact lead_ne_nil he hw hlead
  · cases ht.symm.trans htrail

def Expr.keyTail (fs : List (Expr L)) : List Char := fs.flatMap fun f => ';' :: f.text.toList

omit [Literal.Legible L] in
theorem Expr.toList_intercalate_text (f : Expr L) (fs : List (Expr L)) :
    (";".intercalate ((f :: fs).map text)).toList = f.text.toList ++ keyTail fs := by
  induction fs generalizing f with
  | nil => simp [keyTail]
  | cons g fs ih =>
      rw [List.map_cons, List.map_cons, String.intercalate_cons_cons, ← List.map_cons, String.toList_append,
        String.toList_append, ih]
      simp [keyTail]

omit [Literal.Legible L] in
theorem Expr.ends_keyTail (fs : List (Expr L)) : Ends (keyTail fs) := by
  cases fs with
  | nil => exact .nil
  | cons f fs => exact .cons (by decide) (by decide)

theorem Expr.keyTail_inj {fs gs : List (Expr L)} (hfs : ∀ f ∈ fs, f.Legible) (hgs : ∀ g ∈ gs, g.Legible)
    (h : keyTail fs = keyTail gs) : fs = gs := by
  induction fs generalizing gs with
  | nil =>
      cases gs with
      | nil => rfl
      | cons g gs => cases h
  | cons f fs ih =>
      cases gs with
      | nil => cases h
      | cons g gs =>
          obtain ⟨hf, hfs'⟩ := List.forall_mem_cons.1 hfs
          obtain ⟨hg, hgs'⟩ := List.forall_mem_cons.1 hgs
          obtain ⟨rfl, hrest⟩ :=
            text_append_inj hf hg (ends_keyTail fs) (ends_keyTail gs) (List.cons.inj h).2
          rw [ih hfs' hgs' hrest]

/-- Formulas can be read off their texts with semicolons between them. -/
theorem Expr.intercalate_text_inj {fs gs : List (Expr L)} (hfs : ∀ f ∈ fs, f.Legible) (hgs : ∀ g ∈ gs, g.Legible)
    (h : ";".intercalate (fs.map text) = ";".intercalate (gs.map text)) : fs = gs := by
  have hne {f : Expr L} {fs : List (Expr L)} (hf : f.Legible) : (";".intercalate ((f :: fs).map text)).toList ≠ [] := by
    rw [toList_intercalate_text]
    exact List.append_ne_nil_of_left_ne_nil (text_ne_nil hf) _
  rw [← String.toList_inj] at h
  cases fs with
  | nil =>
      cases gs with
      | nil => rfl
      | cons g gs => exact absurd h.symm (hne (hgs g List.mem_cons_self))
  | cons f fs =>
      cases gs with
      | nil => exact absurd h (hne (hfs f List.mem_cons_self))
      | cons g gs =>
          refine keyTail_inj hfs hgs ?_
          rw [toList_intercalate_text, toList_intercalate_text] at h
          exact congrArg (';' :: ·) h

end Keys

section Table

variable {α β : Type} (key : α → String) (value : α → β)

def tabulate (found : List (String × β)) (x : α) : List (String × β) :=
  if found.any (·.1 == key x) then found else found ++ [(key x, value x)]

theorem mem_foldl_tabulate {xs : List α} {found : List (String × β)} {p : String × β}
    (h : p ∈ xs.foldl (tabulate key value) found) : p ∈ found ∨ ∃ x ∈ xs, p = (key x, value x) := by
  induction xs generalizing found with
  | nil => exact .inl h
  | cons x xs ih =>
      rcases ih h with h | ⟨y, hy, rfl⟩
      · unfold tabulate at h
        split at h
        · exact .inl h
        · rcases List.mem_append.1 h with h | h
          · exact .inl h
          · exact .inr ⟨x, List.mem_cons_self, List.mem_singleton.1 h⟩
      · exact .inr ⟨y, List.mem_cons_of_mem _ hy, rfl⟩

theorem exists_mem_foldl_tabulate {xs : List α} (found : List (String × β)) {k : String}
    (h : (∃ p ∈ found, p.1 = k) ∨ ∃ x ∈ xs, key x = k) :
    ∃ p ∈ xs.foldl (tabulate key value) found, p.1 = k := by
  induction xs generalizing found with
  | nil => exact h.resolve_right nofun
  | cons x xs ih =>
      have hkey : (∃ p ∈ found, p.1 = k) ∨ key x = k → ∃ p ∈ tabulate key value found x, p.1 = k := by
        unfold tabulate
        rintro (⟨p, hp, hpk⟩ | rfl)
        · split
          · exact ⟨p, hp, hpk⟩
          · exact ⟨p, List.mem_append_left _ hp, hpk⟩
        · split
          · next hany =>
              obtain ⟨p, hp, hpk⟩ := List.any_eq_true.1 hany
              exact ⟨p, hp, eq_of_beq hpk⟩
          · exact ⟨_, List.mem_append_right _ List.mem_cons_self, rfl⟩
      apply ih
      rcases h with h | ⟨y, hy, hyk⟩
      · exact .inl (hkey (.inl h))
      · rcases List.mem_cons.1 hy with rfl | hy
        · exact .inl (hkey (.inr hyk))
        · exact .inr ⟨y, hy, hyk⟩

theorem exists_find?_tabulate {xs : List α} {x : α} (hx : x ∈ xs) :
    ∃ y ∈ xs, key y = key x ∧
      ((xs.foldl (tabulate key value) []).find? (·.1 == key x)).map (·.2) = some (value y) := by
  obtain ⟨p, hp, hpk⟩ := exists_mem_foldl_tabulate key value [] (.inr ⟨x, hx, rfl⟩)
  cases hfind : (xs.foldl (tabulate key value) []).find? (·.1 == key x) with
  | none => exact absurd (beq_iff_eq.2 hpk) (List.find?_eq_none.1 hfind p hp)
  | some q =>
      have hfound := List.find?_some hfind
      obtain ⟨y, hy, rfl⟩ :=
        (mem_foldl_tabulate key value (List.mem_of_find?_eq_some hfind)).resolve_left List.not_mem_nil
      exact ⟨y, hy, eq_of_beq hfound, rfl⟩

/-- Where equal keys have equal values, every key finds its value. -/
theorem find?_tabulate {xs : List α} (h : ∀ x ∈ xs, ∀ y ∈ xs, key x = key y → value x = value y) {x : α}
    (hx : x ∈ xs) :
    ((xs.foldl (tabulate key value) []).find? (·.1 == key x)).map (·.2) = some (value x) := by
  obtain ⟨y, hy, hkey, hfind⟩ := exists_find?_tabulate key value hx
  rw [hfind, h y hy x hx hkey]

end Table

namespace Coordinates.Frame

variable {L : Type} [Literal L] {s : Frame L}

theorem Checked.length_axes (h : s.Checked) : s.axes.length = s.dimensions := Names.length_axes h.le_four

theorem Checked.length_labels (h : s.Checked) : s.labels.length = s.dimensions :=
  (List.length_map _).trans h.coordinates

theorem Checked.getElem_of_isCartesian (hs : s.Checked) (h : s.isCartesian = true) {i : Nat}
    (haxes : i < s.axes.length) (hforward : i < s.forward.length) (hlabels : i < s.labels.length) :
    s.labels[i] = s.axes[i] ∧ (s.forward[i] == .var s.axes[i]) = true := by
  have hcoordinates : i < s.coordinates.length := hs.coordinates ▸ hforward
  have hzip : i < ((s.axes.zip s.forward).zip s.coordinates).length := by
    simp only [List.length_zip]
    omega
  have hall := List.all_eq_true.1 h _ (List.getElem_mem hzip)
  simp only [List.getElem_zip, Bool.and_eq_true] at hall
  refine ⟨?_, hall.2⟩
  simp only [Frame.labels, List.getElem_map]
  exact eq_of_beq hall.1

theorem Checked.labels_of_isCartesian (hs : s.Checked) (h : s.isCartesian = true) : s.labels = s.axes := by
  have hlength : s.labels.length = s.axes.length := hs.length_labels.trans hs.length_axes.symm
  refine List.ext_getElem hlength fun i hi hi' => ?_
  have hforward : i < s.forward.length := Nat.lt_of_lt_of_eq hi' hs.length_axes
  exact (hs.getElem_of_isCartesian h hi' hforward hi).1

theorem Checked.forward_of_isCartesian (hs : s.Checked) (h : s.isCartesian = true) :
    s.forward = s.axes.map .var := by
  have hvar {f : Expr L} {x : String} (hf : (f == .var x) = true) : f = .var x := by
    cases f with
    | var y => rw [eq_of_beq (show (y == x) = true from hf)]
    | literal | constant | call | call₂ | op => cases hf
  have hlength : s.forward.length = (s.axes.map Expr.var : List (Expr L)).length := by
    rw [List.length_map, hs.length_axes]
    rfl
  refine List.ext_getElem hlength fun i hi hi' => ?_
  rw [List.length_map] at hi'
  have hlabels : i < s.labels.length := Nat.lt_of_lt_of_eq hi hs.length_labels.symm
  rw [List.getElem_map, hvar (hs.getElem_of_isCartesian h hi' hi hlabels).2]

theorem nodup_axes (n : Nat) : (Names.axes n).Nodup :=
  List.Nodup.sublist (List.take_sublist n _) (by decide)

theorem Checked.axes_pos (h : s.Checked) : 0 < s.axes.length := by
  rw [h.length_axes]
  exact Nat.lt_of_lt_of_le Nat.two_pos h.two_le

theorem Checked.charts_over (h : s.Checked) : ∀ c ∈ s.atlas.charts, c.Over s.axes := by
  rw [h.atlas]
  exact Atlas.generate_over h.axes_pos h.length_axes.symm h.forward

theorem isIdentifier_of_mem_axes {n : Nat} : ∀ v ∈ Names.axes n, Token.isIdentifier v = true := by
  intro v hv
  have hall : ∀ w ∈ ["x", "y", "z", "w", "u", "v"], Token.isIdentifier w = true := by decide
  exact hall v (List.mem_of_mem_take hv)

variable [LawfulBEq L] [Literal.Legible L]

theorem Checked.invertedCharts_eq (h : s.Checked) (hfinite : ∀ x : L, Literal.isFinite x = true) :
    s.invertedCharts =
      (s.atlas.charts.map fun c => (c, (Matrix.jacobian c.forward s.axes).inverse)).zipIdx := by
  have hlegible {c : Chart L} (hc : c ∈ s.atlas.charts) : ∀ f ∈ c.forward, f.Legible :=
    fun f hf => ((h.charts_over c hc).forward f hf).legible hfinite isIdentifier_of_mem_axes
  have hkey : ∀ c ∈ s.atlas.charts, ∀ d ∈ s.atlas.charts, c.key = d.key →
      (Matrix.jacobian c.forward s.axes).inverse = (Matrix.jacobian d.forward s.axes).inverse := by
    intro c hc d hd hcd
    rw [Expr.intercalate_text_inj (hlegible hc) (hlegible hd) hcd]
  refine congrArg List.zipIdx (List.map_congr_left fun c hc => ?_)
  have hfind := find?_tabulate Chart.key (fun c => (Matrix.jacobian c.forward s.axes).inverse) hkey hc
  exact congrArg (fun inverse => (c, inverse.getD (.error .singular))) hfind

end Coordinates.Frame

end FlowShader
