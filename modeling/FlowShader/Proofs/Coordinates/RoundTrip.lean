import FlowShader.Proofs.Coordinates.Frame
import FlowShader.Proofs.Expr.RoundTrip

namespace FlowShader.Coordinates.Frame

def FiniteNumbers (source : String) : Prop :=
  ∀ t ∈ (Scan.ofString source).tokens, ∀ d : Decimal, t.token = .number d → d.toFloat.isFinite = true

section Sources

variable {source : String} {e : Expr Float}

theorem positive_of_finiteNumbers (h : Expr.parse source = .ok e) (hfinite : FiniteNumbers source) {x : Float}
    (hx : .literal x ∈ e.leaves) : Double.exponentBits x ≠ 2047 ∧ Double.sign x = .positive := by
  refine (Expr.literal_cases_of_parse h hx).resolve_right fun hinf => ?_
  have hisFinite : x.isFinite = true := by
    rcases Expr.literal_of_parse h hx with rfl | ⟨t, ht, d, hd, rfl⟩
    · rfl
    · exact hfinite t ht d hd
  rw [hinf] at hisFinite
  exact absurd hisFinite (by decide)

theorem parse_text (h : Expr.parse source = .ok e) (hfinite : FiniteNumbers source) : Expr.parse e.text = .ok e := by
  have hpositive (x : Float) (hx : .literal x ∈ e.leaves) := positive_of_finiteNumbers h hfinite hx
  have hspells := Expr.text_spells (fun x hx => Double.unsigned_of_positive (hpositive x hx).1 (hpositive x hx).2)
    fun v hv => Expr.var_of_parse h hv
  rw [Expr.plain_eq fun x hx => (Double.plain_of_positive (hpositive x hx).1 (hpositive x hx).2).2] at hspells
  exact hspells.parse

theorem readFormula_text {part : Part} {allowed : List String} {index : Nat}
    (h : readFormula part allowed index source = .ok e) (hfinite : FiniteNumbers source) :
    readFormula part allowed index e.text = .ok e := by
  unfold readFormula at h ⊢
  split at h
  · cases h
  · next hparse =>
    have hparse' : Expr.parse e.text = .ok e := by
      split at h
      · cases h
      · obtain rfl := Except.ok.inj h
        exact parse_text hparse hfinite
    split at h
    · cases h
    · next hfind =>
      obtain rfl := Except.ok.inj h
      rw [hparse']
      simp only [hfind]

theorem readFormulas_text {part : Part} {allowed sources : List String} {es : List (Expr Float)}
    (h : readFormulas part allowed sources = .ok es) (hfinite : ∀ source ∈ sources, FiniteNumbers source) :
    readFormulas part allowed (es.map Expr.text) = .ok es := by
  unfold readFormulas at h ⊢
  have hread := forall₂_of_mapM_eq_ok h
  clear h
  apply mapM_eq_ok_of
  generalize 0 = start at *
  induction sources generalizing es start with
  | nil =>
      cases hread
      exact .nil
  | cons source sources ih =>
      obtain ⟨hsource, hsources⟩ := List.forall_mem_cons.1 hfinite
      rw [List.zipIdx_cons] at hread
      cases hread with
      | cons he hread => exact .cons (readFormula_text he hsource) (ih hsources _ hread)

end Sources

section Records

variable {r : Record} {s : Frame Float}

theorem display_ne_empty (h : OfRecord r s) : ∀ c ∈ s.coordinates, c.display.isEmpty = false := by
  obtain ⟨_, hchecked⟩ := h.checked
  have hlabels := (forall_isLabel_of_checkLabels hchecked).1
  intro c hc
  rw [h.display, List.mem_map] at hc
  obtain ⟨c, hc, rfl⟩ := hc
  have hlabel := hlabels c.label (List.mem_map_of_mem hc)
  split
  · unfold isLabel at hlabel
    rw [String.isEmpty_eq_false_iff]
    intro hempty
    have hempty : c.label = "" := hempty
    simp [hempty] at hlabel
  · next hdisplay => simpa using hdisplay

theorem map_display (h : OfRecord r s) :
    (s.coordinates.map fun c => if c.display.isEmpty then ⟨c.label, c.label⟩ else c) = s.coordinates := by
  conv_rhs => rw [← List.map_id s.coordinates]
  refine List.map_congr_left fun c hc => ?_
  rw [display_ne_empty h c hc]
  rfl

theorem ofRecord_toRecord (h : ofRecord r = .ok s) (hforward : ∀ source ∈ r.forward, FiniteNumbers source)
    (hinverse : ∀ sources ∈ r.inverse, ∀ source ∈ sources, FiniteNumbers source) :
    ofRecord s.toRecord = .ok s := by
  have hs := checked_of_ofRecord h
  have h := exists_of_ofRecord h
  have hdimensions : s.dimensions = r.dimensions := (readFormulas_over h.forward).1.trans h.sources
  have hbounds : (decide (s.dimensions < 2) || decide (4 < s.dimensions)) = false := by
    have htwo := hs.two_le
    have hfour := hs.le_four
    simp only [Bool.or_eq_false_iff, decide_eq_false_iff_not]
    omega
  have hcount (part : Part) {n : Nat} (hn : n = s.dimensions) : checkCount s.dimensions part n = .ok () := if_pos hn
  have hlabels : checkLabels [] (s.coordinates.map (·.label)) = .ok () := by
    obtain ⟨u, hu⟩ := h.checked
    rw [← h.labels] at hu
    exact hu
  have hread : readFormulas .forward (Names.axes s.dimensions) (s.forward.map Expr.text) = .ok s.forward := by
    rw [hdimensions]
    exact readFormulas_text h.forward hforward
  -- A record has no atlas; the same one is generated again.
  have hsame (inverse : Option (List (Expr Float))) (hsome : s.inverse = inverse) :
      (⟨s.name, s.coordinates.map fun c => if c.display.isEmpty then ⟨c.label, c.label⟩ else c, s.forward, inverse,
        s.iterative, .generate (Names.axes s.dimensions) s.forward⟩ : Frame Float) = s := by
    rw [map_display h, ← hsome, ← axes, ← hs.atlas]
  unfold ofRecord
  cases hsome : s.inverse with
  | none =>
      simp only [toRecord, hsome, Option.map_none, hbounds, if_false, Bool.false_eq_true]
      refine bind_eq_ok_of (hcount _ hs.coordinates) (bind_eq_ok_of (hcount _ (List.length_map _))
        (bind_eq_ok_of hlabels (bind_eq_ok_of hread ?_)))
      exact congrArg Except.ok (hsame none hsome)
  | some es =>
      obtain ⟨sources, hsources, -, hes⟩ := h.inverse es hsome
      have hes := readFormulas_text hes (hinverse sources hsources)
      rw [← h.labels] at hes
      have hlength : (es.map Expr.text).length = s.dimensions := by
        rw [List.length_map]
        exact (hs.inverse es hsome).1
      simp only [toRecord, hsome, Option.map_some, hbounds, if_false, Bool.false_eq_true]
      refine bind_eq_ok_of (hcount _ hs.coordinates) (bind_eq_ok_of (hcount _ (List.length_map _))
        (bind_eq_ok_of (hcount _ hlength) (bind_eq_ok_of hlabels (bind_eq_ok_of hread
          (bind_eq_ok_of (bind_eq_ok_of hes rfl) ?_)))))
      exact congrArg Except.ok (hsame (some es) hsome)

end Records

/-- Formulas and coordinate systems are read back from their texts. Formulas are told apart by `==`, which does not
see the sign of a zero. -/
theorem texts_read_back :
    (∀ e : Expr Float, (∀ x, .literal x ∈ e.leaves → Literal.Unsigned x) →
      (∀ v, .var v ∈ e.leaves → Token.isIdentifier v = true) →
      ∃ e', Expr.parse e.text = .ok e' ∧ (e' == e) = true ∧
        ((∀ x, .literal x ∈ e.leaves → Literal.Plain x) → e' = e)) ∧
    ∀ (r : Record) (s : Frame Float), ofRecord r = .ok s → (∀ source ∈ r.forward, FiniteNumbers source) →
      (∀ sources ∈ r.inverse, ∀ source ∈ sources, FiniteNumbers source) → ofRecord s.toRecord = .ok s := by
  refine ⟨fun e hliterals hvars => ⟨e.plain, (Expr.text_spells hliterals hvars).parse, ?_, fun hplain => ?_⟩,
    fun r s h hforward hinverse => ofRecord_toRecord h hforward hinverse⟩
  · exact Expr.plain_beq fun x hx => Double.plain_beq (Double.exponentBits_ne_of_isFinite (hliterals x hx).1)
  · exact Expr.plain_eq fun x hx => (hplain x hx).2

section Skewed

def skewed : Record := ⟨"skewed", 2, [⟨"r", ""⟩, ⟨"phi", "φ"⟩], ["sqrt(x^2 + y^2)", "-atan2(y, x) * 0.1"], none, false⟩

def skewedForward {L : Type} [Literal L] : List (Expr L) :=
  let square (v : String) : Expr L := .op .pow (.var v) (.literal (Literal.ofDecimal ⟨2, 0⟩))
  [.call .sqrt (.op .add (square "x") (square "y")),
    .op .mul (.op .sub (.literal 0) (.call₂ .atan2 (.var "y") (.var "x"))) (.literal (Literal.ofDecimal ⟨1, -1⟩))]

def skewedFrame : Frame Float :=
  ⟨"skewed", [⟨"r", "r"⟩, ⟨"phi", "φ"⟩], skewedForward, none, false, .generate ["x", "y"] skewedForward⟩

theorem readFormulas_skewed {L : Type} [Literal L] :
    readFormulas .forward (Names.axes 2) skewed.forward = .ok (skewedForward (L := L)) := by cbv

theorem ofRecord_skewed : ofRecord skewed = .ok skewedFrame := by
  have hlabels : checkLabels [] ["r", "phi"] = .ok () := rfl
  unfold ofRecord
  simp only [skewed, checkCount, List.map, List.length, hlabels]
  change (readFormulas .forward (Names.axes 2) skewed.forward >>= _) = _
  exact bind_eq_ok_of readFormulas_skewed rfl

theorem finiteNumbers_skewed : ∀ source ∈ skewed.forward, FiniteNumbers source := by
  let known (t : Located) : Bool := match t.token with | .number d => d == ⟨2, 0⟩ || d == ⟨1, -1⟩ | _ => true
  have hknown : (skewed.forward.all fun source => (Scan.ofString source).tokens.all known) = true := by cbv
  intro source hsource t ht d hd
  have h := List.all_eq_true.1 (List.all_eq_true.1 hknown source hsource) t ht
  simp only [known, hd, Bool.or_eq_true, beq_iff_eq] at h
  rcases h with rfl | rfl <;> rfl

/-- A negative zero is read without its sign. -/
theorem texts_read_back_skewed :
    (∃ e', Expr.parse (.op .pow (.var "x") (.literal (-0.0)) : Expr Float).text = .ok e' ∧
      (e' == .op .pow (.var "x") (.literal (-0.0))) = true) ∧
    ofRecord skewed = .ok skewedFrame ∧ ofRecord skewedFrame.toRecord = .ok skewedFrame := by
  obtain ⟨hformulas, hrecords⟩ := texts_read_back
  have hzero : Literal.Unsigned (-0.0 : Float) := ⟨rfl, rfl⟩
  obtain ⟨e', hparse, hbeq, -⟩ := hformulas (.op .pow (.var "x") (.literal (-0.0))) (by simpa [Expr.leaves] using hzero)
    (by simp [Expr.leaves]; decide)
  exact ⟨⟨e', hparse, hbeq⟩, ofRecord_skewed,
    hrecords skewed skewedFrame ofRecord_skewed finiteNumbers_skewed fun _ hnone => (Option.not_mem_none _ hnone).elim⟩

end Skewed

end FlowShader.Coordinates.Frame
