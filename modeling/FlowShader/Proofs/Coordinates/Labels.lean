import FlowShader.Proofs.Coordinates.RoundTrip
import FlowShader.Proofs.Lowering.Keys
import FlowShader.Proofs.Problem

namespace FlowShader

theorem Token.ofWord_eq_ident_iff (w : String) :
    ofWord w = .ident w ↔ Constant.ofName? w = none ∧ Callable.ofName? w = none := by
  unfold ofWord
  cases Constant.ofName? w with
  | some c => simp
  | none => cases Callable.ofName? w <;> simp

namespace Coordinates

theorem isLabel_iff_isIdentifier (name : String) :
    isLabel name = true ↔ name ≠ Names.alpha ∧ Token.isIdentifier name = true := by
  unfold isLabel Token.isIdentifier
  cases name.toList with
  | nil => simp
  | cons c rest =>
      simp only [Bool.and_eq_true, bne_iff_ne, Option.isNone_iff_eq_none, beq_iff_eq, Token.ofWord_eq_ident_iff]
      constructor
      · rintro ⟨⟨⟨hchars, halpha⟩, hconstant⟩, hcallable⟩
        exact ⟨halpha, hchars, hconstant, hcallable⟩
      · rintro ⟨halpha, hchars, hconstant, hcallable⟩
        exact ⟨⟨⟨hchars, halpha⟩, hconstant⟩, hcallable⟩

namespace Frame

theorem Checked.isIdentifier_of_mem_labels {L : Type} [Literal L] {s : Frame L} (hs : s.Checked) :
    ∀ v ∈ s.labels, Token.isIdentifier v = true :=
  fun v hv => ((isLabel_iff_isIdentifier v).1 (hs.labels v hv)).2

section Reading

variable {L : Type} [Literal L] {part : Part} {allowed sources : List String} {es : List (Expr L)}

theorem readFormula_of_parse {source : String} {e : Expr L} (hparse : Expr.parse source = .ok e)
    (hover : e.Over allowed) (index : Nat) : readFormula part allowed index source = .ok e := by
  have hknown : e.vars.find? (!allowed.contains ·) = none := by
    refine List.find?_eq_none.2 fun v hv => ?_
    simpa using hover v (Expr.mem_sortNames.1 hv)
  simp only [readFormula, hparse, hknown]

theorem readFormulas_of_readAs (part : Part) (h : Config.ReadAs allowed sources es) :
    readFormulas part allowed sources = .ok es := by
  have hfst : Config.ReadAs allowed (sources.zipIdx.map (·.1)) es := by
    rw [List.zipIdx_map_fst]
    exact h
  refine mapM_eq_ok_of ((List.forall₂_map_left_iff.1 hfst).imp ?_)
  exact fun p e he => readFormula_of_parse he.1 he.2 p.2

theorem name_iterative_of_ofRecord {r : Record} {s : Frame L} (h : ofRecord r = .ok s) :
    s.name = r.name ∧ s.iterative = r.iterative := by
  unfold ofRecord at h
  dsimp only at h
  split at h
  · cases h
  obtain ⟨_, -, h⟩ := exists_of_bind_eq_ok h
  obtain ⟨_, -, h⟩ := exists_of_bind_eq_ok h
  cases hinverse : r.inverse with
  | none =>
      simp only [hinverse] at h
      obtain ⟨_, -, h⟩ := exists_of_bind_eq_ok h
      obtain ⟨_, -, h⟩ := exists_of_bind_eq_ok h
      obtain rfl := Except.ok.inj h
      exact ⟨rfl, rfl⟩
  | some sources =>
      simp only [hinverse] at h
      obtain ⟨_, -, h⟩ := exists_of_bind_eq_ok h
      obtain ⟨_, -, h⟩ := exists_of_bind_eq_ok h
      obtain ⟨_, -, h⟩ := exists_of_bind_eq_ok h
      obtain ⟨_, -, h⟩ := exists_of_bind_eq_ok h
      obtain rfl := Except.ok.inj h
      exact ⟨rfl, rfl⟩

theorem ofRecord_with_inverse {r : Record} {s : Frame L} (h : ofRecord r = .ok s)
    (hlength : sources.length = r.dimensions) (hread : Config.ReadAs s.labels sources es) :
    ofRecord { r with inverse := some sources } = .ok { s with inverse := some es } := by
  obtain ⟨hname, hiterative⟩ := name_iterative_of_ofRecord h
  have h := exists_of_ofRecord h
  have hbounds : (decide (r.dimensions < 2) || decide (4 < r.dimensions)) = false := by
    have htwo := h.two_le
    have hfour := h.le_four
    simp only [Bool.or_eq_false_iff, decide_eq_false_iff_not]
    omega
  have hcount (part : Part) {n : Nat} (hn : n = r.dimensions) : checkCount r.dimensions part n = .ok () := if_pos hn
  obtain ⟨_, hlabels⟩ := h.checked
  rw [h.labels] at hread
  have hinverse := readFormulas_of_readAs .inverse hread
  unfold ofRecord
  simp only [hbounds, if_false, Bool.false_eq_true]
  refine bind_eq_ok_of (hcount _ h.coordinates) (bind_eq_ok_of (hcount _ h.sources) (bind_eq_ok_of (hcount _ hlength)
    (bind_eq_ok_of hlabels (bind_eq_ok_of h.forward (bind_eq_ok_of (bind_eq_ok_of hinverse rfl) ?_)))))
  rw [← hname, ← hiterative, ← h.display, ← h.atlas]
  rfl

end Reading

end Frame

end Coordinates

open Coordinates (Frame Record isLabel isLabel_iff_isIdentifier)

section Writing

def Expr.Writable (names : List String) (e : Expr Float) : Prop :=
  e.Over names ∧ ∀ x, .literal x ∈ e.leaves → Literal.Unsigned x ∧ Literal.Plain x

variable {names : List String} {es : List (Expr Float)}

theorem Expr.Writable.parse_text {e : Expr Float} (h : e.Writable names)
    (hnames : ∀ v ∈ names, Token.isIdentifier v = true) : Expr.parse e.text = .ok e := by
  have hspells := text_spells (fun x hx => (h.2 x hx).1) fun v hv => hnames v (h.1 v (mem_names_of_leaf hv))
  rw [plain_eq fun x hx => (h.2 x hx).2.2] at hspells
  exact hspells.parse

theorem readAs_text (hes : ∀ e ∈ es, e.Writable names) (hnames : ∀ v ∈ names, Token.isIdentifier v = true) :
    Config.ReadAs names (es.map Expr.text) es := by
  rw [Config.ReadAs, List.forall₂_map_left_iff, List.forall₂_same]
  exact fun e he => ⟨(hes e he).parse_text hnames, (hes e he).1⟩

end Writing

namespace Config

variable {L : Type} [Literal L] {c : Config L} {p : Problem L}

theorem validate_with_derivatives (h : c.validate = .ok p) {sources : List String} {es : List (Expr L)}
    (hlength : sources.length = c.dimensions)
    (hread : ReadAs (p.frame.axes ++ p.frame.labels ++ [Names.alpha]) sources es) :
    ({ c with derivatives := sources } : Config L).validate = .ok { p with derivatives := es } := by
  obtain ⟨-, hdimensions⟩ := checked_of_validate h
  obtain ⟨hbounds, hsettings, hframe, -, hnewton, hcolor⟩ := validate_eq_ok_iff.1 h
  obtain ⟨-, hsettings⟩ := settingErrors_eq_nil_iff.1 hsettings
  rw [Frame.axes, hdimensions] at hread
  exact validate_eq_ok_iff.2 ⟨hbounds, settingErrors_eq_nil_iff.2 ⟨hlength, hsettings⟩, hframe,
    (readAll_eq_ok_iff .derivative).2 hread, hnewton, hcolor⟩

end Config

/-- Labels and the scanner agree: a label is what is scanned as one identifier and is not the animation parameter. So
the labels of an accepted record are variables wherever they stand as words in a formula that is read, all formulas over
them can be the inverse of the record, and formulas over them, the axes and the animation parameter can be the
derivatives of a configuration. -/
theorem isLabel_iff_scanned :
    (∀ name, isLabel name = true ↔
      name ≠ Names.alpha ∧ Scan.ofString name = ⟨[⟨.ident name, 0⟩, ⟨.eof, name.length⟩], none⟩) ∧
    (∀ (r : Record) (s : Frame Float), Frame.ofRecord r = .ok s →
      (∀ v ∈ s.labels,
        Scan.ofString v = ⟨[⟨.ident v, 0⟩, ⟨.eof, v.length⟩], none⟩ ∧ Expr.parse v = .ok (.var v : Expr Float) ∧
        ∀ (source : String) (e : Expr Float), Expr.parse source = .ok e →
          (∀ i, ⟨.ident v, i⟩ ∈ (Scan.ofString source).tokens ↔ OccursAt source.toList v i) ∧
          (v ∈ e.vars ↔ ∃ i, OccursAt source.toList v i)) ∧
      ∀ es : List (Expr Float), es.length = r.dimensions → (∀ e ∈ es, e.Writable s.labels) →
        Frame.ofRecord { r with inverse := some (es.map Expr.text) } = .ok { s with inverse := some es }) ∧
    ∀ (c : Config Float) (p : Problem Float), c.validate = .ok p →
      ∀ es : List (Expr Float), es.length = c.dimensions →
        (∀ e ∈ es, e.Writable (p.frame.axes ++ p.frame.labels ++ [Names.alpha])) →
        ({ c with derivatives := es.map Expr.text } : Config Float).validate = .ok { p with derivatives := es } := by
  refine ⟨fun name => ?_, fun r s h => ?_, fun c p h es hlength hes => ?_⟩
  · rw [isLabel_iff_isIdentifier, Token.isIdentifier_iff_ofString]
  · have hidentifiers := (Frame.checked_of_ofRecord h).isIdentifier_of_mem_labels
    refine ⟨fun v hv => ?_, fun es hlength hes => ?_⟩
    · have hv := hidentifiers v hv
      refine ⟨(Token.isIdentifier_iff_ofString v).1 hv, (Expr.spells_var hv).parse, fun source e hparse => ?_⟩
      have htokens (i : Nat) : ⟨.ident v, i⟩ ∈ (Scan.ofString source).tokens ↔ OccursAt source.toList v i :=
        (Expr.ident_mem_tokens_iff hparse).trans (and_iff_right hv)
      exact ⟨htokens, (Expr.mem_vars_iff_mem_tokens hparse).trans (exists_congr htokens)⟩
    · exact Frame.ofRecord_with_inverse h ((List.length_map _).trans hlength) (readAs_text hes hidentifiers)
  · obtain ⟨hp, -⟩ := Config.checked_of_validate h
    have hidentifiers : ∀ v ∈ p.frame.axes ++ p.frame.labels ++ [Names.alpha], Token.isIdentifier v = true := by
      simp only [List.forall_mem_append, List.forall_mem_singleton]
      exact ⟨⟨Frame.isIdentifier_of_mem_axes, hp.frame.isIdentifier_of_mem_labels⟩, by decide⟩
    exact Config.validate_with_derivatives h ((List.length_map _).trans hlength) (readAs_text hes hidentifiers)

section Skewed

open Frame (skewed skewedFrame ofRecord_skewed)

def growing : Config Float := { Config.ofDerivatives 2 ["r", "phi"] with frame := some (.record skewed) }

def growingProblem : Problem Float := ⟨skewedFrame, [.var "r", .var "phi"], none, none⟩

theorem validate_growing : growing.validate = .ok growingProblem := by
  have hread : Config.ReadAs (Names.axes 2 ++ skewedFrame.labels ++ [Names.alpha]) growing.derivatives
      growingProblem.derivatives := by
    have hvar (v : String) (hv : Token.isIdentifier v = true) (hmem : v ∈ ["x", "y", "r", "phi", "a"]) :
        Expr.parse v = .ok (.var v : Expr Float) ∧ (Expr.var v : Expr Float).Over ["x", "y", "r", "phi", "a"] :=
      ⟨(Expr.spells_var hv).parse, Expr.over_var.2 hmem⟩
    exact .cons (hvar "r" (by decide) (by decide)) (.cons (hvar "phi" (by decide) (by decide)) .nil)
  refine Config.validate_eq_ok_iff.2 ⟨⟨by decide, by decide⟩, ?_, ?_, ?_, rfl, rfl⟩
  · refine Config.settingErrors_eq_nil_iff.2 ⟨rfl, ⟨?_, ?_⟩, ⟨?_, ?_⟩, ?_, ?_⟩ <;> decide
  · exact Config.readFrame_eq_ok_iff.2 ⟨ofRecord_skewed, rfl⟩
  · exact (Config.readAll_eq_ok_iff .derivative).2 hread

/-- Skewed polar coordinates with their inverse, and a flow that uses labels, an axis and the animation parameter. -/
theorem isLabel_iff_scanned_skewed :
    let angle : Expr Float := .op .div (.op .sub (.literal 0) (.var "phi")) (.literal 0.1)
    let inverse : List (Expr Float) := [.cos, .sin].map fun f => .op .mul (.var "r") (.call f angle)
    let derivatives : List (Expr Float) := [.op .mul (.var "a") (.var "r"), .op .add (.var "phi") (.var "x")]
    isLabel "phi" = true ∧ Frame.ofRecord skewed = .ok skewedFrame ∧ growing.validate = .ok growingProblem ∧
      Expr.parse "phi" = .ok (.var "phi" : Expr Float) ∧
      Frame.ofRecord { skewed with inverse := some (inverse.map Expr.text) } =
        .ok { skewedFrame with inverse := some inverse } ∧
      ({ growing with derivatives := derivatives.map Expr.text } : Config Float).validate =
        .ok { growingProblem with derivatives } := by
  intro angle inverse derivatives
  obtain ⟨hlabels, hrecords, hconfigs⟩ := isLabel_iff_scanned
  obtain ⟨hwords, hinverse⟩ := hrecords skewed skewedFrame ofRecord_skewed
  obtain ⟨hscan, hparse, -⟩ := hwords "phi" (by decide)
  have hnumbers : ∀ x ∈ [(0 : Float), 0.1], Literal.Unsigned x ∧ Literal.Plain x := by
    refine List.forall_mem_cons.2 ⟨⟨⟨rfl, rfl⟩, rfl, fun _ => rfl⟩, List.forall_mem_singleton.2 ?_⟩
    exact ⟨⟨rfl, rfl⟩, rfl, fun h => absurd h (by decide)⟩
  have hpolar : ∀ e ∈ inverse, e.Writable skewedFrame.labels := by
    refine List.forall_mem_map.2 fun f _ => ⟨?_, fun x hx => hnumbers x ?_⟩
    · simp [angle, Expr.Over, Expr.names, Frame.labels, skewedFrame]
    · simpa [angle, Expr.leaves] using hx
  have hflow : ∀ e ∈ derivatives, e.Writable ["x", "y", "r", "phi", "a"] := by
    refine List.forall_mem_cons.2 ⟨⟨?_, ?_⟩, List.forall_mem_singleton.2 ⟨?_, ?_⟩⟩
    all_goals simp [Expr.Over, Expr.names, Expr.leaves]
  exact ⟨(hlabels "phi").2 ⟨by decide, hscan⟩, ofRecord_skewed, validate_growing, hparse, hinverse inverse rfl hpolar,
    hconfigs growing growingProblem validate_growing derivatives rfl hflow⟩

end Skewed

end FlowShader
