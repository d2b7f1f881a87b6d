import FlowShader.Proofs.Expr.Names
import FlowShader.Proofs.Expr.RoundTrip
import FlowShader.Proofs.Lowering.Sharing

namespace FlowShader

open Shader (Term)

variable {L : Type}

namespace Expr

def product (a : Expr L) : Nat → Expr L
  | 0 | 1 => a
  | n + 1 => op .mul (product a n) a

variable [Literal L]

/-- The number of factors, if the node is a power that stands for a product. -/
def factors? : Operator → Expr L → Option Nat
  | .pow, literal x => [1, 2, 3, 4].find? fun n => x == Literal.ofNat n
  | _, _ => none

theorem factors?_pos {o : Operator} {b : Expr L} {n : Nat} (h : factors? o b = some n) : 0 < n := by
  unfold factors? at h
  split at h
  · have hn : n ∈ [1, 2, 3, 4] := List.mem_of_find?_eq_some h
    simp only [List.mem_cons, List.not_mem_nil, or_false] at hn
    omega
  · cases h

/-- Constants become numbers, small powers products, and infinity a quotient by zero. -/
def spelledOut : Expr L → Expr L
  | literal x => if Literal.isFinite x then literal x else op .div (literal 1) (literal 0)
  | constant c => literal c.value
  | var v => var v
  | call f a => call f a.spelledOut
  | call₂ f a b => call₂ f a.spelledOut b.spelledOut
  | op o a b =>
    match factors? o b with
    | some n => product a.spelledOut n
    | none => op o a.spelledOut b.spelledOut

end Expr

theorem Bindings.get?_identity {names : List String} {v : String} (hv : v ∈ names) :
    (identity names : Bindings L).get? v = some (.var v) := by
  have hfold (names : List String) (b : Bindings L) (h : v ∈ names ∨ b.get? v = some (.var v)) :
      (names.foldl (fun b name => b.bind name (.var name)) b).get? v = some (.var v) := by
    induction names generalizing b with
    | nil => exact h.resolve_left List.not_mem_nil
    | cons name names ih =>
        refine ih _ ?_
        by_cases hname : name = v
        · subst hname
          exact .inr (by simp [bind, get?])
        · refine h.imp (fun hv => (List.mem_cons.1 hv).resolve_left (Ne.symm hname)) fun hget => ?_
          simpa [bind, get?, hname] using hget
  exact hfold names {} (.inl hv)

section Texts

variable [Literal L] {s t : Term L} {a b e : Expr L}

def Shader.Term.Writes (t : Term L) (e : Expr L) : Prop := Expr.Spells t.text.toList e

namespace Shader.Term.Writes

theorem binary (hs : s.Writes a) (ht : t.Writes b) {o : BinOp} {p : Operator}
    (hsymbol : o.symbol.toList = [p.symbol]) : (Term.binary o s t).Writes (.op p a b) := by
  have h := Expr.Spells.op hs p ht
  unfold Writes
  simpa [Term.text, toString, hsymbol] using h

theorem call {name : String} {callable : Callable} (ht : t.Writes a) (h : Expr.Calls name callable)
    (hbuilds : Grammar.Builds callable [a] e) : (Term.call name [t]).Writes e := by
  have h := Expr.Spells.call ht h hbuilds
  unfold Writes
  simpa [Term.text, Term.texts] using h

theorem call₂ {name : String} {callable : Callable} (hs : s.Writes a) (ht : t.Writes b)
    (h : Expr.Calls name callable) (hbuilds : Grammar.Builds callable [a, b] e) :
    (Term.call name [s, t]).Writes e := by
  have h := Expr.Spells.call₂ hs h ht hbuilds
  unfold Writes
  simpa [Term.text, Term.texts, String.intercalate_cons_cons] using h

theorem product (ht : t.Writes a) {n : Nat} (hn : 0 < n) : (Lowering.product t n).Writes (a.product n) := by
  induction n with
  | zero => cases hn
  | succ n ih =>
      cases n with
      | zero => exact ht
      | succ n =>
          have hstep : Lowering.product t (n + 2) = Lowering.product t (n + 1) * t := by
            simp [Lowering.product, List.range_succ]
          rw [hstep]
          exact (ih (Nat.succ_pos n)).binary ht rfl

theorem operator (hs : s.Writes a) (ht : t.Writes b) (o : Operator) : (Lowering.binary o s t).Writes (.op o a b) := by
  cases o with
  | add | sub | mul | div => exact hs.binary ht rfl
  | pow => exact hs.call₂ ht ⟨⟨'p', ['o', 'w'], rfl, rfl, List.all_eq_true.1 rfl⟩, rfl⟩ (.operator .pow a b)
  | mod => exact hs.call₂ ht ⟨⟨'m', ['o', 'd'], rfl, rfl, List.all_eq_true.1 rfl⟩, rfl⟩ (.operator .mod a b)

/-- The shader knows the angle of a pair of coordinates as an arctangent. -/
theorem biFunc (hs : s.Writes a) (ht : t.Writes b) (f : BiFunc) :
    (Lowering.callBuiltin (.ofBiFunc f) [s, t]).Writes (.call₂ f a b) := by
  cases f with
  | min => exact hs.call₂ ht (Expr.calls_biFunc .min) (.bifunc .min a b)
  | max => exact hs.call₂ ht (Expr.calls_biFunc .max) (.bifunc .max a b)
  | dot => exact hs.call₂ ht (Expr.calls_biFunc .dot) (.bifunc .dot a b)
  | atan2 => exact hs.call₂ ht (Expr.calls_func .atan) (.arctangent₂ a b)

end Shader.Term.Writes

end Texts

section Literals

open Double

variable {x : Float}

theorem Double.abs_of_positive (h : exponentBits x ≠ 2047) (hs : sign x = .positive) : x.abs = x := by
  have hunpack : x.toModel.unpack.abs = signed x .positive := by
    rw [unpack_eq_signed h]
    rcases signed_eq x with ⟨-, hsigned⟩ | ⟨-, m, e, hm, hsigned⟩ <;> rw [hsigned, hsigned] <;> rfl
  have hbits : x.abs.toBits.toNat = magnitude x := by
    change (Float.Model.UnpackedFloat.pack .binary64 x.toModel.unpack.abs).toNat = _
    rw [hunpack, pack_signed h]
    exact Nat.zero_add _
  have hlt := magnitude_lt x
  refine eq_of_sign_of_magnitude ?_ ?_
  · rw [hs, sign, hbits, if_pos hlt]
  · rw [magnitude, hbits, Nat.mod_eq_of_lt hlt]

theorem Decimal.value_ofPoint_zero (whole : List Char) : (ofPoint whole ['0']).value = (ofPoint whole []).value := by
  have hzero := natOfDigits_append_zeros whole 1
  simp only [List.replicate, pow_one] at hzero
  simp [ofPoint, value, hzero]

theorem Decimal.spells_pointed (d : Decimal) :
    Expr.Spells (if d.text.toList.contains '.' then d.text else d.text ++ ".0").toList
      (.literal d.toFloat : Expr Float) := by
  have hwhole : ∀ c ∈ d.wholeDigits, c.isDigit = true := fun c => isDigit_of_mem_wholeDigits
  have hvalue := d.value_ofPoint
  by_cases hexponent : 0 ≤ d.exponent
  · have htext : d.text.toList = d.wholeDigits := by rw [text_toList, if_pos hexponent, List.append_nil]
    have hpoint : d.text.toList.contains '.' = false := by
      rw [htext, ← Bool.not_eq_true, List.contains_iff_mem]
      exact fun hmem => absurd (hwhole '.' hmem) (by decide)
    have hfraction : d.fractionDigits = [] := by rw [fractionDigits, if_pos hexponent]
    rw [hfraction, ← value_ofPoint_zero] at hvalue
    rw [if_neg (by rw [hpoint]; exact Bool.false_ne_true), String.toList_append, htext, ← toFloat_congr hvalue]
    exact Expr.spells_point _ _ d.wholeDigits_ne_nil hwhole (List.all_eq_true.1 rfl)
  · have htext : d.text.toList = d.wholeDigits ++ '.' :: d.fractionDigits := by
      rw [text_toList, if_neg hexponent]
    rw [if_pos (by rw [htext]; simp), htext, ← toFloat_congr hvalue]
    exact Expr.spells_point _ _ d.wholeDigits_ne_nil hwhole fun c => isDigit_of_mem_fractionDigits

theorem Double.isNaN_of_exponentBits (h : exponentBits x ≠ 2047) : x.isNaN = false := by
  change x.toModel.unpack.isNaN = false
  rw [unpack_eq_signed h]
  rcases signed_eq x with ⟨-, hs⟩ | ⟨-, m, e, hm, hs⟩ <;> rw [hs] <;> rfl

theorem Double.writes_positive (h : exponentBits x ≠ 2047) (hs : sign x = .positive) :
    (Term.float x).Writes (.literal x) := by
  have hnan : Literal.isNaN x = false := isNaN_of_exponentBits h
  have hfinite : Literal.isFinite x = true := isFinite_of_exponentBits h
  have habs : Scalar.abs x = x := abs_of_positive h hs
  have htext : (Term.float x).text = if (floatText x).toList.contains '.' then floatText x else floatText x ++ ".0" := by
    rw [Term.text, Shader.literalText, hnan, hfinite, habs, (unsigned_of_positive h hs).2]
    rfl
  have hspells := (Binary.ofFloat x).shortest.spells_pointed
  rw [Decimal.toFloat_shortest h hs, ← floatText_eq h hs, ← htext] at hspells
  exact hspells

theorem Double.writes_infinity : (Term.float Binary.infinity).Writes (.op .div (.literal 1.0) (.literal 0.0)) :=
  Expr.Spells.op (Expr.spells_point ['1'] ['0'] nofun (by simp) (by simp)) .div
    (Expr.spells_point ['0'] ['0'] nofun (by simp) (by simp))

theorem Double.writes_literal (hx : (exponentBits x ≠ 2047 ∧ sign x = .positive) ∨ x = Binary.infinity) :
    (Term.float x).Writes (Expr.literal x).spelledOut := by
  rcases hx with ⟨h, hs⟩ | rfl
  · have hfinite : Literal.isFinite x = true := isFinite_of_exponentBits h
    rw [Expr.spelledOut, if_pos hfinite]
    exact writes_positive h hs
  · exact writes_infinity

theorem Double.writes_constant (c : Constant) : (Term.float c.value).Writes (.literal c.value : Expr Float) := by
  cases c with
  | pi => exact writes_positive (by decide) rfl
  | e => exact writes_positive (by decide) rfl

theorem Double.beq_eq_false_of_negative {y : Float}
    (hx : (exponentBits x ≠ 2047 ∧ sign x = .positive) ∨ x = Binary.infinity) (hy : exponentBits y ≠ 2047)
    (hsign : sign y = .negative) (hm : magnitude y ≠ 0) : (x == y) = false := by
  obtain ⟨-, m, e, hpos, hsigned⟩ := (signed_eq y).resolve_left fun hzero => hm hzero.1
  change (x.toModel.unpack.compare y.toModel.unpack == some .eq) = false
  rw [unpack_eq_signed hy, hsign, hsigned]
  rcases hx with ⟨h, hs⟩ | rfl
  · rw [unpack_eq_signed h, hs]
    rcases signed_eq x with ⟨-, hsigned⟩ | ⟨-, m, e, hpos, hsigned⟩ <;> rw [hsigned] <;> rfl
  · rfl

theorem Double.smallPower?_eq {o : Operator} {b : Expr Float} (hb : ∀ x, .literal x ∈ b.leaves →
      (exponentBits x ≠ 2047 ∧ sign x = .positive) ∨ x = Binary.infinity) :
    Lowering.smallPower? o b = (Expr.factors? o b).map Int.ofNat := by
  -- Numbers in formulas are not negative, so that no power is one over a product.
  have hfind (x : Float) (ns : List Nat) (hns : ∀ n ∈ ns, (x == -Literal.ofNat n) = false) :
      (ns.findSome? fun n : Nat => if x == Literal.ofNat n then some (n : Int)
        else if x == -Literal.ofNat n then some (-(n : Int)) else none) =
      (ns.find? fun n => x == Literal.ofNat n).map Int.ofNat := by
    induction ns with
    | nil => rfl
    | cons n ns ih =>
        obtain ⟨hn, hns⟩ := List.forall_mem_cons.1 hns
        rw [List.findSome?_cons, List.find?_cons, hn]
        cases x == Literal.ofNat n with
        | true => rfl
        | false => exact ih hns
  cases o with
  | pow =>
      cases b with
      | literal x =>
          refine hfind x [1, 2, 3, 4] fun n hn => ?_
          have hx := hb x (List.mem_singleton_self _)
          simp only [List.mem_cons, List.not_mem_nil, or_false] at hn
          rcases hn with rfl | rfl | rfl | rfl <;> exact beq_eq_false_of_negative hx (by decide) rfl (by decide)
      | _ => rfl
  | _ => rfl

end Literals

namespace Lowering

variable {names : List String}

theorem build_writes {e : Expr Float} (hnames : ∀ v, .var v ∈ e.leaves → v ∈ names ∧ Token.isIdentifier v = true)
    (hliterals : ∀ x, .literal x ∈ e.leaves →
      (Double.exponentBits x ≠ 2047 ∧ Double.sign x = .positive) ∨ x = Binary.infinity) (s : State Float) :
    ∃ t, Runs ({ bindings := .identity names : Lowering Float }.build e) s t s ∧ t.Writes e.spelledOut := by
  induction e with
  | literal x => exact ⟨_, .pure _ _, Double.writes_literal (hliterals x (List.mem_singleton_self _))⟩
  | constant c => exact ⟨_, .pure _ _, Double.writes_constant c⟩
  | var v =>
      obtain ⟨hv, hidentifier⟩ := hnames v (List.mem_singleton_self _)
      refine ⟨.var v, ?_, ?_⟩
      · simp only [build, Bindings.get?_identity hv]
        exact .pure _ _
      · unfold Shader.Term.Writes
        rw [Term.text]
        exact Expr.spells_var hidentifier
  | call f a ih =>
      obtain ⟨t, hrun, ht⟩ := ih hnames hliterals
      exact ⟨_, hrun.bind (.pure _ _), ht.call (Expr.calls_func f) (Expr.builds_func f _)⟩
  | call₂ f a b iha ihb =>
      obtain ⟨x, hx, hxw⟩ := iha (fun v hv => hnames v (List.mem_append_left _ hv))
        fun x hx => hliterals x (List.mem_append_left _ hx)
      obtain ⟨y, hy, hyw⟩ := ihb (fun v hv => hnames v (List.mem_append_right _ hv))
        fun x hx => hliterals x (List.mem_append_right _ hx)
      exact ⟨_, hx.bind (hy.bind (.pure _ _)), hxw.biFunc hyw f⟩
  | op o a b iha ihb =>
      obtain ⟨x, hx, hxw⟩ := iha (fun v hv => hnames v (List.mem_append_left _ hv))
        fun x hx => hliterals x (List.mem_append_left _ hx)
      obtain ⟨y, hy, hyw⟩ := ihb (fun v hv => hnames v (List.mem_append_right _ hv))
        fun x hx => hliterals x (List.mem_append_right _ hx)
      have hsmall := Double.smallPower?_eq (o := o) fun x hx => hliterals x (List.mem_append_right _ hx)
      rw [Expr.spelledOut]
      cases hfactors : Expr.factors? o b with
      | none =>
          rw [hfactors] at hsmall
          refine ⟨_, hx.bind ?_, hxw.operator hyw o⟩
          simp only [hsmall, Option.map_none]
          exact hy.bind (.pure _ _)
      | some n =>
          rw [hfactors] at hsmall
          have hn := Expr.factors?_pos hfactors
          refine ⟨product x n, hx.bind ?_, hxw.product hn⟩
          simp only [hsmall, Option.map_some]
          exact Runs.bind (.pure _ _) (.pure _ _)

/-- Shader code that a formula is lowered to is read as the formula, with its constants, small powers and infinite
numbers spelt out. -/
theorem text_reads_back (source : String) (e : Expr Float) (h : Expr.parse source = .ok e) :
    ∃ t, run ({ bindings := .identity e.vars : Lowering Float }.build e) = .ok t ∧
      Expr.parse t.text = .ok e.spelledOut := by
  have hnames (v : String) (hv : .var v ∈ e.leaves) : v ∈ e.vars ∧ Token.isIdentifier v = true :=
    ⟨Expr.mem_sortNames.2 (Expr.mem_names_of_leaf hv), Expr.var_of_parse h hv⟩
  obtain ⟨t, hrun, ht⟩ := build_writes hnames (fun x hx => Expr.literal_cases_of_parse h hx) {}
  refine ⟨t, ?_, ht.parse⟩
  rw [run, hrun]

theorem parse_winding [Literal L] : Expr.parse "x^3 - atan2(y, PI) % 0.1" =
    .ok (.op .sub (.op .pow (.var "x") (.literal (Literal.ofDecimal ⟨3, 0⟩)))
      (.op .mod (.call₂ .atan2 (.var "y") (.constant .pi)) (.literal (Literal.ofDecimal ⟨1, -1⟩))) : Expr L) := by cbv

theorem text_reads_back_winding :
    ∃ (e : Expr Float) (t : Term Float), Expr.parse "x^3 - atan2(y, PI) % 0.1" = .ok e ∧
      run ({ bindings := .identity e.vars : Lowering Float }.build e) = .ok t ∧
      Expr.parse t.text = .ok (.op .sub (.op .mul (.op .mul (.var "x") (.var "x")) (.var "x"))
        (.op .mod (.call₂ .atan2 (.var "y") (.literal Scalar.pi)) (.literal (Literal.ofDecimal ⟨1, -1⟩))) :
          Expr Float) := by
  obtain ⟨t, hrun, hparse⟩ := text_reads_back _ _ parse_winding
  exact ⟨_, t, parse_winding, hrun, hparse⟩

end Lowering

end FlowShader
