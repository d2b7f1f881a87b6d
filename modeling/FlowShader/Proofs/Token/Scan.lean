import FlowShader.Token.Lexer
import Mathlib.Data.List.TakeWhile
import Mathlib.Tactic.SplitIfs

namespace FlowShader

namespace Token

def sign? : Token → Option Operator
  | operator o => some o
  | negation => some .sub
  | _ => none

/-- What a scan promises of the token after `previous`. -/
structure Fits (previous : Option Token) (t : Token) : Prop where
  called : ∀ name callable, t = function name callable → Callable.ofName? name = some callable
  minus : t.sign? = some .sub → t = minus previous

variable {previous : Option Token} {t : Token}

theorem Fits.of_sign?_eq_none (hsign : t.sign? = none)
    (called : ∀ name callable, t = function name callable → Callable.ofName? name = some callable) :
    t.Fits previous :=
  ⟨called, fun h => by simp [hsign] at h⟩

theorem Fits.negation (h : t.Fits previous) (hdue : previous.all precedesOperand = true)
    (hsign : t.sign? = some .sub) : t = .negation := by
  rw [h.minus hsign, Token.minus, if_pos hdue]

theorem Fits.operator (h : t.Fits previous) (hdue : previous.all precedesOperand = false)
    {o : Operator} (hsign : t.sign? = some o) : t = .operator o := by
  cases t with
  | operator o' =>
      obtain rfl := Option.some.inj hsign
      rfl
  | negation =>
      have hminus := h.minus rfl
      rw [Token.minus, hdue] at hminus
      exact absurd hminus nofun
  | _ => exact absurd hsign nofun

theorem fits_minus : (Token.minus previous).Fits previous := by
  refine ⟨fun name callable h => ?_, fun _ => rfl⟩
  rw [Token.minus] at h
  split at h <;> exact absurd h nofun

theorem fits_ofWord (w : String) : (ofWord w).Fits previous := by
  rw [ofWord]
  cases Constant.ofName? w with
  | some c => exact .of_sign?_eq_none rfl nofun
  | none =>
      cases hf : Callable.ofName? w with
      | none => exact .of_sign?_eq_none rfl nofun
      | some f =>
          refine .of_sign?_eq_none rfl fun name callable h => ?_
          injection h with hname hcallable
          rw [← hname, hf, hcallable]

theorem fits_operator {c : Char} {o : Operator} (hc : c ≠ '-') (ho : Operator.ofChar? c = some o) :
    (operator o).Fits previous := by
  refine ⟨nofun, fun hsign => ?_⟩
  obtain rfl := Option.some.inj hsign
  unfold Operator.ofChar? at ho
  split at ho <;> first | exact absurd rfl hc | exact absurd ho nofun

theorem read_fits {position width : Nat} {c : Char} {rest : List Char}
    (h : Token.read previous position c rest = .ok (t, width)) : t.Fits previous := by
  rw [Token.read] at h
  split_ifs at h with h₁ h₂ h₃ hminus hnumber hname
  · cases h
    exact .of_sign?_eq_none rfl nofun
  · cases h
    exact .of_sign?_eq_none rfl nofun
  · cases h
    exact .of_sign?_eq_none rfl nofun
  · cases h
    exact fits_minus
  · split at h <;> cases h
    exact .of_sign?_eq_none rfl nofun
  · cases h
    exact fits_ofWord _
  · split at h <;> cases h
    exact fits_operator (fun hc => hminus (beq_iff_eq.2 hc)) ‹_›

end Token

def Scanned : Option Token → List Located → Prop
  | _, [] => True
  | previous, t :: ts => t.token.Fits previous ∧ Scanned (some t.token) ts

/-- The tokens in front of the end. -/
def beforeEnd (ts : List Located) : List Located := ts.takeWhile (·.token != .eof)

theorem beforeEnd_cons {t : Located} (h : t.token ≠ .eof) (ts : List Located) :
    beforeEnd (t :: ts) = t :: beforeEnd ts :=
  List.takeWhile_cons_of_pos (bne_iff_ne.2 h)

theorem beforeEnd_eof {t : Located} (h : t.token = .eof) (ts : List Located) :
    beforeEnd (t :: ts) = [] :=
  List.takeWhile_cons_of_neg (by simp [h])

namespace Scan

theorem scanned_ofChars (previous : Option Token) (position : Nat) (cs : List Char) :
    Scanned previous (ofChars previous position cs).tokens := by
  fun_induction ofChars previous position cs with
  | case1 => exact ⟨.of_sign?_eq_none rfl nofun, trivial⟩
  | case2 _ _ _ _ _ ih => exact ih
  | case3 => trivial
  | case4 _ _ _ _ _ _ _ hread _ ih => exact ⟨Token.read_fits hread, ih⟩

theorem exists_eof_ofChars (previous : Option Token) (position : Nat) (cs : List Char)
    (h : (ofChars previous position cs).fault = none) :
    ∃ t ∈ (ofChars previous position cs).tokens, t.token = .eof := by
  fun_induction ofChars previous position cs with
  | case1 => exact ⟨_, List.mem_singleton_self _, rfl⟩
  | case2 _ _ _ _ _ ih => exact ih h
  | case3 => exact absurd h nofun
  | case4 _ _ _ _ _ _ _ hread _ ih =>
      obtain ⟨t, ht, heof⟩ := ih h
      exact ⟨t, List.mem_cons_of_mem _ ht, heof⟩

end Scan

theorem exists_eq_beforeEnd_append {ts : List Located} (h : ∃ t ∈ ts, t.token = .eof) :
    ∃ t later, ts = beforeEnd ts ++ t :: later ∧ t.token = .eof := by
  obtain ⟨t, ht, heof⟩ := h
  have hsplit := List.takeWhile_append_dropWhile (p := (·.token != .eof)) (l := ts)
  cases hrest : ts.dropWhile (·.token != .eof) with
  | nil => exact absurd (List.dropWhile_eq_nil_iff.1 hrest t ht) (by simp [heof])
  | cons u later =>
      have hhead := List.head?_dropWhile_not (·.token != .eof) ts
      rw [hrest] at hsplit hhead
      exact ⟨u, later, hsplit.symm, by simpa using hhead⟩

end FlowShader
