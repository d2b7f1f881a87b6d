import FlowShader.Proofs.Expr.Text

namespace FlowShader

variable {L : Type} [Literal L]

/-- Zeros are finite and not negative, and other literals are equal to themselves only. -/
class Literal.Zeros (L : Type) [Literal L] : Prop where
  finite_zero : isFinite (0 : L) = true
  zero_beq : ((0 : L) == 0) = true
  not_negative (x : L) : isFinite x = true → (x == 0) = true → Scalar.lt x 0 = false
  eq_or_zeros (x y : L) : isFinite x = true → isFinite y = true → (x == y) = true →
    x = y ∨ (x == 0) = true ∧ (y == 0) = true

namespace Expr

/-- Variables are identifiers and literals are finite. -/
def Readable : Expr L → Prop
  | literal x => Literal.isFinite x = true
  | constant _ => True
  | var v => Token.isIdentifier v = true
  | call _ a => a.Readable
  | call₂ _ a b | op _ a b => a.Readable ∧ b.Readable

def unsigned : Expr L → Expr L
  | literal x => if x == 0 then literal 0 else literal x
  | constant c => constant c
  | var v => var v
  | call f a => call f a.unsigned
  | call₂ f a b => call₂ f a.unsigned b.unsigned
  | op o a b => op o a.unsigned b.unsigned

theorem Readable.subtree {d e : Expr L} (he : e.Readable) (hd : d ∈ e.subtrees) : d.Readable := by
  induction e with
  | literal | constant | var =>
      obtain rfl := List.mem_singleton.1 hd
      exact he
  | call f a ih =>
      rcases List.mem_cons.1 hd with rfl | hd
      · exact he
      · exact ih he hd
  | call₂ f a b iha ihb | op o a b iha ihb =>
      rcases List.mem_cons.1 hd with rfl | hd
      · exact he
      · rcases List.mem_append.1 hd with hd | hd
        · exact iha he.1 hd
        · exact ihb he.2 hd

theorem names_unsigned (e : Expr L) : e.unsigned.names = e.names := by
  induction e with
  | literal x =>
      rw [unsigned]
      split <;> rfl
  | constant c | var v => rfl
  | call f a ih => exact ih
  | call₂ f a b iha ihb | op o a b iha ihb => exact congrArg₂ (· ++ ·) iha ihb

variable [Literal.Zeros L]

theorem text_zero {x : L} (hx : Literal.isFinite x = true) (h : (x == 0) = true) :
    (literal x).text = (literal 0 : Expr L).text := by
  have htext (y : L) (hy : Literal.isFinite y = true) (h : (y == 0) = true) : (literal y).text = "0" := by
    simp [text, write, Literal.Zeros.not_negative y hy h, literalText, h]
  rw [htext x hx h, htext 0 Literal.Zeros.finite_zero Literal.Zeros.zero_beq]

theorem text_unsigned {e : Expr L} (he : e.Readable) : e.unsigned.text = e.text := by
  induction e with
  | literal x =>
      rw [unsigned]
      split
      · next h => exact (text_zero he h).symm
      · rfl
  | constant c | var v => rfl
  | call f a ih => rw [unsigned, text_call, text_call, ih he]
  | call₂ f a b iha ihb => rw [unsigned, text_call₂, text_call₂, iha he.1, ihb he.2]
  | op o a b iha ihb => rw [unsigned, text_op, text_op, iha he.1, ihb he.2]

theorem legible_unsigned {e : Expr L} (he : e.Readable) : e.unsigned.Legible := by
  induction e with
  | literal x =>
      rw [unsigned]
      split
      · exact ⟨Literal.Zeros.finite_zero, fun _ => rfl⟩
      · next h => exact ⟨he, fun hzero => absurd hzero h⟩
  | constant c => trivial
  | var v => exact he
  | call f a ih => exact ih he
  | call₂ f a b iha ihb | op o a b iha ihb => exact ⟨iha he.1, ihb he.2⟩

theorem unsigned_eq_of_text [Literal.Legible L] {e f : Expr L} (he : e.Readable) (hf : f.Readable)
    (h : e.text = f.text) : e.unsigned = f.unsigned :=
  text_inj (legible_unsigned he) (legible_unsigned hf) (by rw [text_unsigned he, text_unsigned hf, h])

theorem text_eq_of_beq {e f : Expr L} (he : e.Readable) (hf : f.Readable) (h : (e == f) = true) :
    e.text = f.text := by
  change beq e f = true at h
  induction e generalizing f with
  | literal x =>
      cases f with
      | literal y =>
          rcases Literal.Zeros.eq_or_zeros x y he hf h with rfl | ⟨hx, hy⟩
          · rfl
          · rw [text_zero he hx, text_zero hf hy]
      | _ => cases h
  | constant c =>
      cases f with
      | constant d => rw [eq_of_beq (a := c) (b := d) h]
      | _ => cases h
  | var v =>
      cases f with
      | var w => rw [eq_of_beq (a := v) (b := w) h]
      | _ => cases h
  | call g a ih =>
      cases f with
      | call k b =>
          simp only [beq, Bool.and_eq_true, beq_iff_eq] at h
          rw [text_call, text_call, h.1, ih (f := b) he hf h.2]
      | _ => cases h
  | call₂ g a b iha ihb =>
      cases f with
      | call₂ k c d =>
          simp only [beq, Bool.and_eq_true, beq_iff_eq] at h
          rw [text_call₂, text_call₂, h.1.1, iha he.1 hf.1 h.1.2, ihb he.2 hf.2 h.2]
      | _ => cases h
  | op o a b iha ihb =>
      cases f with
      | op p c d =>
          simp only [beq, Bool.and_eq_true, beq_iff_eq] at h
          rw [text_op, text_op, h.1.1, iha he.1 hf.1 h.1.2, ihb he.2 hf.2 h.2]
      | _ => cases h

end Expr

end FlowShader
