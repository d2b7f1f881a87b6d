import FlowShader.Expr.Layer
import FlowShader.Proofs.Scalar.Real

namespace FlowShader

namespace Layer

variable {L α β γ : Type}

theorem map_map (f : α → β) (g : β → γ) (n : Layer L α) :
    (n.map f).map g = n.map (g ∘ f) := by
  cases n <;> rfl

theorem map_congr {f g : α → β} {n : Layer L α} (h : ∀ a ∈ n.parts, f a = g a) :
    n.map f = n.map g := by
  cases n <;> simp_all [map, parts]

theorem parts_map (f : α → β) (n : Layer L α) : (n.map f).parts = n.parts.map f := by
  cases n <;> rfl

end Layer

variable {L : Type} [Literal L]

namespace Expr

/-- The formula and all its parts are defined, and its value is `x`. Only finite literals have values. -/
inductive HasValue (ρ : Valuation L ℝ) : Expr L → ℝ → Prop
  | literal {x : L} : Literal.isFinite x = true → HasValue ρ (literal x) (ρ.literal x)
  | constant {c : Constant} : HasValue ρ (constant c) c.value
  | var {v : String} {x : ℝ} : ρ.binding v = some x → HasValue ρ (var v) x
  | call {f : Func} {a : Expr L} {x : ℝ} : HasValue ρ a x → f.Defined x → HasValue ρ (call f a) (f.apply x)
  | call₂ {f : BiFunc} {a b : Expr L} {x y : ℝ} : HasValue ρ a x → HasValue ρ b y →
      HasValue ρ (call₂ f a b) (f.apply x y)
  | op {o : Operator} {a b : Expr L} {x y : ℝ} : HasValue ρ a x → HasValue ρ b y → o.Defined x y →
      HasValue ρ (op o a b) (o.apply x y)

variable {ρ ρ' : Valuation L ℝ} {e : Expr L} {x y : ℝ}

/-- The value is the one that evaluation gives. -/
theorem HasValue.eval (h : HasValue ρ e x) : e.eval ρ = .ok x := by
  induction h with
  | literal _ | constant => rfl
  | var h => rw [Expr.eval, h]
  | call _ _ ih =>
      rw [Expr.eval, ih]
      rfl
  | call₂ _ _ iha ihb | op _ _ _ iha ihb =>
      rw [Expr.eval, iha, ihb]
      rfl

theorem HasValue.unique (h : HasValue ρ e x) (h' : HasValue ρ e y) : x = y := by
  have heq := h.eval.symm.trans h'.eval
  rwa [Except.ok.injEq] at heq

theorem HasValue.bound (h : HasValue ρ e x) : ∀ v ∈ e.names, ∃ z, ρ.binding v = some z := by
  induction h with
  | literal _ | constant => simp [names]
  | var h => simpa [names] using ⟨_, h⟩
  | call _ _ ih => exact ih
  | call₂ _ _ iha ihb | op _ _ _ iha ihb => exact fun v hv => (List.mem_append.1 hv).elim (iha v) (ihb v)

theorem HasValue.mono (h : HasValue ρ e x) (hl : ρ'.literal = ρ.literal)
    (hb : ∀ v ∈ e.names, ∀ z, ρ.binding v = some z → ρ'.binding v = some z) : HasValue ρ' e x := by
  induction h with
  | literal hx => exact hl ▸ .literal hx
  | constant => exact .constant
  | var h => exact .var (hb _ (by simp [names]) _ h)
  | call _ hf ih => exact .call (ih hb) hf
  | call₂ _ _ iha ihb =>
      exact .call₂ (iha fun v hv => hb v (by simp [names, hv])) (ihb fun v hv => hb v (by simp [names, hv]))
  | op _ _ ho iha ihb =>
      exact .op (iha fun v hv => hb v (by simp [names, hv])) (ihb fun v hv => hb v (by simp [names, hv])) ho

end Expr

namespace Layer

def HasValue (ρ : Valuation L ℝ) : Layer L ℝ → ℝ → Prop
  | literal y, x => Literal.isFinite y = true ∧ x = ρ.literal y
  | constant c, x => x = c.value
  | var v, x => ρ.binding v = some x
  | call f a, x => f.Defined a ∧ x = f.apply a
  | call₂ f a b, x => x = f.apply a b
  | op o a b, x => o.Defined a b ∧ x = o.apply a b

variable {ρ : Valuation L ℝ} {x y : ℝ}

theorem HasValue.unique {n : Layer L ℝ} (h : n.HasValue ρ x) (h' : n.HasValue ρ y) : x = y := by
  cases n with
  | literal | call | op => exact h.2.trans h'.2.symm
  | constant | call₂ => exact h.trans h'.symm
  | var v => exact Option.some.inj (h.symm.trans h')

theorem HasValue.toExpr {n : Layer L Nat} {tree : Nat → Option (Expr L)} {ν : Nat → ℝ} {m : Layer L (Expr L)}
    (htree : ∀ i e, tree i = some e → e.HasValue ρ (ν i)) (hm : (n.map tree).sequence? = some m)
    (h : (n.map ν).HasValue ρ x) : m.toExpr.HasValue ρ x := by
  cases n with
  | literal y =>
      obtain rfl := Option.some.inj hm
      obtain ⟨hy, rfl⟩ := h
      exact .literal hy
  | constant c =>
      obtain rfl := Option.some.inj hm
      obtain rfl : x = c.value := h
      exact .constant
  | var v =>
      obtain rfl := Option.some.inj hm
      exact .var h
  | call f i =>
      obtain ⟨a, ha, rfl⟩ := Option.map_eq_some_iff.1 hm
      obtain ⟨hf, rfl⟩ := h
      exact .call (htree i a ha) hf
  | call₂ f i j =>
      obtain ⟨a, ha, hm⟩ := Option.bind_eq_some_iff.1 hm
      obtain ⟨b, hb, rfl⟩ := Option.map_eq_some_iff.1 hm
      obtain rfl : x = f.apply (ν i) (ν j) := h
      exact .call₂ (htree i a ha) (htree j b hb)
  | op o i j =>
      obtain ⟨a, ha, hm⟩ := Option.bind_eq_some_iff.1 hm
      obtain ⟨b, hb, rfl⟩ := Option.map_eq_some_iff.1 hm
      obtain ⟨ho, rfl⟩ := h
      exact .op (htree i a ha) (htree j b hb) ho

theorem HasValue.fold? {n : Layer L Nat} {known : Nat → Option L} {ν : Nat → ℝ} {z : L}
    (hexact : Literal.Exact ρ.literal)
    (hknown : ∀ i y, known i = some y → Literal.isFinite y = true ∧ ρ.literal y = ν i)
    (h : (n.map ν).HasValue ρ x) (hz : (n.map known).fold? = some z) :
    Literal.isFinite z = true ∧ ρ.literal z = x := by
  have hfinite {u : L} (hu : finite? u = some z) : Literal.isFinite u = true ∧ u = z := by
    unfold finite? at hu
    split at hu
    · next hf => exact ⟨hf, Option.some.inj hu⟩
    · cases hu
  cases n with
  | literal y =>
      obtain rfl := Option.some.inj hz
      exact ⟨h.1, h.2.symm⟩
  | constant c =>
      obtain ⟨hf, rfl⟩ := hfinite hz
      exact ⟨hf, (hexact.constant c).trans h.symm⟩
  | var v => cases hz
  | call f i =>
      obtain ⟨a, ha, hz⟩ := Option.bind_eq_some_iff.1 hz
      obtain ⟨hf, rfl⟩ := hfinite hz
      obtain ⟨hfa, hva⟩ := hknown i a ha
      obtain ⟨hdom, rfl⟩ := h
      rw [← hva] at hdom ⊢
      exact ⟨hf, hexact.func f a hfa hf hdom⟩
  | call₂ f i j =>
      obtain ⟨a, ha, hz⟩ := Option.bind_eq_some_iff.1 hz
      obtain ⟨b, hb, hz⟩ := Option.bind_eq_some_iff.1 hz
      obtain ⟨hf, rfl⟩ := hfinite hz
      obtain ⟨hfa, hva⟩ := hknown i a ha
      obtain ⟨hfb, hvb⟩ := hknown j b hb
      obtain rfl : x = f.apply (ν i) (ν j) := h
      rw [← hva, ← hvb]
      exact ⟨hf, hexact.biFunc f a b hfa hfb hf⟩
  | op o i j =>
      obtain ⟨a, ha, hz⟩ := Option.bind_eq_some_iff.1 hz
      obtain ⟨b, hb, hz⟩ := Option.bind_eq_some_iff.1 hz
      obtain ⟨hf, rfl⟩ := hfinite hz
      obtain ⟨hfa, hva⟩ := hknown i a ha
      obtain ⟨hfb, hvb⟩ := hknown j b hb
      obtain ⟨hdom, rfl⟩ := h
      rw [← hva, ← hvb] at hdom ⊢
      exact ⟨hf, hexact.operator o a b hfa hfb hf hdom⟩

end Layer

end FlowShader
