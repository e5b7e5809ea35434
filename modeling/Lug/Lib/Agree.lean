import Mathlib.Data.Option.Basic
import Mathlib.Logic.Relation

/-!
Fallible computations: what a success says about their parts, and two of them
side by side, which fail with the same error or both succeed with related
results.
-/

namespace Except

universe u v

variable {ε ε' : Type u} {α β : Type v}

theorem bind_eq_ok {x : Except ε α} {f : α → Except ε β} {b : β} :
    (x >>= f) = .ok b ↔ ∃ a, x = .ok a ∧ f a = .ok b := by
  cases x with
  | error e => exact ⟨nofun, by rintro ⟨a, h, -⟩; cases h⟩
  | ok a => exact ⟨fun h => ⟨a, rfl, h⟩, by rintro ⟨a', h, h'⟩; cases h; exact h'⟩

theorem map_eq_ok {x : Except ε α} {f : α → β} {b : β} :
    x.map f = .ok b ↔ ∃ a, x = .ok a ∧ f a = b := by
  cases x <;> simp [Except.map]

theorem mapError_eq_ok {x : Except ε α} {f : ε → ε'} {a : α} :
    x.mapError f = .ok a ↔ x = .ok a := by
  cases x <;> simp [Except.mapError]

end Except

/-- Same error, or results related by `R`. -/
inductive Agree {ε α β : Type*} (R : α → β → Prop) : Except ε α → Except ε β → Prop
  | error (e : ε) : Agree R (.error e) (.error e)
  | ok {a : α} {b : β} (h : R a b) : Agree R (.ok a) (.ok b)

namespace Agree

universe u v

variable {ε : Type u} {α β γ δ : Type v} {R : α → β → Prop}

theorem bind {Q : γ → δ → Prop} {x : Except ε α}
    {y : Except ε β} {f : α → Except ε γ} {g : β → Except ε δ} (h : Agree R x y)
    (hf : ∀ a b, R a b → Agree Q (f a) (g b)) : Agree Q (x >>= f) (y >>= g) := by
  cases h with
  | error e => exact .error e
  | ok hab => exact hf _ _ hab

theorem error_left {e : ε} {y : Except ε β} (h : Agree R (.error e) y) : y = .error e := by
  cases h
  rfl

theorem ok_left {a : α} {y : Except ε β} (h : Agree R (.ok a) y) : ∃ b, y = .ok b ∧ R a b := by
  cases h with
  | ok hab => exact ⟨_, rfl, hab⟩

theorem mono {Q : α → β → Prop} {x : Except ε α} {y : Except ε β} (h : Agree R x y)
    (himp : ∀ a b, R a b → Q a b) : Agree Q x y := by
  cases h with
  | error e => exact .error e
  | ok hab => exact .ok (himp _ _ hab)

theorem symm {x : Except ε α} {y : Except ε β} (h : Agree R x y) :
    Agree (fun b a => R a b) y x := by
  cases h with
  | error e => exact .error e
  | ok hab => exact .ok hab

theorem trans {Q : β → γ → Prop} {S : α → γ → Prop} {x : Except ε α} {y : Except ε β}
    {z : Except ε γ} (h : Agree R x y) (h' : Agree Q y z)
    (hcomp : ∀ a b c, R a b → Q b c → S a c) : Agree S x z := by
  cases h with
  | error e =>
      cases h'
      exact .error e
  | ok hab =>
      cases h' with
      | ok hbc => exact .ok (hcomp _ _ _ hab hbc)

end Agree

/-- Related options are present together. -/
theorem Option.Rel.isSome_eq {α β : Type*} {R : α → β → Prop} {x : Option α} {y : Option β}
    (h : Option.Rel R x y) : x.isSome = y.isSome := by
  cases h with
  | none => rfl
  | some _ => rfl
