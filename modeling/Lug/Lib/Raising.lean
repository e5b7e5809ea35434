import Lug.Lib.Faulty

/-!
Which errors a program may fail with, wherever it is started. A program raises what its
steps raise.
-/

namespace Faulty

variable {σ ε ε' τ α β : Type} {P Q : ε → Prop}

/-- Wherever `m` fails, it fails with an error in `P`. -/
def Raises (m : Act σ ε α) (P : ε → Prop) : Prop :=
  ∀ s, Ends m (fun x _ => ∀ e, x = .error e → P e) s

theorem Raises.mono {m : Act σ ε α} (h : Raises m P) (hPQ : ∀ e, P e → Q e) : Raises m Q :=
  fun s => (h s).mono fun _ _ hx e he => hPQ e (hx e he)

theorem raises_pure (a : α) : Raises (Pure.pure a : Act σ ε α) P := fun _ e he => by cases he

theorem raises_throw {e : ε} (h : P e) : Raises (Act.throw e : Act σ ε α) P := by
  intro s e' he
  cases he
  exact h

theorem raises_die : Raises (Act.die : Act σ ε α) P := fun _ e he => by cases he

theorem raises_get : Raises (Act.get : Act σ ε σ) P := fun _ e he => by cases he

theorem raises_modify (f : σ → σ) : Raises (Act.modify f : Act σ ε Unit) P :=
  fun _ e he => by cases he

theorem raises_lift {r : Except ε α} (h : ∀ e, r = .error e → P e) :
    Raises (Act.lift r : Act σ ε α) P := by
  intro s e he
  cases r with
  | ok a => cases he
  | error e' =>
      cases he
      exact h _ rfl

theorem raises_bind {m : Act σ ε α} {f : α → Act σ ε β} (hm : Raises m P)
    (hf : ∀ a, Raises (f a) P) : Raises (m >>= f) P := by
  intro s
  refine (hm s).bind fun x s' hx => ?_
  cases x with
  | ok a => exact hf a s'
  | error e =>
      intro e' he
      cases he
      exact hx e rfl
  | died => exact fun e he => by cases he

theorem raises_mapError {m : Act σ ε α} {f : ε → ε'} {P : ε' → Prop}
    (h : Raises m fun e => P (f e)) : Raises (m.mapError f) P := by
  intro s
  rw [ends_mapError]
  refine (h s).mono fun x s' hx e he => ?_
  cases x with
  | ok a => cases he
  | error e' =>
      cases he
      exact hx e' rfl
  | died => cases he

theorem raises_on {part : σ → τ} {put : τ → σ → σ} {m : Act τ ε α} (h : Raises m P) :
    Raises (m.on part put : Act σ ε α) P := by
  intro s
  rw [ends_on]
  exact h (part s)

/-- A sequence that succeeds succeeds step by step. -/
theorem exists_of_bind_ok {m : Act σ ε α} {f : α → Act σ ε β} {s : σ} {b : β}
    (h : ((m >>= f) s).1 = .ok b) : ∃ a s', m s = (.ok a, s') ∧ (f a s').1 = .ok b := by
  have h : (Act.bind m f s).1 = .ok b := h
  rw [Act.bind] at h
  rcases hm : m s with ⟨_ | _ | _, s'⟩
  · rw [hm] at h
    exact ⟨_, s', rfl, h⟩
  · rw [hm] at h
    cases h
  · rw [hm] at h
    cases h

end Faulty
