import Mathlib.Order.Basic

/-!
Programs over a state that may fail and may be killed on the way. However a
program ends, it leaves its state behind: a failure can be caught and a kill
cannot.
-/

namespace Faulty

variable {σ ε α β : Type}

/-- How a program ends. -/
inductive Exit (ε α : Type)
  | ok (a : α)
  | error (e : ε)
  | died

namespace Exit

variable {ε' : Type}

def mapError (f : ε → ε') : Exit ε α → Exit ε' α
  | .ok a => .ok a
  | .error e => .error (f e)
  | .died => .died

/-- The failure handed on as a value. -/
def attempt : Exit ε α → Exit ε' (Except ε α)
  | .ok a => .ok (.ok a)
  | .error e => .ok (.error e)
  | .died => .died

def isOk : Exit ε α → Bool
  | .ok _ => true
  | _ => false

theorem eq_ok {x : Exit ε Unit} (h : x.isOk = true) : x = .ok () := by
  cases x with
  | ok u => rfl
  | error e => cases h
  | died => cases h

theorem exists_of_isOk {x : Exit ε α} (h : x.isOk = true) : ∃ a, x = .ok a := by
  cases x with
  | ok a => exact ⟨a, rfl⟩
  | error e => cases h
  | died => cases h

/-- Whoever called the program is still there. -/
def survived : Exit ε α → Bool
  | .died => false
  | _ => true

end Exit

def Act (σ ε α : Type) : Type := σ → Exit ε α × σ

namespace Act

def pure (a : α) : Act σ ε α := fun s => (.ok a, s)

def bind (m : Act σ ε α) (f : α → Act σ ε β) : Act σ ε β := fun s =>
  match m s with
  | (.ok a, s') => f a s'
  | (.error e, s') => (.error e, s')
  | (.died, s') => (.died, s')

instance : Monad (Act σ ε) where
  pure := pure
  bind := bind

def throw (e : ε) : Act σ ε α := fun s => (.error e, s)

def die : Act σ ε α := fun s => (.died, s)

def get : Act σ ε σ := fun s => (.ok s, s)

def modify (f : σ → σ) : Act σ ε Unit := fun s => (.ok (), f s)

/-- A result that was computed without the state. -/
def lift (r : Except ε α) : Act σ ε α := fun s =>
  match r with
  | .ok a => (.ok a, s)
  | .error e => (.error e, s)

/-- Runs `m` and hands its failure on as a value. -/
def attempt {ε' : Type} (m : Act σ ε α) : Act σ ε' (Except ε α) := fun s =>
  ((m s).1.attempt, (m s).2)

/-- The same program under another name for its failures. -/
def mapError {ε' : Type} (f : ε → ε') (m : Act σ ε α) : Act σ ε' α := fun s =>
  ((m s).1.mapError f, (m s).2)

/-- A program over a part of the state. -/
def on {τ : Type} (part : σ → τ) (put : τ → σ → σ) (m : Act τ ε α) : Act σ ε α := fun s =>
  ((m (part s)).1, put (m (part s)).2 s)

end Act

/-! ### Rules

`Ends m Q s` says of the run of `m` from `s` that the way it ends and the state
it leaves satisfy `Q`. -/

def Ends (m : Act σ ε α) (Q : Exit ε α → σ → Prop) (s : σ) : Prop := Q (m s).1 (m s).2

/-- What is left to show of `m >>= f` where `m` ends. -/
def after (f : α → Act σ ε β) (Q : Exit ε β → σ → Prop) : Exit ε α → σ → Prop
  | .ok a, s => Ends (f a) Q s
  | .error e, s => Q (.error e) s
  | .died, s => Q .died s

section Rules

variable {Q R : Exit ε α → σ → Prop} {s : σ}

@[simp] theorem ends_pure {a : α} : Ends (pure a) Q s ↔ Q (.ok a) s := Iff.rfl

@[simp] theorem ends_throw {e : ε} : Ends (Act.throw e) Q s ↔ Q (.error e) s := Iff.rfl

@[simp] theorem ends_die : Ends Act.die Q s ↔ Q .died s := Iff.rfl

@[simp] theorem ends_get {Q : Exit ε σ → σ → Prop} : Ends Act.get Q s ↔ Q (.ok s) s := Iff.rfl

@[simp] theorem ends_modify {Q : Exit ε Unit → σ → Prop} {f : σ → σ} :
    Ends (Act.modify f) Q s ↔ Q (.ok ()) (f s) := Iff.rfl

@[simp] theorem ends_lift_ok {a : α} : Ends (Act.lift (.ok a)) Q s ↔ Q (.ok a) s := Iff.rfl

@[simp] theorem ends_lift_error {e : ε} : Ends (Act.lift (.error e)) Q s ↔ Q (.error e) s :=
  Iff.rfl

theorem ends_bind {m : Act σ ε α} {f : α → Act σ ε β} {Q : Exit ε β → σ → Prop} :
    Ends (m >>= f) Q s ↔ Ends m (after f Q) s := by
  show Q (Act.bind m f s).1 (Act.bind m f s).2 ↔ after f Q (m s).1 (m s).2
  rw [Act.bind]
  obtain ⟨x, s'⟩ := m s
  cases x <;> rfl

@[simp] theorem after_ok {f : α → Act σ ε β} {Q : Exit ε β → σ → Prop} {a : α} :
    after f Q (.ok a) s ↔ Ends (f a) Q s := Iff.rfl

@[simp] theorem after_error {f : α → Act σ ε β} {Q : Exit ε β → σ → Prop} {e : ε} :
    after f Q (.error e) s ↔ Q (.error e) s := Iff.rfl

@[simp] theorem after_died {f : α → Act σ ε β} {Q : Exit ε β → σ → Prop} :
    after f Q .died s ↔ Q .died s := Iff.rfl

@[simp] theorem ends_attempt {ε' : Type} {m : Act σ ε α} {Q : Exit ε' (Except ε α) → σ → Prop} :
    Ends m.attempt Q s ↔ Ends m (fun x => Q x.attempt) s := Iff.rfl

@[simp] theorem ends_mapError {ε' : Type} {f : ε → ε'} {m : Act σ ε α} {Q : Exit ε' α → σ → Prop} :
    Ends (m.mapError f) Q s ↔ Ends m (fun x => Q (x.mapError f)) s := Iff.rfl

@[simp] theorem ends_on {τ : Type} {part : σ → τ} {put : τ → σ → σ} {m : Act τ ε α} :
    Ends (m.on part put) Q s ↔ Ends m (fun x t => Q x (put t s)) (part s) := Iff.rfl

/-- A weaker claim about a run follows from a stronger one. -/
theorem Ends.mono {m : Act σ ε α} (h : Ends m Q s) (hQ : ∀ x s', Q x s' → R x s') :
    Ends m R s := hQ _ _ h

theorem Ends.and {m : Act σ ε α} (h : Ends m Q s) (h' : Ends m R s) :
    Ends m (fun x s' => Q x s' ∧ R x s') s := ⟨h, h'⟩

/-- The rule for a sequence of two programs, with what holds in between. -/
theorem Ends.bind {m : Act σ ε α} {f : α → Act σ ε β} {Q : Exit ε β → σ → Prop}
    (h : Ends m R s) (hf : ∀ x s', R x s' → after f Q x s') : Ends (m >>= f) Q s :=
  ends_bind.mpr (h.mono hf)

end Rules

/-! ### Results computed without faults -/

/-- A run that follows a pure result: it gives that result, unless it did not go
calmly. -/
def Follows (calm : Prop) : Exit ε α → Except ε α → Prop
  | .ok a, r => r = .ok a
  | .error e, r => r = .error e ∨ ¬calm
  | .died, _ => ¬calm

theorem Follows.ok {calm : Prop} {x : Exit ε α} {a : α} (h : Follows calm x (.ok a))
    (hcalm : calm) : x = .ok a := by
  cases x with
  | ok a' => rw [Except.ok.inj h]
  | error e => exact absurd hcalm (h.resolve_left nofun)
  | died => exact absurd hcalm h

theorem Follows.error {calm : Prop} {x : Exit ε α} {e : ε} (h : Follows calm x (.error e))
    (hcalm : calm) : x = .error e := by
  cases x with
  | ok a => cases h
  | error e' =>
      cases h with
      | inl he => rw [Except.error.inj he]
      | inr hn => exact absurd hcalm hn
  | died => exact absurd hcalm h

end Faulty
