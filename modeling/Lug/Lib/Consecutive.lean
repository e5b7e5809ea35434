import Mathlib.Data.List.Range
import Mathlib.Data.List.Basic
import Mathlib.Data.List.DropRight

/-!
Lists whose elements carry consecutive numbers: the general shape of a log, of a
buffer holding the end of one, and of everything read back from either.
-/

namespace Runs

variable {α β : Type*} {f : α → ℕ} {g : β → ℕ}

/-- The numbers of the list are `n`, `n + 1`, and so on. -/
def Consecutive (f : α → ℕ) : ℕ → List α → Prop
  | _, [] => True
  | n, x :: xs => f x = n ∧ Consecutive f (n + 1) xs

@[simp] theorem consecutive_nil (n : ℕ) : Consecutive f n [] := trivial

@[simp] theorem consecutive_cons {n : ℕ} {x : α} {xs : List α} :
    Consecutive f n (x :: xs) ↔ f x = n ∧ Consecutive f (n + 1) xs :=
  Iff.rfl

theorem consecutive_iff_map {n : ℕ} {xs : List α} :
    Consecutive f n xs ↔ xs.map f = List.range' n xs.length := by
  induction xs generalizing n with
  | nil => simp
  | cons x xs ih =>
      rw [consecutive_cons, ih, List.map_cons, List.length_cons, List.range'_succ,
        List.cons.injEq]

theorem consecutive_append {n : ℕ} {xs ys : List α} :
    Consecutive f n (xs ++ ys) ↔
      Consecutive f n xs ∧ Consecutive f (n + xs.length) ys := by
  induction xs generalizing n with
  | nil => simp
  | cons x xs ih =>
      rw [List.cons_append, consecutive_cons, ih, consecutive_cons, and_assoc,
        List.length_cons, show n + 1 + xs.length = n + (xs.length + 1) by omega]

namespace Consecutive

variable {n : ℕ} {xs ys : List α}

theorem take (h : Consecutive f n xs) (k : ℕ) : Consecutive f n (xs.take k) := by
  rw [← List.take_append_drop k xs, consecutive_append] at h
  exact h.1

theorem drop (h : Consecutive f n xs) (k : ℕ) : Consecutive f (n + k) (xs.drop k) := by
  by_cases hk : k ≤ xs.length
  · have hsplit := h
    rw [← List.take_append_drop k xs, consecutive_append, List.length_take,
      Nat.min_eq_left hk] at hsplit
    exact hsplit.2
  · rw [List.drop_eq_nil_of_le (by omega)]
    trivial

theorem rtake (h : Consecutive f n xs) (k : ℕ) :
    Consecutive f (n + (xs.length - k)) (xs.rtake k) :=
  h.drop _

theorem of_prefix (h : Consecutive f n xs) (hp : ys <+: xs) : Consecutive f n ys := by
  obtain ⟨zs, rfl⟩ := hp
  exact (consecutive_append.mp h).1

theorem bounds (h : Consecutive f n xs) {x : α} (hx : x ∈ xs) :
    n ≤ f x ∧ f x < n + xs.length := by
  induction xs generalizing n with
  | nil => cases hx
  | cons y xs ih =>
      obtain ⟨hy, hrest⟩ := h
      rw [List.length_cons]
      cases hx with
      | head => omega
      | tail _ hx =>
          have hbounds := ih hrest hx
          omega

/-- Each number is there once. -/
theorem eq_of_eq (h : Consecutive f n xs) {x y : α} (hx : x ∈ xs) (hy : y ∈ xs)
    (heq : f x = f y) : x = y := by
  induction xs generalizing n with
  | nil => cases hx
  | cons z zs ih =>
      obtain ⟨hz, hrest⟩ := consecutive_cons.mp h
      have hlater : ∀ w ∈ zs, f z < f w := fun w hw => by
        have hbounds := hrest.bounds hw
        omega
      cases hx with
      | head =>
          cases hy with
          | head => rfl
          | tail _ hy => exact absurd heq (hlater y hy).ne
      | tail _ hx =>
          cases hy with
          | head => exact absurd heq (hlater x hx).ne'
          | tail _ hy => exact ih hrest hx hy

theorem head_eq (h : Consecutive f n xs) {x : α} (hx : xs.head? = some x) : f x = n := by
  cases xs with
  | nil => cases hx
  | cons y xs =>
      obtain rfl : y = x := by simpa using hx
      exact h.1

theorem last_eq (h : Consecutive f n xs) {x : α} (hx : xs.getLast? = some x) :
    f x + 1 = n + xs.length := by
  obtain ⟨ys, rfl⟩ := List.getLast?_eq_some_iff.mp hx
  obtain ⟨-, hlast, -⟩ := consecutive_append.mp h
  rw [List.length_append, List.length_singleton]
  omega

/-- Reading above a number is dropping what stands at or below it. -/
theorem filter_lt (h : Consecutive f n xs) (k : ℕ) :
    xs.filter (fun x => decide (k < f x)) = xs.drop (k + 1 - n) := by
  induction xs generalizing n with
  | nil => simp
  | cons x xs ih =>
      obtain ⟨hx, hrest⟩ := h
      by_cases hk : k < f x
      · have hall : ∀ y ∈ xs, decide (k < f y) = true := by
          intro y hy
          have hy' := (hrest.bounds hy).1
          exact decide_eq_true (by omega)
        rw [List.filter_cons, if_pos (decide_eq_true hk), List.filter_eq_self.mpr hall,
          show k + 1 - n = 0 by omega, List.drop_zero]
      · rw [List.filter_cons, if_neg (by simpa using hk), ih hrest,
          show k + 1 - n = (k + 1 - (n + 1)) + 1 by omega, List.drop_succ_cons]

/-- Lists that agree on their numbers are consecutive together. -/
theorem of_forall₂ {zs : List β} (h : Consecutive f n xs)
    (hz : List.Forall₂ (fun z x => g z = f x) zs xs) : Consecutive g n zs := by
  induction hz generalizing n with
  | nil => trivial
  | cons hhead _ ih =>
      obtain ⟨hx, hrest⟩ := h
      exact ⟨hhead.trans hx, ih hrest⟩

end Consecutive

/-- Keeping the last `n` elements after each of two extensions is keeping them
once. -/
theorem rtake_rtake_append (xs ys : List α) (n : ℕ) :
    (xs.rtake n ++ ys).rtake n = (xs ++ ys).rtake n := by
  simp only [List.rtake, List.length_append, List.length_drop]
  by_cases h : xs.length ≤ n
  · rw [show xs.length - n = 0 by omega, List.drop_zero, Nat.sub_zero]
  · rw [← List.drop_append_of_le_length (by omega), List.drop_drop]
    congr 1
    omega

/-- Increasing numbers from `n` on, of which the last is as large as their number asks. -/
theorem eq_range'_of_getLast {n : ℕ} {xs : List ℕ} (hsorted : xs.Pairwise (· < ·))
    (hfirst : ∀ x ∈ xs, n ≤ x) (hlast : ∀ z, xs.getLast? = some z → z + 1 = n + xs.length) :
    xs = List.range' n xs.length := by
  induction xs generalizing n with
  | nil => rfl
  | cons x xs ih =>
      obtain ⟨hx, hrest⟩ := List.pairwise_cons.mp hsorted
      have hle := hfirst x List.mem_cons_self
      cases xs with
      | nil =>
          have heq := hlast x rfl
          rw [List.length_singleton] at heq
          rw [List.length_singleton, List.range'_one, Nat.add_right_cancel heq]
      | cons y ys =>
          have htail := ih hrest (fun z hz => Nat.lt_of_le_of_lt hle (hx z hz)) fun z hz => by
            have heq := hlast z (by rw [List.getLast?_cons_cons]; exact hz)
            rw [heq, List.length_cons (a := x)]
            omega
          have hhead : y = n + 1 := by
            rw [List.length_cons, List.range'_succ] at htail
            exact (List.cons.inj htail).1
          have hxn : x = n := by
            have hxy := hx y List.mem_cons_self
            omega
          rw [List.length_cons, List.range'_succ, hxn, ← htail]

end Runs
