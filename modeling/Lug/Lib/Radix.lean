import Mathlib.Data.List.Induction
import Mathlib.Tactic.Ring

/-!
Hexadecimal numerals: read in either case, written in lower case and padded to a width.
-/

namespace Radix

/-- The value of a hexadecimal digit, in either case. -/
def hexDigit (c : Char) : Option ℕ :=
  if 48 ≤ c.toNat ∧ c.toNat ≤ 57 then some (c.toNat - 48)
  else if 97 ≤ c.toNat ∧ c.toNat ≤ 102 then some (c.toNat - 87)
  else if 65 ≤ c.toNat ∧ c.toNat ≤ 70 then some (c.toNat - 55)
  else none

/-- The digits behind a number that was read so far. -/
def hexFrom : ℕ → List Char → Option ℕ
  | n, [] => some n
  | n, c :: cs => (hexDigit c).bind fun d => hexFrom (16 * n + d) cs

def hexNumber : List Char → Option ℕ
  | [] => none
  | c :: cs => hexFrom 0 (c :: cs)

/-- `from_str_radix` to the base 16, of an unsigned type with `bound` values. A plus sign
may stand in front of the digits. -/
def fromStrRadix (bound : ℕ) : List Char → Option ℕ
  | '+' :: c :: cs => (hexNumber (c :: cs)).filter (· < bound)
  | cs => (hexNumber cs).filter (· < bound)

/-- A digit in lower case. -/
def hexChar (d : ℕ) : Char := if d < 10 then Char.ofNat (48 + d) else Char.ofNat (87 + d)

/-- The last `k` digits of a number, the highest first. -/
def hexDigits : ℕ → ℕ → List Char
  | 0, _ => []
  | k + 1, n => hexDigits k (n / 16) ++ [hexChar (n % 16)]

/-- A digit, but none in upper case. -/
def Plain (c : Char) : Prop := (hexDigit c).isSome = true ∧ ¬(65 ≤ c.toNat ∧ c.toNat ≤ 70)

instance (c : Char) : Decidable (Plain c) := inferInstanceAs (Decidable (_ ∧ _))

@[simp] theorem length_hexDigits (k n : ℕ) : (hexDigits k n).length = k := by
  induction k generalizing n with
  | zero => rfl
  | succ k ih => rw [hexDigits, List.length_append, ih, List.length_singleton]

theorem hexDigit_hexChar {d : ℕ} (h : d < 16) : hexDigit (hexChar d) = some d := by
  have hall : ∀ d, d < 16 → hexDigit (hexChar d) = some d := by decide
  exact hall d h

theorem plain_hexChar {d : ℕ} (h : d < 16) : Plain (hexChar d) := by
  have hall : ∀ d, d < 16 → Plain (hexChar d) := by decide
  exact hall d h

/-- Digits are digits and letters of ASCII. -/
theorem toNat_of_hexDigit {c : Char} (h : (hexDigit c).isSome = true) :
    (48 ≤ c.toNat ∧ c.toNat ≤ 57) ∨ (97 ≤ c.toNat ∧ c.toNat ≤ 102) ∨
      65 ≤ c.toNat ∧ c.toNat ≤ 70 := by
  rw [hexDigit] at h
  split_ifs at h with hdecimal hlower hupper
  · exact .inl hdecimal
  · exact .inr (.inl hlower)
  · exact .inr (.inr hupper)
  · cases h

/-- A plain digit is the one its value is written with. -/
theorem hexChar_of_hexDigit {c : Char} {d : ℕ} (h : hexDigit c = some d) (hplain : Plain c) :
    d < 16 ∧ hexChar d = c := by
  have hupper := hplain.2
  rw [hexDigit] at h
  rw [hexChar]
  split_ifs at h with hdecimal hletter
  · cases h
    refine ⟨by omega, ?_⟩
    rw [if_pos (by omega), show 48 + (c.toNat - 48) = c.toNat by omega, Char.ofNat_toNat]
  · cases h
    refine ⟨by omega, ?_⟩
    rw [if_neg (by omega), show 87 + (c.toNat - 87) = c.toNat by omega, Char.ofNat_toNat]

theorem hexFrom_append (n : ℕ) (xs ys : List Char) :
    hexFrom n (xs ++ ys) = (hexFrom n xs).bind fun m => hexFrom m ys := by
  induction xs generalizing n with
  | nil => rfl
  | cons x xs ih =>
      rw [List.cons_append, hexFrom, hexFrom, Option.bind_assoc]
      cases hexDigit x with
      | none => rfl
      | some d => exact ih _

theorem isSome_of_hexFrom {n m : ℕ} {cs : List Char} (h : hexFrom n cs = some m) :
    ∀ c ∈ cs, (hexDigit c).isSome = true := by
  induction cs generalizing n with
  | nil => exact nofun
  | cons c cs ih =>
      obtain ⟨d, hd, hrest⟩ := Option.bind_eq_some_iff.mp h
      intro c' hc'
      cases hc' with
      | head => exact Option.isSome_of_eq_some hd
      | tail _ hmem => exact ih hrest c' hmem

theorem ne_nil_of_hexNumber {n : ℕ} {cs : List Char} (h : hexNumber cs = some n) : cs ≠ [] := by
  intro hnil
  rw [hnil] at h
  cases h

theorem isSome_of_hexNumber {n : ℕ} {cs : List Char} (h : hexNumber cs = some n) :
    ∀ c ∈ cs, (hexDigit c).isSome = true := by
  cases cs with
  | nil => exact nofun
  | cons c cs => exact isSome_of_hexFrom h

/-- A numeral without a sign is read for its number. -/
theorem fromStrRadix_of_hexNumber {bound n : ℕ} {cs : List Char} (h : hexNumber cs = some n)
    (hn : n < bound) : fromStrRadix bound cs = some n := by
  have hdigits := isSome_of_hexNumber h
  have hsign : cs.head? ≠ some '+' := by
    intro hhead
    cases hdigits '+' (List.mem_of_head? hhead)
  rw [fromStrRadix]
  · rw [h]
    exact Option.filter_some_pos (decide_eq_true hn)
  · intro c cs' hcs
    rw [hcs] at hsign
    exact hsign rfl

/-- Without a sign in front it is a numeral. -/
theorem hexNumber_of_fromStrRadix {bound n : ℕ} {cs : List Char}
    (h : fromStrRadix bound cs = some n) (hsign : cs.head? ≠ some '+') :
    hexNumber cs = some n := by
  unfold fromStrRadix at h
  split at h
  · exact absurd rfl hsign
  · exact (Option.filter_eq_some_iff.mp h).1

theorem plain_of_mem {k n : ℕ} {c : Char} (hc : c ∈ hexDigits k n) : Plain c := by
  induction k generalizing n with
  | zero => cases hc
  | succ k ih =>
      obtain hfirst | hlast := List.mem_append.mp hc
      · exact ih hfirst
      · rw [List.mem_singleton.mp hlast]
        exact plain_hexChar (Nat.mod_lt _ (by decide))

theorem hexFrom_hexDigits (k m n : ℕ) :
    hexFrom m (hexDigits k n) = some (16 ^ k * m + n % 16 ^ k) := by
  induction k generalizing m n with
  | zero => rw [hexDigits, hexFrom, pow_zero, one_mul, Nat.mod_one, Nat.add_zero]
  | succ k ih =>
      have hdigit : hexDigit (hexChar (n % 16)) = some (n % 16) :=
        hexDigit_hexChar (Nat.mod_lt _ (by decide))
      have hvalue : 16 * (16 ^ k * m + n / 16 % 16 ^ k) + n % 16 =
          16 ^ (k + 1) * m + n % 16 ^ (k + 1) := by
        rw [pow_succ', Nat.mod_mul (a := 16)]
        ring
      rw [hexDigits, hexFrom_append, ih]
      show (hexDigit _).bind _ = _
      rw [hdigit]
      exact congrArg some hvalue

/-- What was written is read back. -/
theorem hexNumber_hexDigits {k n : ℕ} (hk : 0 < k) (hn : n < 16 ^ k) :
    hexNumber (hexDigits k n) = some n := by
  have hread := hexFrom_hexDigits k 0 n
  rw [Nat.mul_zero, Nat.zero_add, Nat.mod_eq_of_lt hn] at hread
  cases hdigits : hexDigits k n with
  | nil =>
      have hlength := length_hexDigits k n
      rw [hdigits, List.length_nil] at hlength
      omega
  | cons c cs =>
      rw [← hread, hdigits]
      rfl

theorem hexFrom_eq_some {n m : ℕ} {cs : List Char} (h : hexFrom n cs = some m)
    (hplain : ∀ c ∈ cs, Plain c) :
    m < 16 ^ cs.length * (n + 1) ∧ cs = hexDigits cs.length m ∧ m / 16 ^ cs.length = n := by
  induction cs using List.reverseRecOn generalizing m with
  | nil =>
      cases h
      refine ⟨?_, rfl, ?_⟩
      · rw [List.length_nil, pow_zero]
        omega
      · rw [List.length_nil, pow_zero, Nat.div_one]
  | append_singleton cs c ih =>
      rw [hexFrom_append] at h
      obtain ⟨k, hk, hlast⟩ := Option.bind_eq_some_iff.mp h
      obtain ⟨d, hd, hlast⟩ := Option.bind_eq_some_iff.mp hlast
      cases hlast
      obtain ⟨hlt, hchar⟩ := hexChar_of_hexDigit hd (hplain c (by simp))
      obtain ⟨hbound, hdigits, hquot⟩ := ih hk fun c' hc' =>
        hplain c' (List.mem_append_left _ hc')
      have hdiv : (16 * k + d) / 16 = k := by omega
      have hmod : (16 * k + d) % 16 = d := by omega
      rw [List.length_append, List.length_singleton]
      refine ⟨?_, ?_, ?_⟩
      · rw [pow_succ]
        have : 16 * (k + 1) ≤ 16 * (16 ^ cs.length * (n + 1)) := Nat.mul_le_mul_left _ hbound
        calc 16 * k + d < 16 * (k + 1) := by omega
          _ ≤ 16 * (16 ^ cs.length * (n + 1)) := this
          _ = 16 ^ cs.length * 16 * (n + 1) := by ring
      · rw [hexDigits, hdiv, hmod, hchar, ← hdigits]
      · rw [pow_succ', ← Nat.div_div_eq_div_mul, hdiv, hquot]

/-- A numeral of `k` plain digits is how its number is written with `k` digits. -/
theorem hexDigits_of_hexNumber {n : ℕ} {cs : List Char} (h : hexNumber cs = some n)
    (hplain : ∀ c ∈ cs, Plain c) : cs = hexDigits cs.length n := by
  cases cs with
  | nil => cases h
  | cons c cs => exact (hexFrom_eq_some h hplain).2.1

end Radix
