import Mathlib.Data.List.TakeWhile
import Lug.Wal.Store

/-!
The view the tests of the segment store use, a version and no more, with its JSON,
and the checksum of `crc32fast`: with these a store can be run.
-/

namespace Lug.Wal

open Octets

/-! ### The checksum -/

/-- One bit of the division by the reversed polynomial. -/
def crcBit (crc : UInt32) : UInt32 :=
  if crc &&& 1 = 1 then (crc >>> 1) ^^^ 0xEDB88320 else crc >>> 1

def crcByte (crc : UInt32) (b : UInt8) : UInt32 := crcBit^[8] (crc ^^^ b.toUInt32)

/-- CRC-32 as `crc32fast::hash` computes it. -/
@[reducible] def ieee : Crc32 := ⟨fun bytes => bytes.foldl crcByte 0xFFFFFFFF ^^^ 0xFFFFFFFF⟩

/-! ### Decimal numbers -/

/-- The digits of a number before those of `acc`. -/
def digits : ℕ → ℕ → Bytes → Bytes
  | 0, _, acc => acc
  | fuel + 1, n, acc =>
      let acc := (48 + n % 10).toUInt8 :: acc
      if n / 10 = 0 then acc else digits fuel (n / 10) acc

def decimal (n : ℕ) : Bytes := digits (n + 1) n []

def isDigit (b : UInt8) : Bool := decide (48 ≤ b.toNat ∧ b.toNat ≤ 57)

def number (bytes : Bytes) : ℕ := bytes.foldl (fun n b => 10 * n + (b.toNat - 48)) 0

theorem toNat_digit (n : ℕ) : ((48 + n % 10).toUInt8).toNat = 48 + n % 10 := by
  have hbyte : ((48 + n % 10).toUInt8).toNat = (48 + n % 10) % 256 := UInt8.toNat_ofNat'
  rw [hbyte]
  omega

theorem foldl_digits {fuel n : ℕ} (h : n < fuel) (acc : Bytes) :
    (digits fuel n acc).foldl (fun n b => 10 * n + (b.toNat - 48)) 0 =
      acc.foldl (fun n b => 10 * n + (b.toNat - 48)) n := by
  induction fuel generalizing n acc with
  | zero => omega
  | succ fuel ih =>
      have hlow : 10 * (n / 10) + (((48 + n % 10).toUInt8).toNat - 48) = n := by
        rw [toNat_digit]
        omega
      rw [digits]
      split_ifs with hzero
      · rw [hzero] at hlow
        rw [List.foldl_cons, hlow]
      · rw [ih (by omega), List.foldl_cons, hlow]

theorem number_decimal (n : ℕ) : number (decimal n) = n := foldl_digits (Nat.lt_succ_self n) []

theorem isDigit_digits {fuel n : ℕ} {acc : Bytes} (h : ∀ b ∈ acc, isDigit b = true) :
    ∀ b ∈ digits fuel n acc, isDigit b = true := by
  induction fuel generalizing n acc with
  | zero => exact h
  | succ fuel ih =>
      have hcons : ∀ b ∈ (48 + n % 10).toUInt8 :: acc, isDigit b = true := by
        intro b hb
        cases hb with
        | head => exact decide_eq_true (by rw [toNat_digit]; omega)
        | tail _ hb => exact h b hb
      rw [digits]
      split_ifs
      · exact hcons
      · exact ih hcons

theorem isDigit_decimal (n : ℕ) : ∀ b ∈ decimal n, isDigit b = true := isDigit_digits (by simp)

theorem takeWhile_decimal (n : ℕ) {b : UInt8} (hb : isDigit b = false) (rest : Bytes) :
    (decimal n ++ b :: rest).takeWhile isDigit = decimal n := by
  rw [List.takeWhile_append_of_pos (isDigit_decimal n), List.takeWhile_cons_of_neg (by simp [hb]),
    List.append_nil]

theorem dropWhile_decimal (n : ℕ) {b : UInt8} (hb : isDigit b = false) (rest : Bytes) :
    (decimal n ++ b :: rest).dropWhile isDigit = b :: rest := by
  rw [List.dropWhile_append_of_pos (isDigit_decimal n), List.dropWhile_cons_of_neg (by simp [hb])]

/-! ### The view -/

/-- `Mark`. -/
structure Mark where
  version : ℕ

instance : Versioned Mark := ⟨Mark.version, fun _ => .null⟩

/-- `{"version":` -/
def versionKey : Bytes := [123, 34, 118, 101, 114, 115, 105, 111, 110, 34, 58]

/-- `,"view":` -/
def viewKey : Bytes := [44, 34, 118, 105, 101, 119, 34, 58]

def headerText (version view : ℕ) : Bytes :=
  versionKey ++ (decimal version ++ (viewKey ++ (decimal view ++ [125])))

def readHeaderText (text : Bytes) : ℕ × ℕ :=
  let rest := text.drop versionKey.length
  (number (rest.takeWhile isDigit),
    number (((rest.dropWhile isDigit).drop viewKey.length).takeWhile isDigit))

theorem readHeaderText_headerText (version view : ℕ) :
    readHeaderText (headerText version view) = (version, view) := by
  have hcomma : viewKey ++ (decimal view ++ [125]) =
      44 :: (viewKey.tail ++ (decimal view ++ [125])) := rfl
  have hrest : (viewKey ++ (decimal view ++ [125])).drop viewKey.length = decimal view ++ [125] :=
    List.drop_left
  rw [readHeaderText, headerText, List.drop_left, hcomma, takeWhile_decimal version (by decide),
    dropWhile_decimal version (by decide), ← hcomma, hrest, takeWhile_decimal view (by decide),
    number_decimal, number_decimal]

instance : HeaderSerde Mark where
  toVec h := .ok (headerText h.version h.view.version)
  fromSlice text :=
    let read := readHeaderText text
    if headerText read.1 read.2 = text then .ok ⟨read.1, ⟨read.2⟩⟩ else .error "not a header"

instance : LawfulHeaderSerde Mark where
  fromSlice_toVec := by
    rintro ⟨version, ⟨view⟩⟩ json hjson
    cases hjson
    show (if _ then _ else _) = _
    rw [readHeaderText_headerText, if_pos rfl]
  fromSlice_take := by
    rintro ⟨version, ⟨view⟩⟩ json n hjson hn
    cases hjson
    -- a header ends with the one brace that closes it
    have hsplit : headerText version view =
        (versionKey ++ (decimal version ++ (viewKey ++ decimal view))) ++ [125] := by
      simp [headerText]
    have hopen : ∀ k, (125 : UInt8) ∉ decimal k := fun k hmem =>
      absurd (isDigit_decimal k 125 hmem) (by decide)
    have hnone : (125 : UInt8) ∉ versionKey ++ (decimal version ++ (viewKey ++ decimal view)) := by
      simp only [List.mem_append, not_or]
      exact ⟨by decide, hopen version, by decide, hopen view⟩
    refine ⟨"not a header", if_neg fun hsame => hnone ?_⟩
    have hmem : (125 : UInt8) ∈ (headerText version view).take n := by
      show (125 : UInt8) ∈ (headerText version view).take n
      rw [← hsame]
      simp [headerText]
    have hn' : n < (headerText version view).length := hn
    rw [hsplit, List.length_append, List.length_singleton] at hn'
    rw [hsplit, List.take_append_of_le_length (by omega)] at hmem
    exact List.mem_of_mem_take hmem

/-- Nothing fails. -/
def calm : Env := ⟨true, false, fun _ => .ok, fun _ => []⟩

theorem calm_calm : calm.Calm := ⟨rfl, fun _ => rfl, fun _ => rfl⟩

end Lug.Wal
