import Lug.Lib.Incremental
import Mathlib.Data.List.DropRight

/-!
UTF-8, byte by byte: an encoder, the decoder that rejects what no encoder writes as soon
as it sees it, and the one that replaces it; and the white space around a text.
-/

namespace Utf8

/-- The bytes of a character. -/
def encodeChar (c : Char) : List UInt8 :=
  let n := c.toNat
  if n < 0x80 then [n.toUInt8]
  else if n < 0x800 then [(0xC0 + n / 64).toUInt8, (0x80 + n % 64).toUInt8]
  else if n < 0x10000 then
    [(0xE0 + n / 4096).toUInt8, (0x80 + n / 64 % 64).toUInt8, (0x80 + n % 64).toUInt8]
  else
    [(0xF0 + n / 262144).toUInt8, (0x80 + n / 4096 % 64).toUInt8, (0x80 + n / 64 % 64).toUInt8,
      (0x80 + n % 64).toUInt8]

def encode (cs : List Char) : List UInt8 := cs.flatMap encodeChar

/-- The bytes behind the first one: how many are missing, between which bounds the next one
lies, and the number so far. -/
def readMore : ℕ → ℕ → ℕ → ℕ → List UInt8 → Verdict UInt8 Char Unit
  | 0, _, _, n, src => .item (Char.ofNat n) src
  | _ + 1, _, _, _, [] => .wait
  | needed + 1, lower, upper, n, b :: src =>
      if lower ≤ b.toNat ∧ b.toNat ≤ upper then
        readMore needed 0x80 0xBF (n * 64 + (b.toNat - 0x80)) src
      else .fail ()

/-- What a first byte announces: how many bytes follow, and its share of the number. -/
def lead (n : ℕ) : Option (ℕ × ℕ) :=
  if n < 0x80 then some (0, n)
  else if 0xC2 ≤ n ∧ n ≤ 0xDF then some (1, n - 0xC0)
  else if 0xE0 ≤ n ∧ n ≤ 0xEF then some (2, n - 0xE0)
  else if 0xF0 ≤ n ∧ n ≤ 0xF4 then some (3, n - 0xF0)
  else none

/-- The least second byte: below it, a shorter form would do. -/
def lowerOf (n : ℕ) : ℕ := if n = 0xE0 then 0xA0 else if n = 0xF0 then 0x90 else 0x80

/-- The greatest second byte: above it are surrogates, or nothing at all. -/
def upperOf (n : ℕ) : ℕ := if n = 0xED then 0x9F else if n = 0xF4 then 0x8F else 0xBF

/-- The first character of a buffer. -/
def readChar : List UInt8 → Verdict UInt8 Char Unit
  | [] => .wait
  | b :: src =>
      match lead b.toNat with
      | none => .fail ()
      | some (needed, n) => readMore needed (lowerOf b.toNat) (upperOf b.toNat) n src

/-! ### The verdict stands -/

theorem readMore_shorter {needed lower upper n : ℕ} {src rest : List UInt8} {c : Char}
    (h : readMore needed lower upper n src = .item c rest) : rest.length ≤ src.length := by
  induction needed generalizing lower upper n src with
  | zero =>
      cases h
      exact Nat.le_refl _
  | succ needed ih =>
      cases src with
      | nil => cases h
      | cons b src =>
          rw [readMore] at h
          split_ifs at h
          exact Nat.le_trans (ih h) (Nat.le_succ _)

theorem readMore_append {needed lower upper n : ℕ} {src : List UInt8} (more : List UInt8) :
    (∀ c rest, readMore needed lower upper n src = .item c rest →
        readMore needed lower upper n (src ++ more) = .item c (rest ++ more)) ∧
      ∀ e, readMore needed lower upper n src = .fail e →
        readMore needed lower upper n (src ++ more) = .fail e := by
  induction needed generalizing lower upper n src with
  | zero =>
      constructor
      · intro c rest h
        cases h
        rfl
      · intro e h
        cases h
  | succ needed ih =>
      cases src with
      | nil => exact ⟨nofun, nofun⟩
      | cons b src =>
          rw [List.cons_append, readMore, readMore]
          split_ifs
          · exact ih
          · exact ⟨nofun, fun _ h => h⟩

/-- Characters, one after the other. -/
def chars : Reader UInt8 Char Unit where
  read := readChar
  shorter {src c rest} h := by
    cases src with
    | nil => cases h
    | cons b src =>
        rw [List.length_cons, Nat.lt_succ_iff]
        rw [readChar] at h
        split at h
        · cases h
        · exact readMore_shorter h
  item_append {src c rest} more h := by
    cases src with
    | nil => cases h
    | cons b src =>
        rw [List.cons_append, readChar] at *
        split at h
        · cases h
        · exact (readMore_append more).1 c rest h
  fail_append {src e} more h := by
    cases src with
    | nil => cases h
    | cons b src =>
        rw [List.cons_append, readChar] at *
        split at h
        · exact h
        · exact (readMore_append more).2 e h

/-! ### Decoding what was encoded -/

theorem toNat_toUInt8 {b : ℕ} (hb : b < 256) : b.toUInt8.toNat = b := by
  rw [show b.toUInt8.toNat = b % 256 from UInt8.toNat_ofNat', Nat.mod_eq_of_lt hb]

theorem readMore_byte {needed lower upper n b : ℕ} (hlower : lower ≤ b) (hupper : b ≤ upper)
    (hb : b < 256) (src : List UInt8) :
    readMore (needed + 1) lower upper n (b.toUInt8 :: src) =
      readMore needed 0x80 0xBF (n * 64 + (b - 0x80)) src := by
  rw [readMore, toNat_toUInt8 hb, if_pos ⟨hlower, hupper⟩]

theorem readChar_lead {b needed n : ℕ} (hb : b < 256) (h : lead b = some (needed, n))
    (src : List UInt8) :
    readChar (b.toUInt8 :: src) = readMore needed (lowerOf b) (upperOf b) n src := by
  rw [readChar, toNat_toUInt8 hb, h]

theorem toNat_cases (c : Char) : c.toNat < 0xD800 ∨ 0xDFFF < c.toNat ∧ c.toNat < 0x110000 :=
  c.valid

/-- What was encoded is read back, whatever follows. -/
theorem readChar_encodeChar (c : Char) (rest : List UInt8) :
    readChar (encodeChar c ++ rest) = .item c rest := by
  have hvalid := toNat_cases c
  have hchar : ∀ m, m = c.toNat → readMore 0 0x80 0xBF m rest = .item c rest := fun m hm => by
    rw [readMore, hm, Char.ofNat_toNat]
  rw [encodeChar]
  generalize c.toNat = n at hvalid hchar ⊢
  by_cases hone : n < 0x80
  · rw [if_pos hone, List.singleton_append,
      readChar_lead (by omega) (show lead n = some (0, n) from if_pos hone)]
    exact hchar n rfl
  by_cases htwo : n < 0x800
  · have hlead : lead (0xC0 + n / 64) = some (1, n / 64) := by
      rw [lead, if_neg (by omega), if_pos (by omega), Nat.add_sub_cancel_left]
    have hlower : lowerOf (0xC0 + n / 64) = 0x80 := by
      rw [lowerOf, if_neg (by omega), if_neg (by omega)]
    have hupper : upperOf (0xC0 + n / 64) = 0xBF := by
      rw [upperOf, if_neg (by omega), if_neg (by omega)]
    rw [if_neg hone, if_pos htwo, List.cons_append, List.singleton_append,
      readChar_lead (by omega) hlead, hlower, hupper,
      readMore_byte (by omega) (by omega) (by omega)]
    exact hchar _ (by omega)
  by_cases hthree : n < 0x10000
  · have hlead : lead (0xE0 + n / 4096) = some (2, n / 4096) := by
      rw [lead, if_neg (by omega), if_neg (by omega), if_pos (by omega), Nat.add_sub_cancel_left]
    have hlower : lowerOf (0xE0 + n / 4096) ≤ 0x80 + n / 64 % 64 := by
      rw [lowerOf]
      split_ifs <;> omega
    have hupper : 0x80 + n / 64 % 64 ≤ upperOf (0xE0 + n / 4096) := by
      rw [upperOf]
      split_ifs <;> omega
    rw [if_neg hone, if_neg htwo, if_pos hthree, List.cons_append, List.cons_append,
      List.singleton_append, readChar_lead (by omega) hlead,
      readMore_byte hlower hupper (by omega), readMore_byte (by omega) (by omega) (by omega)]
    exact hchar _ (by omega)
  · have hlead : lead (0xF0 + n / 262144) = some (3, n / 262144) := by
      rw [lead, if_neg (by omega), if_neg (by omega), if_neg (by omega), if_pos (by omega),
        Nat.add_sub_cancel_left]
    have hlower : lowerOf (0xF0 + n / 262144) ≤ 0x80 + n / 4096 % 64 := by
      rw [lowerOf]
      split_ifs <;> omega
    have hupper : 0x80 + n / 4096 % 64 ≤ upperOf (0xF0 + n / 262144) := by
      rw [upperOf]
      split_ifs <;> omega
    rw [if_neg hone, if_neg htwo, if_neg hthree, List.cons_append, List.cons_append,
      List.cons_append, List.singleton_append, readChar_lead (by omega) hlead,
      readMore_byte hlower hupper (by omega), readMore_byte (by omega) (by omega) (by omega),
      readMore_byte (by omega) (by omega) (by omega)]
    exact hchar _ (by omega)

/-- A text is read back, and nothing is left. -/
theorem drain_encode (cs : List Char) : chars.drain (encode cs) = ⟨cs, [], none⟩ := by
  induction cs with
  | nil =>
      have hwait : chars.read [] = .wait := rfl
      exact Reader.drain_wait hwait
  | cons c cs ih =>
      have hread : chars.read (encodeChar c ++ encode cs) = .item c (encode cs) :=
        readChar_encodeChar c (encode cs)
      rw [encode, List.flatMap_cons]
      show chars.drain (encodeChar c ++ encode cs) = _
      rw [Reader.drain_item hread, ih]
      rfl

theorem encode_append (cs ds : List Char) : encode (cs ++ ds) = encode cs ++ encode ds :=
  List.flatMap_append

/-- A character below 128 is one byte. -/
theorem encodeChar_ascii {c : Char} (h : c.toNat < 0x80) : encodeChar c = [c.toNat.toUInt8] :=
  if_pos h

theorem encode_ascii {cs : List Char} (h : ∀ c ∈ cs, c.toNat < 0x80) :
    encode cs = cs.map (·.toNat.toUInt8) := by
  induction cs with
  | nil => rfl
  | cons c cs ih =>
      rw [encode, List.flatMap_cons, encodeChar_ascii (h c List.mem_cons_self), List.map_cons]
      exact congrArg (_ :: ·) (ih fun c' hc' => h c' (List.mem_cons_of_mem _ hc'))

/-- Any other one starts with a byte from 128 up. -/
theorem exists_not_ascii {c : Char} (h : 0x80 ≤ c.toNat) : ∃ b ∈ encodeChar c, ¬b < 128 := by
  have hvalid := toNat_cases c
  have hbyte : ∀ {n : ℕ}, 128 ≤ n → n < 256 → ¬n.toUInt8 < 128 := fun hle hlt => by
    rw [UInt8.lt_iff_toNat_lt, toNat_toUInt8 hlt]
    exact Nat.not_lt.mpr hle
  rw [encodeChar, if_neg (Nat.not_lt.mpr h)]
  generalize c.toNat = n at h hvalid ⊢
  split_ifs
  · exact ⟨_, List.mem_cons_self, hbyte (by omega) (by omega)⟩
  · exact ⟨_, List.mem_cons_self, hbyte (by omega) (by omega)⟩
  · exact ⟨_, List.mem_cons_self, hbyte (by omega) (by omega)⟩

theorem ascii_of_encode {cs : List Char} (h : ∀ b ∈ encode cs, b < 128) :
    ∀ c ∈ cs, c.toNat < 0x80 := by
  intro c hc
  by_contra hge
  obtain ⟨b, hb, hbig⟩ := exists_not_ascii (Nat.not_lt.mp hge)
  exact hbig (h b (List.mem_flatMap.mpr ⟨c, hc, hb⟩))

/-! ### Reading a text whole -/

/-- `String::from_utf8`. -/
def text (src : List UInt8) : Option (List Char) :=
  let d := chars.drain src
  if d.rest = [] ∧ d.failure = none then some d.items else none

theorem drain_of_text {src : List UInt8} {cs : List Char} (h : text src = some cs) :
    chars.drain src = ⟨cs, [], none⟩ := by
  rw [text] at h
  split_ifs at h with hwhole
  cases h
  rw [← hwhole.1, ← hwhole.2]

theorem text_encode (cs : List Char) : text (encode cs) = some cs := by
  rw [text, drain_encode]
  rfl

/-- What stands in front of a text is read on its own. -/
theorem text_encode_append (cs : List Char) (src : List UInt8) :
    text (encode cs ++ src) = (text src).map (cs ++ ·) := by
  have hnone : (chars.drain (encode cs)).failure = none := by rw [drain_encode]
  have happend := Reader.drain_append hnone src
  rw [drain_encode, List.nil_append] at happend
  simp only [text, happend, Drained.rest_after, Drained.failure_after, Drained.items_after]
  split_ifs <;> rfl

/-! ### Replacing what is no text -/

/-- How many of the bytes behind the first one may follow it. -/
def accepted : ℕ → ℕ → ℕ → List UInt8 → ℕ
  | needed + 1, lower, upper, b :: src =>
      if lower ≤ b.toNat ∧ b.toNat ≤ upper then accepted needed 0x80 0xBF src + 1 else 0
  | _, _, _, _ => 0

/-- The bytes that one replacement character stands for: those that begin a character, or
the first one where it begins none. -/
def subpart : List UInt8 → ℕ
  | [] => 0
  | b :: src =>
      match lead b.toNat with
      | none => 1
      | some (needed, _) => accepted needed (lowerOf b.toNat) (upperOf b.toNat) src + 1

theorem subpart_pos {src : List UInt8} (h : src ≠ []) : 0 < subpart src := by
  cases src with
  | nil => contradiction
  | cons b src =>
      rw [subpart]
      split <;> omega

/-- `String::from_utf8_lossy`. -/
def lossy (src : List UInt8) : List Char :=
  match _h : chars.read src with
  | .wait => if src = [] then [] else ['\uFFFD']
  | .item c rest => c :: lossy rest
  | .fail _ => '\uFFFD' :: lossy (src.drop (subpart src))
termination_by src.length
decreasing_by
  · exact chars.shorter _h
  · have hsome : src ≠ [] := by
      intro hnil
      rw [hnil] at _h
      cases _h
    have hpos := subpart_pos hsome
    have hlength := List.length_pos_iff.mpr hsome
    rw [List.length_drop]
    omega

theorem lossy_item {src rest : List UInt8} {c : Char} (h : chars.read src = .item c rest) :
    lossy src = c :: lossy rest := by
  rw [lossy]
  split
  · rename_i h'
    rw [h] at h'
    cases h'
  · rename_i h'
    rw [h] at h'
    cases h'
    rfl
  · rename_i h'
    rw [h] at h'
    cases h'

/-- Nothing of a text is replaced. -/
theorem lossy_encode (cs : List Char) : lossy (encode cs) = cs := by
  induction cs with
  | nil =>
      rw [encode, List.flatMap_nil, lossy]
      rfl
  | cons c cs ih =>
      rw [encode, List.flatMap_cons, lossy_item (readChar_encodeChar c _)]
      exact congrArg (c :: ·) ih

/-! ### White space -/

/-- `char::is_whitespace`. -/
def isWhitespace (c : Char) : Bool :=
  let n := c.toNat
  (9 ≤ n && n ≤ 13) || n = 0x20 || n = 0x85 || n = 0xA0 || n = 0x1680 ||
    (0x2000 ≤ n && n ≤ 0x200A) || n = 0x2028 || n = 0x2029 || n = 0x202F || n = 0x205F ||
    n = 0x3000

/-- `str::trim_end`. -/
def trimEnd (cs : List Char) : List Char := cs.rdropWhile isWhitespace

/-- `str::trim`. -/
def trim (cs : List Char) : List Char := trimEnd (cs.dropWhile isWhitespace)

/-- White space at the end is dropped, and nothing in front of it. -/
theorem trimEnd_append {c : Char} (hc : isWhitespace c = false) (cs ds : List Char) :
    trimEnd (cs ++ c :: ds) = cs ++ c :: trimEnd ds := by
  induction ds using List.reverseRecOn with
  | nil => exact List.rdropWhile_concat_neg _ _ _ (by simp [hc])
  | append_singleton ds d ih =>
      rw [trimEnd, trimEnd, ← List.cons_append, ← List.append_assoc, List.rdropWhile_concat,
        List.rdropWhile_concat]
      split_ifs
      · exact ih
      · simp

theorem trimEnd_blank {cs : List Char} (h : ∀ c ∈ cs, isWhitespace c = true) : trimEnd cs = [] :=
  List.rdropWhile_eq_nil_iff.mpr h

/-- Where a word stands in front nothing is dropped there. -/
theorem trim_append {cs : List Char} (hcs : ∀ c ∈ cs, isWhitespace c = false) (hsome : cs ≠ [])
    (ds : List Char) : trim (cs ++ ds) = trimEnd (cs ++ ds) := by
  cases cs with
  | nil => exact absurd rfl hsome
  | cons c cs =>
      have hc := hcs c List.mem_cons_self
      rw [trim, List.cons_append, List.dropWhile_cons_of_neg (by simp [hc])]

/-- A word is all that is left of the white space behind it. -/
theorem trim_word {cs ds : List Char} (hcs : ∀ c ∈ cs, isWhitespace c = false) (hsome : cs ≠ [])
    (hds : ∀ c ∈ ds, isWhitespace c = true) : trim (cs ++ ds) = cs := by
  rw [trim_append hcs hsome]
  induction cs using List.reverseRecOn with
  | nil => exact absurd rfl hsome
  | append_singleton cs c _ =>
      have hc := hcs c (by simp)
      rw [List.append_assoc, List.singleton_append, trimEnd_append hc, trimEnd_blank hds]

end Utf8
