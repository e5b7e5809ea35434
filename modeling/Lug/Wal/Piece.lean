import Lug.Wal.Load

/-!
Segment files taken apart: the records a file holds, what stands behind them, and
what a scan makes of either. What stands there is blank, or the debris of a batch
that was not finished.
-/

namespace Lug.Wal

open Octets Runs

/-- The records of a segment file and the version it is named for. -/
structure Span where
  first : ℕ
  records : List Record

/-- The version after those of a span. -/
def Span.next (s : Span) : ℕ := s.first + s.records.length

/-- A segment file. -/
structure Piece extends Span where
  rest : Bytes

/-- A segment file that a rotation left unfinished. -/
structure Stub where
  first : ℕ
  stamped : ℕ
  rest : Bytes

def Stub.file (s : Stub) : File := (s.first, segmentPrologue.take s.stamped ++ s.rest)

variable [Crc32]

def Span.body (s : Span) : Bytes := segmentPrologue ++ encodeRecords s.records

def Span.stop (s : Span) : ℕ := segPrologue + (encodeRecords s.records).length

/-- What a store knows of a span. -/
def Span.segment (s : Span) : Segment := ⟨s.first, s.stop, s.next - 1⟩

def Piece.file (p : Piece) : File := (p.first, p.body ++ p.rest)

@[simp] theorem Span.length_body (s : Span) : s.body.length = s.stop := by
  rw [Span.body, List.length_append, length_segmentPrologue, Span.stop]

theorem Piece.hasMagic (p : Piece) : HasMagic p.file := by
  have htake : p.file.2.take segPrologue = segmentPrologue := by
    show (segmentPrologue ++ encodeRecords p.records ++ p.rest).take segPrologue = _
    rw [List.append_assoc, ← length_segmentPrologue, List.take_left]
  rw [HasMagic, htake]
  exact ⟨rfl, rfl⟩

theorem Piece.contents_file {p : Piece} (h : ∀ r ∈ p.records, Fits r) :
    contents p.file = ⟨p.records ++ (found p.rest).records, (found p.rest).rest,
      (found p.rest).torn⟩ := by
  have hdrop : p.file.2.drop segPrologue = encodeRecords p.records ++ p.rest := by
    show (segmentPrologue ++ encodeRecords p.records ++ p.rest).drop segPrologue = _
    rw [List.append_assoc, ← length_segmentPrologue, List.drop_left]
  rw [contents, hdrop, found_encodeRecords h]

/-- Nothing is found behind the records of a file that is blank there. -/
theorem Piece.contents_of_blank {p : Piece} (h : ∀ r ∈ p.records, Fits r) (hblank : Blank p.rest) :
    contents p.file = ⟨p.records, p.rest,
      decide (0 < p.rest.length ∧ p.rest.length < recPrefix)⟩ := by
  rw [p.contents_file h, found_blank hblank, List.append_nil]

theorem Piece.stopOf_file {p : Piece} (h : ∀ r ∈ p.records, Fits r) :
    stopOf p.file = p.stop + (encodeRecords (found p.rest).records).length := by
  rw [stopOf, p.contents_file h, encodeRecords_append, List.length_append, Span.stop,
    Nat.add_assoc]

/-- What is cut off is what is not a record. -/
theorem Piece.cut_file {p : Piece} (h : ∀ r ∈ p.records, Fits r) :
    cut p.file = (p.first, p.body ++ encodeRecords (found p.rest).records) := by
  have hrest : encodeRecords (found p.rest).records <+: p.rest :=
    ⟨(found p.rest).rest, (found_spec p.rest).1.symm⟩
  have htake : (p.body ++ p.rest).take (stopOf p.file) =
      p.body ++ encodeRecords (found p.rest).records := by
    rw [p.stopOf_file h, ← Span.length_body, List.take_length_add_append,
      ← List.prefix_iff_eq_take.mp hrest]
  exact Prod.ext rfl htake

/-! ### Stubs -/

omit [Crc32] in
theorem segmentPrologue_drop {k : ℕ} (h : 8 ≤ k) : Blank (segmentPrologue.drop k) := by
  rw [segmentPrologue, List.drop_append, List.drop_of_length_le (by exact h), List.nil_append]
  exact (blank_zeroes 8).drop _

/-- What a rotation to version `n` may leave where it gets stuck: a part of the
prologue, none of it before the file was given its length. -/
structure Stub.Of (n : ℕ) (s : Stub) : Prop where
  first : s.first = n
  stamped : s.stamped ≤ segPrologue
  blank : Blank s.rest
  sized : 8 ≤ s.stamped → segPrologue ≤ s.file.2.length

omit [Crc32] in
theorem Stub.Of.length {n : ℕ} {s : Stub} (h : s.Of n) :
    s.file.2.length = s.stamped + s.rest.length := by
  have hstamped := h.stamped
  rw [Stub.file, List.length_append, List.length_take, length_segmentPrologue]
  omega

omit [Crc32] in
/-- A stub starts as a segment does only if the magic is all there. -/
theorem Stub.Of.hasMagic_iff {n : ℕ} {s : Stub} (h : s.Of n) :
    HasMagic s.file ↔ 8 ≤ s.stamped := by
  have hstamped := h.stamped
  have hblank := h.blank
  have hlength : (segmentPrologue.take s.stamped).length = s.stamped := by
    rw [List.length_take, length_segmentPrologue]
    omega
  constructor
  · intro h
    by_contra hlow
    -- the eighth byte of the magic is not zero, and here it is blank
    have hbyte : ((s.file.2.take segPrologue).take 8)[7]? = some 1 := by
      rw [h.2]
      rfl
    have hrest : ((s.file.2.take segPrologue).take 8)[7]? = s.rest[7 - s.stamped]? := by
      rw [List.getElem?_take_of_lt (by decide), List.getElem?_take_of_lt (by decide), Stub.file,
        List.getElem?_append_right (by rw [hlength]; omega), hlength]
    rw [hrest] at hbyte
    have hzero := hblank 1 (List.mem_of_getElem? hbyte)
    exact absurd hzero (by decide)
  · intro hstamp
    have hlong := h.sized hstamp
    have htake : (s.file.2.take segPrologue).take 8 = segMagic := by
      rw [List.take_take, Nat.min_eq_left (by decide), Stub.file,
        List.take_append_of_le_length (by rw [hlength]; exact hstamp), List.take_take,
        Nat.min_eq_left hstamp]
      rfl
    refine ⟨?_, htake⟩
    rw [List.length_take]
    omega

omit [Crc32] in
/-- A stub that starts as a segment does is one without records. -/
theorem Stub.Of.eq_of_hasMagic {n : ℕ} {s : Stub} (h : s.Of n) (hmagic : HasMagic s.file) :
    ∃ z, Blank z ∧ s.file.2 = segmentPrologue ++ z := by
  have hstamp := h.hasMagic_iff.mp hmagic
  have hlong := h.sized hstamp
  have hblank := h.blank
  rw [h.length] at hlong
  -- the part of the prologue that was not written is blank as well
  have hgap : s.rest.take (segPrologue - s.stamped) = segmentPrologue.drop s.stamped := by
    refine (hblank.take _).ext (segmentPrologue_drop hstamp) ?_
    rw [List.length_take, List.length_drop, length_segmentPrologue]
    omega
  refine ⟨s.rest.drop (segPrologue - s.stamped), hblank.drop _, ?_⟩
  rw [Stub.file]
  conv => lhs; rw [← List.take_append_drop (segPrologue - s.stamped) s.rest]
  rw [hgap, ← List.append_assoc, List.take_append_drop]

/-! ### Debris -/

/-- What a batch from version `n` on may leave where its write, or the zeroing of
what had landed, got stuck: its bytes between two places, and zeroes. -/
def Debris (n : ℕ) (rest : Bytes) : Prop :=
  ∃ batch j k, (∀ r ∈ batch, Fits r) ∧ Consecutive Record.version n batch ∧ k ≤ rest.length ∧
    ∀ i, i < rest.length →
      rest[i]? = some (if j ≤ i ∧ i < k then ((encodeRecords batch)[i]?).getD 0 else 0)

theorem Blank.debris {rest : Bytes} (h : Blank rest) (n : ℕ) : Debris n rest := by
  refine ⟨[], 0, 0, by simp, trivial, Nat.zero_le _, fun i hi => ?_⟩
  rw [if_neg (by omega), List.getElem?_eq_getElem hi, h _ (List.getElem_mem hi)]

/-- Cutting debris and putting zeroes behind it leaves debris. -/
theorem Debris.trim {n : ℕ} {rest z : Bytes} (h : Debris n rest) (len : ℕ) (hz : Blank z) :
    Debris n (rest.take len ++ z) := by
  obtain ⟨batch, j, k, hfits, hrun, hk, hbytes⟩ := h
  have hlength : (rest.take len).length = min len rest.length := List.length_take
  refine ⟨batch, j, min k len, hfits, hrun, ?_, fun i hi => ?_⟩
  · rw [List.length_append, hlength]
    omega
  · rw [List.length_append, hlength] at hi
    by_cases hin : i < min len rest.length
    · rw [List.getElem?_append_left (by omega), List.getElem?_take_of_lt (by omega),
        hbytes i (by omega)]
      congr 1
      refine if_congr ?_ rfl rfl
      omega
    · rw [List.getElem?_append_right (by omega), if_neg (by omega),
        List.getElem?_eq_getElem (by omega), hz _ (List.getElem_mem _)]

/-- What a write that stopped after `len` bytes leaves on blank ground. -/
theorem debris_write {n : ℕ} {batch : List Record} {rest : Bytes} (hfits : ∀ r ∈ batch, Fits r)
    (hrun : Consecutive Record.version n batch) (hrest : Blank rest) {len : ℕ}
    (hlen : len ≤ (encodeRecords batch).length) :
    Debris n ((encodeRecords batch).take len ++ rest.drop len) := by
  have hlength : ((encodeRecords batch).take len).length = len := by
    rw [List.length_take]
    omega
  refine ⟨batch, 0, len, hfits, hrun, ?_, fun i hi => ?_⟩
  · rw [List.length_append, hlength]
    omega
  · by_cases hin : i < len
    · rw [List.getElem?_append_left (by omega), List.getElem?_take_of_lt hin, if_pos (by omega),
        List.getElem?_eq_getElem (by omega), Option.getD_some]
    · rw [List.length_append, hlength] at hi
      rw [List.getElem?_append_right (by omega), if_neg (by omega),
        List.getElem?_eq_getElem (by omega), hrest.drop len _ (List.getElem_mem _)]

/-- What a zeroing that stopped after `len` bytes leaves of debris. -/
theorem Debris.zero {n : ℕ} {rest : Bytes} (h : Debris n rest) (len : ℕ) :
    Debris n (zeroes len ++ rest.drop len) := by
  obtain ⟨batch, j, k, hfits, hrun, hk, hbytes⟩ := h
  refine ⟨batch, max j len, k, hfits, hrun, ?_, fun i hi => ?_⟩
  · rw [List.length_append, length_zeroes, List.length_drop]
    omega
  · rw [List.length_append, length_zeroes, List.length_drop] at hi
    by_cases hin : i < len
    · rw [List.getElem?_append_left (by rw [length_zeroes]; exact hin), if_neg (by omega),
        List.getElem?_eq_getElem (by rw [length_zeroes]; exact hin),
        blank_zeroes len _ (List.getElem_mem _)]
    · rw [List.getElem?_append_right (by rw [length_zeroes]; omega), length_zeroes,
        List.getElem?_drop, show len + (i - len) = i by omega, hbytes i (by omega)]
      congr 1
      refine if_congr ?_ rfl rfl
      omega

theorem getElem?_encodeRecords_version (b : Record) (batch : List Record) {i : ℕ} (h : i < 8) :
    (encodeRecords (b :: batch))[8 + i]? = (le 8 b.version)[i]? := by
  have hbytes : encodeRecords (b :: batch) =
      (le 4 b.patch.length ++ le 4 (checksum b.version b.patch)) ++
        (le 8 b.version ++ (b.patch ++ encodeRecords batch)) := by
    rw [encodeRecords_cons, recordBytes, recordPrefix]
    simp only [List.append_assoc]
  have hhead : (le 4 b.patch.length ++ le 4 (checksum b.version b.patch)).length = 8 := by
    rw [List.length_append, length_le, length_le]
  rw [hbytes, List.getElem?_append_right (by omega), hhead,
    List.getElem?_append_left (by rw [length_le]; omega), Nat.add_sub_cancel_left]

/-- A record found at the head of debris has the version the batch starts with,
unless its version was cut short, and then nothing is found behind it. -/
theorem Debris.item_version {n : ℕ} {rest : Bytes} {r : Record} (h : Debris n rest)
    (hitem : item rest = .record r) : r.version = n ∨
      (r.version = 0 ∨ r.version + 1 < n) ∧
        (found (rest.drop (recPrefix + r.patch.length))).records = [] := by
  obtain ⟨batch, j, k, hfits, hrun, hk, hbytes⟩ := h
  obtain ⟨hr, hrest⟩ := item_record hitem
  have hlong := (item_record_bounds hitem).1
  have hpos := hr.nonempty
  have hcounted : r.version < 256 ^ 8 := hr.counted
  rw [recPrefix] at hlong
  -- the bytes of the version, as they stand in the file
  have hversion : ∀ i < 8, (le 8 r.version)[i]? =
      some (if j ≤ 8 + i ∧ 8 + i < k then ((encodeRecords batch)[8 + i]?).getD 0 else 0) := by
    intro i hi
    have hsame : (encodeRecords [r])[8 + i]? = rest[8 + i]? := by
      conv => rhs; rw [hrest]
      rw [List.getElem?_append_left (by rw [length_recordBytes, recPrefix]; omega)]
      simp [encodeRecords]
    rw [← getElem?_encodeRecords_version r [] hi, hsame, hbytes _ (by omega)]
  -- the length is not zero, so its bytes were not all zeroed
  have hlow : j < 4 ∧ batch ≠ [] := by
    by_contra hnot
    have htake : rest.take 4 = le 4 r.patch.length := by
      rw [hrest, recordBytes, recordPrefix]
      simp only [List.append_assoc]
      rw [List.take_append_of_le_length (by rw [length_le]), List.take_of_length_le (by rw [length_le])]
    have hzero : Blank (rest.take 4) := by
      intro b hb
      obtain ⟨i, hi, rfl⟩ := List.mem_iff_getElem.mp hb
      rw [List.length_take] at hi
      have hbyte := hbytes i (by omega)
      have hnone : (if j ≤ i ∧ i < k then ((encodeRecords batch)[i]?).getD 0 else 0) = 0 := by
        by_cases hbatch : batch = []
        · subst hbatch
          simp
        · exact if_neg fun hin => hnot ⟨by omega, hbatch⟩
      rw [hnone, List.getElem?_eq_getElem (by omega), Option.some.injEq] at hbyte
      rw [List.getElem_take, hbyte]
    have hlength : r.patch.length < 256 ^ 4 := hr.short.trans_lt (by decide)
    rw [htake] at hzero
    have hnil := ofLe_blank hzero
    rw [ofLe_le_of_lt hlength] at hnil
    omega
  obtain ⟨hj, hbatch⟩ := hlow
  cases batch with
  | nil => exact absurd rfl hbatch
  | cons b batch =>
      obtain ⟨hb, -⟩ := hrun
      have hn : n < 256 ^ 8 := hb ▸ (hfits b List.mem_cons_self).counted
      by_cases hwhole : 16 ≤ k
      · left
        have hsame : le 8 r.version = le 8 n := by
          refine List.ext_getElem? fun i => ?_
          by_cases hi : i < 8
          · have hin : i < (le 8 n).length := by
              rw [length_le]
              exact hi
            rw [hversion i hi, if_pos (by omega), getElem?_encodeRecords_version b batch hi, hb,
              List.getElem?_eq_getElem hin, Option.getD_some]
          · rw [List.getElem?_eq_none (by rw [length_le]; omega),
              List.getElem?_eq_none (by rw [length_le]; omega)]
        rw [← ofLe_le_of_lt hcounted, hsame, ofLe_le_of_lt hn]
      · -- only the low bytes of the version arrived
        have hshort : le 8 r.version = le (k - 8) n ++ zeroes (8 - (k - 8)) := by
          refine List.ext_getElem? fun i => ?_
          have htotal : (le (k - 8) n ++ zeroes (8 - (k - 8))).length = 8 := by
            rw [List.length_append, length_le, length_zeroes]
            omega
          by_cases hi : i < 8
          · rw [hversion i hi]
            by_cases hin : i < k - 8
            · have htake : le (k - 8) n = (le 8 n).take (k - 8) := by
                rw [take_le, Nat.min_eq_left (by omega)]
              have hlen : i < (le 8 n).length := by
                rw [length_le]
                exact hi
              rw [if_pos (by omega), getElem?_encodeRecords_version b batch hi, hb,
                List.getElem?_append_left (by rw [length_le]; exact hin), htake,
                List.getElem?_take_of_lt hin, List.getElem?_eq_getElem hlen, Option.getD_some]
            · rw [if_neg (by omega), List.getElem?_append_right (by rw [length_le]; omega),
                List.getElem?_eq_getElem (by rw [length_le, length_zeroes]; omega),
                blank_zeroes _ _ (List.getElem_mem _)]
          · rw [List.getElem?_eq_none (by rw [length_le]; omega),
              List.getElem?_eq_none (by omega)]
        have hmod : r.version = n % 256 ^ (k - 8) := by
          rw [← ofLe_le_of_lt hcounted, hshort, ofLe_append_blank (blank_zeroes _), ofLe_le]
        have hblank : Blank (rest.drop (recPrefix + r.patch.length)) := by
          intro x hx
          obtain ⟨i, hi, rfl⟩ := List.mem_iff_getElem.mp hx
          rw [List.length_drop] at hi
          have hprefix : recPrefix = 16 := rfl
          have hbyte := hbytes (recPrefix + r.patch.length + i) (by omega)
          rw [if_neg (by omega), List.getElem?_eq_getElem (by omega), Option.some.injEq] at hbyte
          rw [List.getElem_drop, hbyte]
        by_cases hfull : n < 256 ^ (k - 8)
        · left
          rw [hmod, Nat.mod_eq_of_lt hfull]
        · right
          refine ⟨?_, by rw [found_blank hblank]⟩
          have hsplit := Nat.mod_add_div n (256 ^ (k - 8))
          have hquot : 1 ≤ n / 256 ^ (k - 8) :=
            (Nat.one_le_div_iff (Nat.pow_pos (by decide))).mpr (not_lt.mp hfull)
          have hmul : 256 ^ (k - 8) ≤ 256 ^ (k - 8) * (n / 256 ^ (k - 8)) :=
            Nat.le_mul_of_pos_right _ hquot
          by_cases hzero : k - 8 = 0
          · left
            rw [hmod, hzero, pow_zero, Nat.mod_one]
          · right
            have hbig : 256 ≤ 256 ^ (k - 8) := Nat.le_self_pow hzero 256
            omega

end Lug.Wal
