import Lug.Core.Storage
import Lug.Lib.Octets

/-!
`lug_wal::format`: on-disk shapes, which are the segment prologue, the framing
of a record and the header file.
-/

namespace Lug.Wal

open Octets

/-- `crc32fast`. -/
class Crc32 where
  hash : Bytes → UInt32

/-- `SEG_MAGIC`, `LUGSEG` and two bytes more. -/
def segMagic : Bytes := [76, 85, 71, 83, 69, 71, 0, 1]

/-- `HDR_MAGIC`, `LUGHDR` and two bytes more. -/
def hdrMagic : Bytes := [76, 85, 71, 72, 68, 82, 0, 1]

/-- `SEG_PROLOGUE`. -/
def segPrologue : ℕ := 16

/-- `REC_PREFIX`. -/
def recPrefix : ℕ := 16

/-- `MAX_PAYLOAD`. -/
def maxPayload : ℕ := 64 * 2 ^ 20

def segmentPrologue : Bytes := segMagic ++ zeroes 8

section Checksum

variable [Crc32]

/-- The checksum covers the version as well as the payload. -/
def checksum (version : ℕ) (payload : Bytes) : ℕ := (Crc32.hash (le 8 version ++ payload)).toNat

def recordPrefix (version : ℕ) (payload : Bytes) : Bytes :=
  le 4 payload.length ++ le 4 (checksum version payload) ++ le 8 version

/-- `header_bytes`: magic, checksum of the text, its length, the text. The length
is narrowed to 32 bits. -/
def headerBytes (json : Bytes) : Bytes :=
  hdrMagic ++ le 4 (Crc32.hash json).toNat ++ le 4 json.length ++ json

end Checksum

/-- Length, checksum and version from a full prefix. -/
def splitPrefix (bytes : Bytes) : ℕ × ℕ × ℕ :=
  (ofLe (bytes.take 4), ofLe ((bytes.drop 4).take 4), ofLe ((bytes.drop 8).take 8))

/-- A record the format can hold. -/
structure Fits (r : Record) : Prop where
  nonempty : 0 < r.patch.length
  short : r.patch.length ≤ maxPayload
  counted : r.version < 2 ^ 64

@[simp] theorem length_segmentPrologue : segmentPrologue.length = segPrologue := rfl

theorem splitPrefix_fields {a b c : Bytes} (ha : a.length = 4) (hb : b.length = 4)
    (hc : c.length = 8) : splitPrefix (a ++ b ++ c) = (ofLe a, ofLe b, ofLe c) := by
  have hsecond : (a ++ b ++ c).drop 4 = b ++ c := by
    rw [List.append_assoc, ← ha, List.drop_left]
  have hthird : (a ++ b ++ c).drop 8 = c := by
    rw [show (8 : ℕ) = (a ++ b).length by rw [List.length_append, ha, hb], List.drop_left]
  rw [splitPrefix, hsecond, hthird, List.append_assoc, ← ha, List.take_left, ha, ← hb,
    List.take_left, ← hc, List.take_length]

/-- The fields of a prefix, encoded again, are the prefix. -/
theorem encode_splitPrefix {bytes : Bytes} (h : bytes.length = recPrefix) :
    le 4 (splitPrefix bytes).1 ++ le 4 (splitPrefix bytes).2.1 ++ le 8 (splitPrefix bytes).2.2 =
      bytes := by
  rw [recPrefix] at h
  have hback : ∀ {k : ℕ} {bs : Bytes}, bs.length = k → le k (ofLe bs) = bs := by
    rintro k bs rfl
    exact le_ofLe bs
  have hfirst : (bytes.take 4).length = 4 := by
    rw [List.length_take]
    omega
  have hsecond : ((bytes.drop 4).take 4).length = 4 := by
    rw [List.length_take, List.length_drop]
    omega
  have hthird : ((bytes.drop 8).take 8).length = 8 := by
    rw [List.length_take, List.length_drop]
    omega
  have hend : (bytes.drop 8).take 8 = bytes.drop 8 :=
    List.take_of_length_le (by rw [List.length_drop]; omega)
  have hmiddle : (bytes.drop 4).take 4 ++ bytes.drop 8 = bytes.drop 4 := by
    rw [show bytes.drop 8 = (bytes.drop 4).drop 4 by rw [List.drop_drop], List.take_append_drop]
  simp only [splitPrefix]
  rw [hback hfirst, hback hsecond, hback hthird, hend, List.append_assoc, hmiddle,
    List.take_append_drop]

variable [Crc32]

theorem checksum_lt (version : ℕ) (payload : Bytes) : checksum version payload < 256 ^ 4 :=
  UInt32.toNat_lt _

@[simp] theorem length_recordPrefix (version : ℕ) (payload : Bytes) :
    (recordPrefix version payload).length = recPrefix := by
  simp [recordPrefix, recPrefix]

theorem splitPrefix_recordPrefix {r : Record} (h : Fits r) :
    splitPrefix (recordPrefix r.version r.patch) =
      (r.patch.length, checksum r.version r.patch, r.version) := by
  have hlength : r.patch.length < 256 ^ 4 := h.short.trans_lt (by decide)
  rw [recordPrefix, splitPrefix_fields (length_le ..) (length_le ..) (length_le ..),
    ofLe_le_of_lt hlength, ofLe_le_of_lt (checksum_lt ..), ofLe_le_of_lt h.counted]

/-! ### Records -/

/-- What an append writes of one record. -/
def recordBytes (r : Record) : Bytes := recordPrefix r.version r.patch ++ r.patch

def encodeRecords (records : List Record) : Bytes := records.flatMap recordBytes

theorem length_recordBytes (r : Record) : (recordBytes r).length = recPrefix + r.patch.length := by
  rw [recordBytes, List.length_append, length_recordPrefix]

@[simp] theorem encodeRecords_nil : encodeRecords [] = [] := rfl

theorem encodeRecords_cons (r : Record) (records : List Record) :
    encodeRecords (r :: records) = recordBytes r ++ encodeRecords records := rfl

theorem encodeRecords_append (xs ys : List Record) :
    encodeRecords (xs ++ ys) = encodeRecords xs ++ encodeRecords ys :=
  List.flatMap_append

end Lug.Wal
