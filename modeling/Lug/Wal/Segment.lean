import Lug.Wal.Format

/-!
`lug_wal::segment`: a segment file is one prologue, then records, then whatever
a crash left.
-/

namespace Lug.Wal

open Octets

/-- What an error is about. -/
inductive Path
  | dir
  | header
  | headerTmp
  | segment (first : ℕ)

/-- `lug_wal::Error`, less what the operating system says. -/
inductive Err
  | io (path : Path)
  | locked
  | notASegment (path : Path)
  | notAHeader (path : Path)
  | headerChecksum (found computed len : ℕ)
  | shortHeader (len : ℕ)
  | headerDisagrees (declared view : ℕ)
  | headerAhead (header last : ℕ)
  | json (message : String)
  | gap (path : Path) (expected found : ℕ)
  | misnamed (path : Path) (expected found : ℕ)
  | tornMidLog (path : Path)
  | outOfOrder (expected found : ℕ)
  | oversized (version len max : ℕ)
  | reclaimed (requested oldest : ℕ)
  | empty (version : ℕ)
  | cleanupFailed (path : Path) (offset : ℕ)
  | poisoned (path : Path) (offset : ℕ)
  | exhausted (version : ℕ)

/-- `segment::Segment`. `first` is the file's name, `stop` the offset just past
the last intact record, `last` the highest version present. -/
structure Segment where
  first : ℕ
  stop : ℕ
  last : ℕ
  deriving DecidableEq, Repr

def Segment.path (s : Segment) : Path := .segment s.first

/-- `segment::Scan`. -/
structure Scan where
  stop : ℕ
  fileLen : ℕ
  torn : Bool

variable [Crc32] {β : Type}

/-- The loop of `segment::scan`, on the bytes not yet read. What visits a record
carries a value along and says whether to break. A record takes at least a byte,
so as many rounds as there are bytes reach the end. -/
def walk (visit : β → Record → Except Err (β × Bool)) (fileLen : ℕ) :
    ℕ → β → ℕ → Bytes → Except Err (β × Scan)
  | 0, b, stop, _ => .ok (b, ⟨stop, fileLen, false⟩)
  | fuel + 1, b, stop, unread =>
      let filled := unread.take recPrefix
      if filled.length = 0 then .ok (b, ⟨stop, fileLen, false⟩)
      else if filled.length ≠ recPrefix then .ok (b, ⟨stop, fileLen, true⟩)
      else
        let (len, crc, version) := splitPrefix filled
        if len = 0 then .ok (b, ⟨stop, fileLen, false⟩)
        else if maxPayload < len ∨ fileLen - (stop + recPrefix) < len then
          .ok (b, ⟨stop, fileLen, true⟩)
        else
          let payload := (unread.drop recPrefix).take len
          if payload.length ≠ len then .ok (b, ⟨stop, fileLen, true⟩)
          else if checksum version payload ≠ crc then .ok (b, ⟨stop, fileLen, true⟩)
          else
            match visit b ⟨version, payload⟩ with
            | .error e => .error e
            | .ok (b', true) => .ok (b', ⟨stop + (recPrefix + payload.length), fileLen, false⟩)
            | .ok (b', false) =>
                walk visit fileLen fuel b' (stop + (recPrefix + payload.length))
                  (unread.drop (recPrefix + len))

/-- `segment::scan`, of a file with these bytes. -/
def scan (path : Path) (bytes : Bytes) (visit : β → Record → Except Err (β × Bool)) (b : β) :
    Except Err (β × Scan) :=
  let prologue := bytes.take segPrologue
  if prologue.length ≠ segPrologue ∨ prologue.take 8 ≠ segMagic then .error (.notASegment path)
  else walk visit bytes.length bytes.length b segPrologue (bytes.drop segPrologue)

/-! ### What a scan finds

Whoever visits, a scan meets the same records and stops at the same place. -/

inductive Item
  | stop (torn : Bool)
  | record (r : Record)

/-- What stands at the head of the bytes not yet read. -/
def item (unread : Bytes) : Item :=
  let filled := unread.take recPrefix
  if filled.length = 0 then .stop false
  else if filled.length ≠ recPrefix then .stop true
  else
    let (len, crc, version) := splitPrefix filled
    if len = 0 then .stop false
    else if maxPayload < len ∨ unread.length - recPrefix < len then .stop true
    else
      let payload := (unread.drop recPrefix).take len
      if checksum version payload ≠ crc then .stop true
      else .record ⟨version, payload⟩

theorem item_record_bounds {unread : Bytes} {r : Record} (h : item unread = .record r) :
    recPrefix + r.patch.length ≤ unread.length ∧ 0 < r.patch.length ∧
      r.patch.length ≤ maxPayload := by
  simp only [item] at h
  split_ifs at h with hnone hpart hzero hlong hsum
  cases h
  rw [List.length_take] at hpart
  rw [List.length_take, List.length_drop]
  omega

theorem item_record {unread : Bytes} {r : Record} (h : item unread = .record r) :
    Fits r ∧ unread = recordBytes r ++ unread.drop (recPrefix + r.patch.length) := by
  obtain ⟨hroom, hpos, hshort⟩ := item_record_bounds h
  have hfull : (unread.take recPrefix).length = recPrefix := by
    rw [List.length_take]
    omega
  have hfields := encode_splitPrefix hfull
  have hversion : (splitPrefix (unread.take recPrefix)).2.2 < 2 ^ 64 := by
    refine (ofLe_lt _).trans_le ((Nat.pow_le_pow_right (by omega) (List.length_take_le ..)).trans ?_)
    decide
  simp only [item] at h
  split_ifs at h with hnone hpart hzero hlong hsum
  cases h
  have hlength : ((unread.drop recPrefix).take (splitPrefix (unread.take recPrefix)).1).length =
      (splitPrefix (unread.take recPrefix)).1 := by
    rw [List.length_take, List.length_drop]
    omega
  refine ⟨⟨hpos, hshort, hversion⟩, ?_⟩
  rw [recordBytes, recordPrefix]
  simp only
  rw [hlength, not_not.mp hsum, hfields, ← List.drop_drop, List.append_assoc,
    List.take_append_drop, List.take_append_drop]

theorem item_recordBytes {r : Record} (h : Fits r) (rest : Bytes) :
    item (recordBytes r ++ rest) = .record r := by
  have hprefix : (recordBytes r ++ rest).take recPrefix = recordPrefix r.version r.patch := by
    rw [recordBytes, List.append_assoc, ← length_recordPrefix r.version r.patch, List.take_left]
  have hdrop : (recordBytes r ++ rest).drop recPrefix = r.patch ++ rest := by
    rw [recordBytes, List.append_assoc, ← length_recordPrefix r.version r.patch, List.drop_left]
  have hroom : ¬(maxPayload < r.patch.length ∨
      (recordBytes r ++ rest).length - recPrefix < r.patch.length) := by
    have hshort := h.short
    rw [List.length_append, length_recordBytes]
    omega
  have hpos := h.nonempty
  simp only [item, hprefix, length_recordPrefix, splitPrefix_recordPrefix h, hdrop,
    List.take_left]
  rw [if_neg (by decide), if_neg (by simp), if_neg hpos.ne', if_neg hroom, if_neg (by simp)]

theorem item_blank {bs : Bytes} (h : Blank bs) :
    item bs = .stop (decide (0 < bs.length ∧ bs.length < recPrefix)) := by
  have hlen : (splitPrefix (bs.take recPrefix)).1 = 0 := ofLe_blank ((h.take _).take _)
  simp only [item, List.length_take]
  split_ifs with hnone hpart
  · rw [recPrefix] at *
    congr 1
    exact (decide_eq_false (by omega)).symm
  · rw [recPrefix] at *
    congr 1
    exact (decide_eq_true (by omega)).symm
  · rw [recPrefix] at *
    congr 1
    exact (decide_eq_false (by omega)).symm

/-- The records a scan meets, the bytes it stops at, and whether they are torn. -/
structure Found where
  records : List Record
  rest : Bytes
  torn : Bool

def found (unread : Bytes) : Found :=
  match _h : item unread with
  | .stop torn => ⟨[], unread, torn⟩
  | .record r =>
      let later := found (unread.drop (recPrefix + r.patch.length))
      ⟨r :: later.records, later.rest, later.torn⟩
termination_by unread.length
decreasing_by
  have hbounds := item_record_bounds _h
  rw [List.length_drop, recPrefix]
  rw [recPrefix] at hbounds
  omega

theorem found_stop {unread : Bytes} {torn : Bool} (h : item unread = .stop torn) :
    found unread = ⟨[], unread, torn⟩ := by
  rw [found]
  split
  case h_1 t ht =>
    rw [h] at ht
    cases ht
    rfl
  case h_2 r hr => rw [h] at hr; cases hr

theorem found_record {unread : Bytes} {r : Record} (h : item unread = .record r) :
    found unread = ⟨r :: (found (unread.drop (recPrefix + r.patch.length))).records,
      (found (unread.drop (recPrefix + r.patch.length))).rest,
      (found (unread.drop (recPrefix + r.patch.length))).torn⟩ := by
  rw [found]
  split
  case h_1 t ht => rw [h] at ht; cases ht
  case h_2 r' hr =>
    rw [h] at hr
    cases hr
    rfl

/-- Induction along the records of a scan. -/
theorem found_induction {motive : Bytes → Prop}
    (stop : ∀ unread torn, item unread = .stop torn → motive unread)
    (record : ∀ unread r, item unread = .record r →
      motive (unread.drop (recPrefix + r.patch.length)) → motive unread) (unread : Bytes) :
    motive unread := by
  induction hn : unread.length using Nat.strong_induction_on generalizing unread with
  | _ n ih =>
      cases h : item unread with
      | stop torn => exact stop unread torn h
      | record r =>
          have hbounds := item_record_bounds h
          refine record unread r h (ih _ ?_ _ rfl)
          rw [List.length_drop, ← hn, recPrefix]
          rw [recPrefix] at hbounds
          omega

theorem found_spec (unread : Bytes) :
    unread = encodeRecords (found unread).records ++ (found unread).rest ∧
      (∀ r ∈ (found unread).records, Fits r) ∧
        item (found unread).rest = .stop (found unread).torn := by
  induction unread using found_induction with
  | stop unread torn h =>
      rw [found_stop h]
      exact ⟨rfl, by simp, h⟩
  | record unread r h ih =>
      obtain ⟨hbytes, hfits, hstop⟩ := ih
      obtain ⟨hr, hsplit⟩ := item_record h
      rw [found_record h]
      refine ⟨?_, ?_, hstop⟩
      · rw [encodeRecords_cons, List.append_assoc, ← hbytes]
        exact hsplit
      · rintro x (_ | ⟨_, hx⟩)
        · exact hr
        · exact hfits x hx

theorem found_encodeRecords {records : List Record} (h : ∀ r ∈ records, Fits r) (rest : Bytes) :
    found (encodeRecords records ++ rest) =
      ⟨records ++ (found rest).records, (found rest).rest, (found rest).torn⟩ := by
  induction records with
  | nil => rfl
  | cons r records ih =>
      have hitem : item (encodeRecords (r :: records) ++ rest) = .record r := by
        rw [encodeRecords_cons, List.append_assoc]
        exact item_recordBytes (h r List.mem_cons_self) _
      have hdrop : (encodeRecords (r :: records) ++ rest).drop (recPrefix + r.patch.length) =
          encodeRecords records ++ rest := by
        rw [encodeRecords_cons, List.append_assoc, ← length_recordBytes, List.drop_left]
      rw [found_record hitem, hdrop, ih fun x hx => h x (List.mem_cons_of_mem _ hx)]
      rfl

theorem found_blank {bs : Bytes} (h : Blank bs) :
    found bs = ⟨[], bs, decide (0 < bs.length ∧ bs.length < recPrefix)⟩ :=
  found_stop (item_blank h)

/-- Visiting the records in order, until a visit fails or breaks. -/
def visitAll (visit : β → Record → Except Err (β × Bool)) (b : β) :
    List Record → Except Err (β × Bool)
  | [] => .ok (b, false)
  | r :: records =>
      match visit b r with
      | .error e => .error e
      | .ok (b', true) => .ok (b', true)
      | .ok (b', false) => visitAll visit b' records

theorem walk_succ (visit : β → Record → Except Err (β × Bool)) {fileLen stop : ℕ} (fuel : ℕ)
    (b : β) {unread : Bytes} (h : fileLen = stop + unread.length) :
    walk visit fileLen (fuel + 1) b stop unread = match item unread with
      | .stop torn => .ok (b, ⟨stop, fileLen, torn⟩)
      | .record r => match visit b r with
        | .error e => .error e
        | .ok (b', true) => .ok (b', ⟨stop + (recPrefix + r.patch.length), fileLen, false⟩)
        | .ok (b', false) => walk visit fileLen fuel b' (stop + (recPrefix + r.patch.length))
            (unread.drop (recPrefix + r.patch.length)) := by
  have hroom : fileLen - (stop + recPrefix) = unread.length - recPrefix := by omega
  simp only [walk, item, hroom]
  split_ifs with hnone hpart hzero hlong hpayload hsum hsum
  · rfl
  · rfl
  · rfl
  · rfl
  · rfl
  -- a record that fits the file arrives whole
  · rw [List.length_take, List.length_drop] at hpayload
    omega
  · rfl
  · simp only [not_not.mp hpayload]

/-- A scan hands its visitor the records it finds, and stops where they end
unless the visit ended it. -/
theorem walk_visitAll (visit : β → Record → Except Err (β × Bool)) {fileLen stop fuel : ℕ} (b : β)
    {unread : Bytes} (hlen : fileLen = stop + unread.length) (hfuel : unread.length ≤ fuel) :
    match visitAll visit b (found unread).records with
    | .error e => walk visit fileLen fuel b stop unread = .error e
    | .ok (b', true) => ∃ s, walk visit fileLen fuel b stop unread = .ok (b', s)
    | .ok (b', false) => walk visit fileLen fuel b stop unread =
        .ok (b', ⟨stop + (encodeRecords (found unread).records).length, fileLen,
          (found unread).torn⟩) := by
  induction fuel generalizing b stop unread with
  | zero =>
      obtain rfl : unread = [] := List.length_eq_zero_iff.mp (by omega)
      rw [found_blank blank_nil]
      rfl
  | succ fuel ih =>
      rw [walk_succ visit fuel b hlen]
      cases hitem : item unread with
      | stop torn =>
          rw [found_stop hitem]
          rfl
      | record r =>
          rw [found_record hitem]
          simp only [visitAll]
          cases hvisit : visit b r with
          | error e => rfl
          | ok next =>
              obtain ⟨b', broke⟩ := next
              cases broke with
              | true => exact ⟨_, rfl⟩
              | false =>
                  have hbounds := item_record_bounds hitem
                  rw [recPrefix] at hbounds ⊢
                  have hrest := @ih (stop + (16 + r.patch.length)) b' (unread.drop (16 + r.patch.length))
                    (by rw [List.length_drop]; omega) (by rw [List.length_drop]; omega)
                  rw [Nat.add_assoc] at hrest
                  rw [encodeRecords_cons, List.length_append, length_recordBytes, recPrefix]
                  exact hrest

end Lug.Wal
