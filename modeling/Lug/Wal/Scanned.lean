import Lug.Wal.Mark
import Lug.Wal.Recovery

/-!
What a scan finds in a segment file: the longest run of well formed records its
bytes start with, whatever stands behind them.
-/

namespace Lug.Wal

open Octets

/-- A visitor that never stops a scan. -/
def tireless {β : Type} (see : β → Record → β) : β → Record → Except Err (β × Bool) :=
  fun b r => .ok (see b r, false)

section

variable [Crc32]

/-- The length, the checksum and the version at the head of these bytes are those of
a record that stands in them whole. -/
structure WellFormed (unread : Bytes) : Prop where
  framed : recPrefix ≤ unread.length
  nonempty : 0 < (splitPrefix (unread.take recPrefix)).1
  short : (splitPrefix (unread.take recPrefix)).1 ≤ maxPayload
  held : recPrefix + (splitPrefix (unread.take recPrefix)).1 ≤ unread.length
  summed : checksum (splitPrefix (unread.take recPrefix)).2.2
      ((unread.drop recPrefix).take (splitPrefix (unread.take recPrefix)).1) =
    (splitPrefix (unread.take recPrefix)).2.1

theorem WellFormed.item_eq {unread : Bytes} (h : WellFormed unread) :
    item unread = .record ⟨(splitPrefix (unread.take recPrefix)).2.2,
      (unread.drop recPrefix).take (splitPrefix (unread.take recPrefix)).1⟩ := by
  obtain ⟨hframed, hnonempty, hshort, hheld, hsummed⟩ := h
  have hfilled : (unread.take recPrefix).length = recPrefix := by
    rw [List.length_take]
    omega
  have hroom : ¬(maxPayload < (splitPrefix (unread.take recPrefix)).1 ∨
      unread.length - recPrefix < (splitPrefix (unread.take recPrefix)).1) := by
    omega
  simp only [item, hfilled]
  rw [if_neg (by decide), if_neg (not_not.mpr rfl), if_neg hnonempty.ne', if_neg hroom,
    if_neg (not_not.mpr hsummed)]

/-- Where a scan stops there is no record. -/
theorem not_wellFormed_of_stop {unread : Bytes} {torn : Bool} (h : item unread = .stop torn) :
    ¬WellFormed unread := by
  intro hwell
  rw [hwell.item_eq] at h
  cases h

/-- What a scan hands to its visitor, and where it stops. -/
theorem scan_tireless {f : File} (h : HasMagic f) (path : Path) {β : Type} (see : β → Record → β)
    (b : β) : scan path f.2 (tireless see) b =
      .ok ((contents f).records.foldl see b, ⟨stopOf f, f.2.length, (contents f).torn⟩) := by
  have htotal := scan_total h path (fun b r => .ok (see b r)) b
  have hfold : ∀ (records : List Record) (b : β),
      records.foldlM (fun b r => (.ok (see b r) : Except Err β)) b = .ok (records.foldl see b) := by
    intro records
    induction records with
    | nil => exact fun _ => rfl
    | cons r records ih => exact fun b => ih (see b r)
  rw [hfold] at htotal
  exact htotal

omit [Crc32] in
theorem hasMagic_prologue (first : ℕ) (rest : Bytes) :
    HasMagic (first, segmentPrologue ++ rest) := by
  have htake : (segmentPrologue ++ rest).take segPrologue = segmentPrologue :=
    List.take_left' length_segmentPrologue
  refine ⟨?_, ?_⟩
  · show ((segmentPrologue ++ rest).take segPrologue).length = segPrologue
    rw [htake, length_segmentPrologue]
  · show ((segmentPrologue ++ rest).take segPrologue).take 8 = segMagic
    rw [htake]
    rfl

/-- A scan finds the longest run of records. Of a file that was written, with room
behind it, it finds what was written; of any file what it visits is what stands in
front of the place it stops at, and no record starts there. -/
theorem scan_longest (path : Path) :
    (∀ (rs : List Record) (n : ℕ), (∀ r ∈ rs, Fits r) →
      ∀ {β : Type} (see : β → Record → β) (b : β),
        scan path (segmentPrologue ++ encodeRecords rs ++ zeroes n) (tireless see) b =
          .ok (rs.foldl see b, ⟨segPrologue + (encodeRecords rs).length,
            segPrologue + (encodeRecords rs).length + n, decide (0 < n ∧ n < recPrefix)⟩)) ∧
    ∀ bytes : Bytes, segPrologue ≤ bytes.length → bytes.take 8 = segMagic →
      ∃ (rs : List Record) (stop : ℕ) (torn : Bool),
        (∀ {β : Type} (see : β → Record → β) (b : β), scan path bytes (tireless see) b =
          .ok (rs.foldl see b, ⟨stop, bytes.length, torn⟩)) ∧
        (∀ r ∈ rs, Fits r) ∧ segPrologue ≤ stop ∧ stop ≤ bytes.length ∧
          (bytes.drop segPrologue).take (stop - segPrologue) = encodeRecords rs ∧
            ¬WellFormed (bytes.drop stop) := by
  refine ⟨fun rs n hfits β see b => ?_, fun bytes hlength hmagic => ?_⟩
  · have hmagic := hasMagic_prologue 0 (encodeRecords rs ++ zeroes n)
    have hdrop : (segmentPrologue ++ (encodeRecords rs ++ zeroes n)).drop segPrologue =
        encodeRecords rs ++ zeroes n := List.drop_left' length_segmentPrologue
    have hfound : contents (0, segmentPrologue ++ (encodeRecords rs ++ zeroes n)) =
        ⟨rs, zeroes n, decide (0 < n ∧ n < recPrefix)⟩ := by
      rw [contents, hdrop, found_encodeRecords hfits, found_blank (blank_zeroes n), length_zeroes,
        List.append_nil]
    have hscan := scan_tireless hmagic path see b
    rw [stopOf, hfound] at hscan
    rw [List.append_assoc, hscan, List.length_append, List.length_append, length_zeroes,
      length_segmentPrologue, Nat.add_assoc]
  · have hfile : HasMagic (0, bytes) := by
      refine ⟨?_, ?_⟩
      · show (bytes.take segPrologue).length = segPrologue
        rw [List.length_take]
        omega
      · show (bytes.take segPrologue).take 8 = segMagic
        rw [List.take_take]
        exact hmagic
    obtain ⟨hbytes, hfits, hstop⟩ := found_spec (bytes.drop segPrologue)
    have hlen := congrArg List.length hbytes
    rw [List.length_append, List.length_drop] at hlen
    have hpast : bytes.drop (stopOf (0, bytes)) = (found (bytes.drop segPrologue)).rest := by
      show bytes.drop
        (segPrologue + (encodeRecords (found (bytes.drop segPrologue)).records).length) = _
      rw [← List.drop_drop]
      exact (congrArg (List.drop _) hbytes).trans List.drop_left
    refine ⟨(contents (0, bytes)).records, stopOf (0, bytes), (contents (0, bytes)).torn,
      fun see b => scan_tireless hfile path see b, hfits, Nat.le_add_right _ _, ?_, ?_, ?_⟩
    · show segPrologue + (encodeRecords (found (bytes.drop segPrologue)).records).length ≤
        bytes.length
      omega
    · rw [stopOf, Nat.add_sub_cancel_left]
      exact (congrArg (List.take _) hbytes).trans List.take_left
    · rw [hpast]
      exact not_wellFormed_of_stop hstop

end

/-- One record of one byte with part of a prefix behind it, and a file that is a
prologue. -/
theorem scan_longest_one :
    @scan ieee (List Record) .dir (segmentPrologue ++ @encodeRecords ieee [⟨1, [0]⟩] ++ zeroes 3)
        (tireless fun seen r => seen ++ [r]) [] = .ok ([⟨1, [0]⟩], ⟨33, 36, true⟩) ∧
      ∃ rs stop torn, @scan ieee (List Record) .dir segmentPrologue
        (tireless fun seen r => seen ++ [r]) [] = .ok (rs, ⟨stop, 16, torn⟩) := by
  have hfits : ∀ r ∈ [(⟨1, [0]⟩ : Record)], Fits r := by
    intro r hr
    rw [List.mem_singleton.mp hr]
    exact ⟨by decide, by decide, by decide⟩
  refine ⟨(@scan_longest ieee .dir).1 [⟨1, [0]⟩] 3 hfits (fun seen r => seen ++ [r]) [], ?_⟩
  obtain ⟨rs, stop, torn, hscan, -⟩ := (@scan_longest ieee .dir).2 segmentPrologue (by decide) rfl
  exact ⟨_, stop, torn, hscan (fun seen r => seen ++ [r]) []⟩

end Lug.Wal
