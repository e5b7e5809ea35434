import Lug.Wal.Mark
import Lug.Wal.Run

/-!
The end of the active segment means the end: what is below it are the records of the
log, and nothing is above it.
-/

namespace Lug.Wal

open Octets Faulty Runs

/-- A store that is loaded and not poisoned has the records of the log in its last
segment, from the prologue to the end it goes by, and zeroes behind it. -/
theorem Run.tail_exact [Crc32] {V : Type} [Versioned V] [HeaderSerde V] [LawfulHeaderSerde V]
    {Meets : World → Event V → Prop} {w : World} (h : Run Meets w) (hup : w.phase = .up)
    (hclean : w.machine.store.poison = none) {segment : Segment}
    (hlast : w.machine.store.last = some segment) :
    ∃ content, w.machine.dir.bytes segment.path = some content ∧
      segPrologue ≤ segment.stop ∧ segment.stop ≤ content.length ∧
      content.take segPrologue = segmentPrologue ∧
      (content.take segment.stop).drop segPrologue = encodeRecords (w.log.since segment.first) ∧
      Blank (content.drop segment.stop) := by
  have hgood := h.good
  rw [World.Good, hup] at hgood
  obtain ⟨L, stale, hkept⟩ := hgood
  rw [hkept.last_segment, Option.map_eq_some_iff] at hlast
  obtain ⟨p, hp, rfl⟩ := hlast
  have hmem := Layout.mem_spans_of_last hp
  obtain ⟨hpos, hprefix⟩ := hkept.taken p.toSpan hmem
  obtain ⟨hnext, -⟩ := hkept.last p hp
  have hrecords : p.records = w.log.since p.first := by
    refine hprefix.eq_of_length ?_
    rw [Span.next] at hnext
    rw [Journal.length_since hpos]
    omega
  obtain ⟨post, hfiles⟩ : ∃ post,
      w.machine.dir.segments = L.closed.map Piece.file ++ (p.first, p.body ++ p.rest) :: post := by
    refine ⟨L.stub.toList.map Stub.file, ?_⟩
    rw [hkept.files, Layout.files, Layout.pieces, hp]
    simp [Piece.file]
  have hbody : (p.body ++ p.rest).take p.stop = p.body := by
    rw [← Span.length_body, List.take_left]
  have hlength : p.body.length = p.stop := p.length_body
  refine ⟨p.body ++ p.rest, Dir.bytes_segment hfiles, Nat.le_add_right .., ?_, ?_, ?_, ?_⟩
  · rw [List.length_append, hlength]
    exact Nat.le_add_right ..
  · rw [Span.body, List.append_assoc, ← length_segmentPrologue, List.take_left]
  · show ((p.body ++ p.rest).take p.stop).drop segPrologue = encodeRecords (w.log.since p.first)
    rw [hbody, ← hrecords, Span.body, ← length_segmentPrologue, List.drop_left]
  · rw [show p.segment.stop = p.stop from rfl, ← hlength, List.drop_left]
    exact hkept.clean hclean p hp

/-! ### A run -/

/-- A store without memory, on an empty directory. -/
def World.initial : World := ⟨.down, ⟨⟨[], none, 0, 0, 0, false, none⟩, Dir.empty⟩, ⟨0, []⟩⟩

section Sample

attribute [local instance] ieee

/-- A store that was loaded and took one record. -/
def World.written : World :=
  ((World.initial.step calm (.opening 64 : Event Mark)).step calm (.load : Event Mark)).step calm
    (.append [⟨1, [7]⟩] : Event Mark)

theorem run_written : Run (fun _ (_ : Event Mark) => True) World.written :=
  .step calm (.step calm (.step calm (.start _) rfl trivial) (show Phase.opened ≠ .down by decide) trivial)
    (.inr (.inl rfl)) trivial

/-- The witness of `Run.tail_exact`. -/
theorem written_tail : ∃ content, World.written.machine.dir.bytes (.segment 1) = some content ∧
    segPrologue ≤ 33 ∧ 33 ≤ content.length ∧ content.take segPrologue = segmentPrologue ∧
    (content.take 33).drop segPrologue = encodeRecords [⟨1, [7]⟩] ∧ Blank (content.drop 33) := by
  have hlast : World.written.machine.store.last = some ⟨1, 33, 1⟩ := rfl
  exact Run.tail_exact run_written rfl rfl hlast

end Sample

end Lug.Wal
