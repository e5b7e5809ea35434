import Lug.Core.Archive
import Lug.Core.Noop
import Lug.Server.Group

/-!
What the actor owes its clients and its subscribers: appends happen once or not
at all, the ring and the published watermark follow the log, and batching cannot
be told from serving every command alone. A flush that fails behind a write
breaks the first two, since `Log::append` then answers an error for records that
storage holds.
-/

namespace Lug

open Reducible ReducibleContract StorageContract Runs

namespace Actor

/-! ### Runs on a fresh log -/

/-- The log a fresh archive opens; `failSyncs` plans its flushes. -/
def freshLog (faulty : Bool) (failSyncs : List Bool) : Log Noop (Archive Tick faulty) :=
  ⟨⟨0⟩, ⟨[], none, [], failSyncs⟩, 0, 0⟩

theorem freshLog_sound (faulty : Bool) (failSyncs : List Bool) :
    (freshLog faulty failSyncs).Sound ⟨[], none⟩ where
  holds := Archive.holds_new [] failSyncs
  version := rfl
  top := rfl
  fits := le_rfl
  run := trivial
  counter := by simp [freshLog]

def freshActor (faulty : Bool) (failSyncs : List Bool) : Actor Noop (Archive Tick faulty) :=
  Actor.new (freshLog faulty failSyncs) ⟨Ring.new 4, 0, 0, ⟨0, 0, 0⟩⟩ 8 0

/-- One durable append of one patch. -/
def durableNull : List (Bool × Command ℕ) := [(false, .append [.null] .durable 0)]

attribute [local instance] nullText

/-! ### Exactly once -/

section

variable {D S P V ι : Type} [TextCodec] [Versioned V] [Serde P] [Reducible D P V] [Storage S V]
  [ReducibleContract D] [StorageContract S]

/-- Every append answered with versions has left its state-changing patches in
storage, once each, in order and at these versions; one answered with an error
has left nothing; and nothing else is there. -/
def ExactlyOnce (a : Actor D S) (L : Ledger V) (commands : List (Bool × Command ι)) : Prop :=
  ∃ out rs L', (a.run commands).1.Perm out ∧
    Serial S a.log.data (commands.map Prod.snd) out rs (a.run commands).2.log.data ∧
    Holds (a.run commands).2.log.storage L' ∧ L'.taken = L.taken ++ rs

theorem exactlyOnce_of_flushes [LawfulSerde P] {a : Actor D S} {L : Ledger V}
    (h : a.log.Sound L) {commands : List (Bool × Command ι)} (hflush : a.RunFlushes commands) :
    a.ExactlyOnce L commands := by
  obtain ⟨out, rs, L', hperm, hrun⟩ := run_spec h hflush
  exact ⟨out, rs, L', hperm, hrun.serial, hrun.sound.holds, hrun.taken⟩

end

/-- The flush fails behind the write: the client is told that the append did not
happen, and its record stands in storage. -/
theorem unflushed_not_exactlyOnce : (freshActor true [true]).log.Sound ⟨[], none⟩ ∧
    ((freshActor true [true]).run durableNull).1 =
      [(0, .append (.error ⟨.storage, "storage failed: storage is refusing flushes"⟩))] ∧
    ((freshActor true [true]).run durableNull).2.log.storage.records =
      [⟨1, "null".toUTF8.toList⟩] ∧
    ¬ ExactlyOnce (freshActor true [true]) ⟨[], none⟩ durableNull := by
  have hout : ((freshActor true [true]).run durableNull).1 =
      [(0, .append (.error ⟨.storage, "storage failed: storage is refusing flushes"⟩))] := rfl
  have hrecords : ((freshActor true [true]).run durableNull).2.log.storage.records =
      [⟨1, "null".toUTF8.toList⟩] := rfl
  refine ⟨freshLog_sound true [true], hout, hrecords, ?_⟩
  rintro ⟨out, rs, L', hperm, hserial, hholds, htaken⟩
  obtain ⟨rfl, -⟩ := hholds
  have hrs : [⟨1, "null".toUTF8.toList⟩] = [] ++ rs := hrecords.symm.trans htaken
  rw [hout, List.singleton_perm] at hperm
  subst hperm
  -- The only reply is an error, so the serial run records nothing.
  cases hserial with
  | refused why rest =>
      cases rest
      cases hrs

theorem flushed_exactlyOnce :
    ExactlyOnce (freshActor false []) ⟨[], none⟩ durableNull :=
  exactlyOnce_of_flushes (freshLog_sound false [])
    (runFlushes_of_unfailing Archive.unfailing (freshLog_sound false []) durableNull)

/-! ### Publication -/

section

variable {D S P V ι : Type} [TextCodec] [Versioned V] [Serde P] [Reducible D P V] [Storage S V]
  [ReducibleContract D] [StorageContract S]

/-- What subscribers see of the log: its watermark, and the end of what was
committed since the actor started on the history `L₀`. -/
structure Published (L₀ : Ledger V) (a : Actor D S) : Prop where
  watermark : a.shared.watermark = a.log.watermark
  ring : ∃ L rs es, Holds a.log.storage L ∧ L.taken = L₀.taken ++ rs ∧
    List.Forall₂ (Entry.Shows P) es rs ∧
    a.shared.ring.entries = es.rtake a.shared.ring.capacity
  contiguous : a.shared.ring.entries.length ≤ a.log.watermark ∧
    Consecutive Entry.version (a.log.watermark + 1 - a.shared.ring.entries.length)
      a.shared.ring.entries
  reads : ∀ after limit maxBytes es, after ≤ versionMax →
    a.shared.ring.readAfter after limit maxBytes = .records es → es ≠ [] →
      Consecutive Entry.version (after + 1) es

omit [TextCodec] in
theorem Advances.published {a a' : Actor D S} {L L' : Ledger V} {queue : List (Command ι)}
    {out : List (ι × Reply)} {rs : List Record} (h : Advances a L queue out rs a' L')
    (hring : a.shared.ring.entries = []) (hw : a.shared.watermark = a.log.watermark) :
    Published (P := P) L a' := by
  obtain ⟨es, hshows, hentries⟩ := h.entries
  rw [hring, List.nil_append, ← h.capacity] at hentries
  have hlen : es.length = rs.length := hshows.length_eq
  have hfits := h.sound.fits
  have hrun := h.sound.run
  rw [h.taken, List.length_append] at hfits hrun
  -- The new records end the history, and the ring ends the new records.
  have hnew : Consecutive Entry.version (a'.log.watermark + 1 - es.length) es := by
    have hrs := (consecutive_append.mp hrun).2
    rw [show a'.log.watermark + 1 - (L.taken.length + rs.length) + L.taken.length =
      a'.log.watermark + 1 - es.length by omega] at hrs
    exact hrs.of_forall₂ (hshows.imp fun _ _ hs => hs.1)
  have hlast : a'.shared.ring.entries.length ≤ a'.log.watermark ∧
      Consecutive Entry.version (a'.log.watermark + 1 - a'.shared.ring.entries.length)
        a'.shared.ring.entries := by
    rw [hentries]
    have hlength : (es.rtake a'.shared.ring.capacity).length =
        es.length - (es.length - a'.shared.ring.capacity) := by
      rw [List.rtake, List.length_drop]
    refine ⟨by omega, ?_⟩
    have hend := hnew.rtake a'.shared.ring.capacity
    rwa [show a'.log.watermark + 1 - es.length + (es.length - a'.shared.ring.capacity) =
      a'.log.watermark + 1 - (es.rtake a'.shared.ring.capacity).length by omega] at hend
  refine ⟨h.watermark hw, ⟨L', rs, es, h.sound.holds, h.taken, hshows, hentries⟩, hlast, ?_⟩
  intro after limit maxBytes es' hafter hread hne
  exact (Ring.readAfter_consecutive hlast.2 hafter (by omega) hread hne).1

theorem published_of_flushes [LawfulSerde P] {log : Log D S} {L : Ledger V} (h : log.Sound L)
    (capacity batch checkpointEvery : ℕ) (metrics : Metrics) {commands : List (Bool × Command ι)}
    (hflush : (Actor.new log ⟨Ring.new capacity, 0, 0, metrics⟩ batch checkpointEvery).RunFlushes
      commands) :
    Published (P := P) L ((Actor.new log ⟨Ring.new capacity, 0, 0, metrics⟩ batch checkpointEvery).run
      commands).2 := by
  obtain ⟨out, rs, L', -, hrun⟩ := run_spec (L := L) h hflush
  exact hrun.published rfl rfl

end

/-- The record that the failed flush left behind never reaches the ring, and the
published watermark stays below the log's. -/
theorem unflushed_not_published : (freshActor true [true]).log.Sound ⟨[], none⟩ ∧
    ((freshActor true [true]).run durableNull).2.log.watermark = 1 ∧
    ((freshActor true [true]).run durableNull).2.shared.watermark = 0 ∧
    ¬ Published (P := Json) ⟨[], none⟩ ((freshActor true [true]).run durableNull).2 := by
  have hlog : ((freshActor true [true]).run durableNull).2.log.watermark = 1 := rfl
  have hshared : ((freshActor true [true]).run durableNull).2.shared.watermark = 0 := rfl
  refine ⟨freshLog_sound true [true], hlog, hshared, fun hpublished => ?_⟩
  have hw := hpublished.watermark
  rw [hlog, hshared] at hw
  cases hw

theorem flushed_published :
    Published (P := Json) ⟨[], none⟩ ((freshActor false []).run durableNull).2 :=
  published_of_flushes (freshLog_sound false []) 4 8 0 ⟨0, 0, 0⟩
    (runFlushes_of_unfailing Archive.unfailing (freshLog_sound false []) durableNull)

/-! ### Group commit -/

section

variable {D S P V ι : Type} [TextCodec] [Versioned V] [Serde P] [Reducible D P V] [Storage S V]
  [ReducibleContract D] [StorageContract S]

/-- What a client cannot tell apart: the actor serving a queue in groups, and the
actor serving every command of it by itself. -/
structure Invisible (a : Actor D S) (L : Ledger V) (commands : List (Command ι))
    (grouped alone : List (ι × Reply) × Actor D S) : Prop where
  data : Same grouped.2.log.data alone.2.log.data
  /-- The replies in the order of the queue, and the records both runs leave. -/
  replies : ∃ out out' rs, grouped.1.Perm out ∧ alone.1.Perm out' ∧
    out.map Prod.fst = commands.map Command.reply ∧
    out'.map Prod.fst = commands.map Command.reply ∧
    outcomes out = outcomes out' ∧
    (∃ L₁, Holds grouped.2.log.storage L₁ ∧ L₁.taken = L.taken ++ rs) ∧
    (∃ L₂, Holds alone.2.log.storage L₂ ∧ L₂.taken = L.taken ++ rs) ∧
    Consecutive Record.version (a.log.watermark + 1) rs ∧
    out.flatMap (fun o => o.2.acked) = rs.map Record.version ∧
    List.Forall₂ (fun command o => Command.DurableAcked command o.2) commands out

theorem group_commit_invisible [LawfulSerde P] (hu : Unfailing S) {a : Actor D S}
    {L : Ledger V} (h : a.log.Sound L) (commands : List (Bool × Command ι)) :
    Invisible a L (commands.map Prod.snd) (a.run commands)
      (a.run (commands.map fun command => (false, command.2))) := by
  have halone : (commands.map fun command => (false, command.2)).map Prod.snd =
      commands.map Prod.snd := by simp
  obtain ⟨out, rs, L₁, hperm, hgrouped⟩ := run_spec h (runFlushes_of_unfailing hu h commands)
  obtain ⟨out', rs', L₂, hperm', hsingle⟩ := run_spec h (runFlushes_of_unfailing hu h
    (commands.map fun command => (false, command.2)))
  rw [halone] at hsingle
  obtain ⟨houtcomes, rfl, hsame⟩ := hgrouped.serial.det hu hsingle.serial (same_refl _)
  refine ⟨hsame, out, out', rs, hperm, hperm', hgrouped.serial.replies, hsingle.serial.replies,
    houtcomes, ⟨L₁, hgrouped.sound.holds, hgrouped.taken⟩,
    ⟨L₂, hsingle.sound.holds, hsingle.taken⟩, ?_, hgrouped.serial.acked,
    hgrouped.serial.durable⟩
  have hrun := hgrouped.sound.run
  have hfits := hgrouped.sound.fits
  rw [hgrouped.taken, List.length_append] at hfits hrun
  have hnew := (consecutive_append.mp hrun).2
  have hend := hgrouped.serial.version_eq
  rw [h.version, hgrouped.sound.version] at hend
  rwa [show (a.run commands).2.log.watermark + 1 - (L.taken.length + rs.length) +
    L.taken.length = a.log.watermark + 1 by omega] at hnew

end

/-- Two commands, the second already waiting when the first is taken. -/
theorem group_commit_invisible_pair :
    Invisible (freshActor false []) ⟨[], none⟩
      [.append [.null] .written 0, .append [.null, .null] .durable 1]
      ((freshActor false []).run
        [(false, .append [.null] .written 0), (true, .append [.null, .null] .durable 1)])
      ((freshActor false []).run
        [(false, .append [.null] .written 0), (false, .append [.null, .null] .durable 1)]) :=
  group_commit_invisible Archive.unfailing (freshLog_sound false [])
    [(false, .append [.null] .written 0), (true, .append [.null, .null] .durable 1)]

end Actor

end Lug
