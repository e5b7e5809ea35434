import Lug.Wal.Header

/-!
What a process finds that opens a log directory and loads it: whether the load
succeeds is a matter of how the directory is laid out, and then it returns the log.
-/

namespace Lug.Wal

open Octets Faulty Runs

/-! ### A process that starts -/

section Reopening

variable [Crc32] (V : Type) [Versioned V] [HeaderSerde V] {env env' : Env} {m : Machine}

/-- `open_with`, then `load`. -/
def reopen (env env' : Env) (rotateBytes : ℕ) : Op (Recovered V) := do
  openWith V env rotateBytes
  load V env'

omit [Crc32] in
/-- A call that is known to succeed. -/
theorem ends_sys_ok {site : Site} {path : Path} {effect : Dir → Dir}
    {Q : Exit Err Unit → Machine → Prop} (hreply : env.reply site = .ok)
    (ok : Q (.ok ()) { m with dir := effect m.dir }) :
    Ends (sys path (call env site effect)) Q m := by
  refine ends_sys_call (fun _ => ok) (fun hfail => ?_) (fun hdie => ?_)
  · rw [hreply] at hfail
    cases hfail
  · rw [hreply] at hdie
    cases hdie

/-- `open` fails with the header, and with nothing else. -/
theorem ends_openWith_calm (hcalm : env.Calm) (rotateBytes : ℕ) :
    Ends (openWith V env rotateBytes) (fun x m' => m'.dir = m.dir ∧
      match headerOf V m.dir with
      | .error e => x = .error e
      | .ok _ => x = .ok ()) m := by
  rw [openWith, ends_bind]
  refine ends_sys_ok (hcalm.reply _) ?_
  rw [after_ok, ends_bind]
  refine ends_sys_ok (hcalm.reply _) ?_
  rw [after_ok, ends_bind]
  refine ends_sys_ok (hcalm.reply _) ?_
  rw [after_ok, if_neg (by rw [hcalm.unlocked]; simp), ends_bind, ends_upd, after_ok, ends_bind,
    listSegments, ends_bind]
  refine ends_sys_ok (hcalm.reply _) ?_
  rw [after_ok, ends_modify, after_ok, ends_bind]
  refine (ends_readHeader V).mono ?_
  rintro x m₁ ⟨rfl, hfollows⟩
  have hfollows : Follows env.Calm x (headerOf V m.dir) := hfollows
  cases hheader : headerOf V m.dir with
  | error e =>
      rw [hheader] at hfollows
      rw [hfollows.error hcalm]
      exact ⟨rfl, rfl⟩
  | ok header =>
      rw [hheader] at hfollows
      rw [hfollows.ok hcalm]
      exact ⟨rfl, rfl⟩

/-- A process that starts while nothing fails loads what is there. -/
theorem reopen_follows (hcalm : env.Calm) (hcalm' : env'.Calm) (rotateBytes : ℕ) :
    Ends (reopen V env env' rotateBytes) (fun x _ => Follows True x (loaded V m.dir)) m := by
  rw [reopen, ends_bind]
  refine (ends_openWith_calm V hcalm rotateBytes).mono ?_
  rintro x m₁ ⟨hdir, hopened⟩
  cases hheader : headerOf V m.dir with
  | error e =>
      rw [hheader] at hopened
      obtain rfl : x = .error e := hopened
      refine .inl ?_
      rw [loaded, hheader]
  | ok header =>
      rw [hheader] at hopened
      obtain rfl : x = .ok () := hopened
      rw [after_ok]
      refine (ends_load V).mono ?_
      rintro x m₂ hloading
      have hfollows := hloading.follows
      rw [hdir] at hfollows
      cases x with
      | ok found => exact hfollows
      | error e => exact hfollows.imp_right fun hnot => absurd hcalm' hnot
      | died => exact absurd hcalm' hfollows

theorem reopen_ok_iff (hcalm : env.Calm) (hcalm' : env'.Calm) {rotateBytes : ℕ}
    {found : Recovered V} :
    (reopen V env env' rotateBytes m).1 = .ok found ↔ loaded V m.dir = .ok found := by
  have hfollows : Follows True _ _ := reopen_follows V hcalm hcalm' rotateBytes (m := m)
  constructor
  · intro hok
    rw [hok] at hfollows
    exact hfollows
  · intro hok
    rw [hok] at hfollows
    exact hfollows.ok trivial

end Reopening

variable [Crc32] {V : Type} [Versioned V] [HeaderSerde V] {log : Journal} {L : Layout} {d : Dir}

/-! ### What a load needs of a directory -/

/-- What a load needs of a directory that may have a stub. -/
structure Layout.Loadable (L : Layout) : Prop extends L.Sound where
  stamped : ∀ s, L.stub = some s → HasMagic s.file
  apart : L.stub.isSome → ∀ p, L.last = some p → Untorn p.rest

namespace Left

/-- Behind a stub nothing is found. -/
theorem extra_of_stub (h : Left V log L d) {s : Stub} (hs : L.stub = some s) : L.extra = [] := by
  rw [Layout.extra]
  cases hlast : L.last with
  | none => rfl
  | some p =>
      rw [Option.elim_some, found_blank ((h.stub s hs).2 p hlast).2]

/-- A stub that starts as a segment does goes on where the log ends. -/
theorem loadable_promote (h : Left V log L d) {s : Stub} (hs : L.stub = some s)
    (hmagic : HasMagic s.file) {z : Bytes} (hz : Blank z) :
    Layout.Sound ⟨L.pieces, some ⟨⟨s.first, []⟩, z⟩, none⟩ ↔ L.Loadable := by
  have hfull := (h.stub s hs).2
  have hspans : Layout.spans ⟨L.pieces, some ⟨⟨s.first, []⟩, z⟩, none⟩ =
      L.spans ++ [⟨s.first, []⟩] := by
    rw [Layout.spans, Layout.pieces, List.map_append]
    rfl
  constructor
  · rintro ⟨hwhole, ⟨n, hlinked⟩, -⟩
    rw [hspans, linked_append] at hlinked
    refine ⟨⟨fun p hp => hwhole p (List.mem_append_left _ hp), ⟨n, hlinked.1⟩, ?_⟩, ?_, ?_⟩
    · intro p hp
      rw [found_blank (hfull p hp).2]
      trivial
    · intro t ht
      rw [hs] at ht
      cases ht
      exact hmagic
    · intro _ p hp
      exact hwhole p (List.mem_append_right _ (Option.mem_toList.mpr hp))
  · rintro ⟨⟨hwhole, ⟨n, hlinked⟩, -⟩, -, hapart⟩
    refine ⟨?_, ?_, ?_⟩
    · intro p hp
      cases List.mem_append.mp hp with
      | inl hclosed => exact hwhole p hclosed
      | inr hlast => exact hapart (by rw [hs]; rfl) p (Option.mem_toList.mp hlast)
    · rw [hspans]
      cases hlast : L.last with
      | none =>
          have hnil : L.spans = [] := by
            rw [Layout.spans, Layout.pieces, hlast, (h.empty hlast).1]
            rfl
          rw [hnil]
          exact ⟨s.first, rfl, trivial⟩
      | some p =>
          refine ⟨n, linked_append.mpr ⟨hlinked, ?_, trivial⟩⟩
          rw [Layout.spans_of_last hlast, nextOf_append_singleton, (h.last p hlast).1]
          exact (h.stub s hs).1.first
    · rintro p hp
      cases hp
      rw [found_blank hz]
      trivial

/-- When the segment files of a directory load, and what they hold. -/
theorem recovery_loadable_iff (h : Left V log L d) {header : Option (Header V)}
    (hheader : headerOf V d = .ok header) {collect : Bool} {tail : List Record} :
    recovery (versionOf header) collect d.segments = .ok tail ↔ L.Loadable ∧
      tail = if collect then above (versionOf header) (log.append L.extra).records else [] := by
  cases hstub : L.stub with
  | none =>
      rw [h.recovery_iff hstub hheader]
      refine and_congr_left fun _ => ⟨fun hsound => ⟨hsound, ?_, ?_⟩, fun hload => hload.toSound⟩
      · rw [hstub]
        nofun
      · rw [hstub]
        nofun
  | some s =>
      have hmem : s.file ∈ d.segments := by
        rw [h.files, Layout.files, hstub]
        simp
      have hextra := h.extra_of_stub hstub
      by_cases hmagic : HasMagic s.file
      · obtain ⟨z, hz, hleft⟩ := h.promote hstub hmagic
        have hnone : Layout.extra ⟨L.pieces, some ⟨⟨s.first, []⟩, z⟩, none⟩ = L.extra := by
          rw [hextra, Layout.extra, Option.elim_some, found_blank hz]
        rw [hleft.recovery_iff rfl hheader, h.loadable_promote hstub hmagic hz, hnone]
      · refine iff_of_false (fun hok => hmagic ?_) fun hload => hmagic (hload.1.stamped s hstub)
        exact (recovery_ok_iff.mp hok).1.magic s.file hmem

/-- When a directory loads, and what a load returns. -/
theorem loaded_iff (h : Left V log L d) {found : Recovered V} :
    loaded V d = .ok found ↔ L.Loadable ∧ ∃ header, headerOf V d = .ok header ∧
      found = ⟨header.map Header.view, above (versionOf header) (log.append L.extra).records⟩ := by
  rw [loaded]
  cases hheader : headerOf V d with
  | error e =>
      dsimp only
      refine iff_of_false (fun h => by cases h) ?_
      rintro ⟨-, header, hread, -⟩
      cases hread
  | ok header =>
      dsimp only
      cases hrecovery : recovery (versionOf header) true d.segments with
      | error e =>
          refine iff_of_false (fun h => by cases h) ?_
          rintro ⟨hload, -⟩
          rw [(h.recovery_loadable_iff hheader).mpr ⟨hload, rfl⟩] at hrecovery
          cases hrecovery
      | ok tail =>
          obtain ⟨hload, rfl⟩ := (h.recovery_loadable_iff hheader).mp hrecovery
          dsimp only
          rw [if_pos rfl]
          constructor
          · intro hfound
            exact ⟨hload, header, rfl, (Except.ok.inj hfound).symm⟩
          · rintro ⟨-, header', hread, rfl⟩
            rw [Except.ok.inj hread]

end Left

/-! ### Where a load ends -/

/-- The last version of what was loaded, which is the header's where nothing is above it. -/
def reaches (found : Recovered V) : ℕ :=
  found.tail.getLast?.elim (found.header.elim 0 Versioned.version) Record.version

/-- The version of a header is the version of its view. -/
theorem version_headerOf {header : Option (Header V)} (h : headerOf V d = .ok header) :
    (header.map Header.view).elim 0 Versioned.version = versionOf header := by
  rw [headerOf] at h
  cases hbytes : d.header with
  | none =>
      rw [hbytes] at h
      cases h
      rfl
  | some bytes =>
      rw [hbytes] at h
      cases hparse : (parseHeader bytes : Except Err (Header V)) with
      | error e =>
          dsimp only at h
          rw [hparse] at h
          cases h
      | ok read =>
          dsimp only at h
          rw [hparse] at h
          cases h
          exact (agrees_of_parseHeader hparse).2.version.symm

/-- What is loaded ends where the log does, with what an unfinished batch left of it. -/
theorem Left.reaches_loaded (h : Left V log L d) {found : Recovered V}
    (hloaded : loaded V d = .ok found) : reaches found = (log.append L.extra).tip := by
  obtain ⟨hload, header, hheader, rfl⟩ := h.loaded_iff.mp hloaded
  have hrun := h.sound_run hload.toSound
  obtain ⟨hbase, htip⟩ := h.header header hheader
  rw [reaches, version_headerOf hheader, above, hrun.filter_lt]
  have hend : (log.append L.extra).tip = log.base + (log.append L.extra).records.length := rfl
  have hlong : log.tip ≤ (log.append L.extra).tip := by
    rw [Journal.tip_append]
    exact Nat.le_add_right ..
  generalize (log.append L.extra).records = records at hrun hend ⊢
  cases hlast : (records.drop (versionOf header + 1 - (log.base + 1))).getLast? with
  | none =>
      rw [List.getLast?_eq_none_iff, List.drop_eq_nil_iff] at hlast
      rw [Option.elim_none]
      omega
  | some r =>
      have hversion := (hrun.drop _).last_eq hlast
      have hpos := List.length_pos_of_ne_nil (List.ne_nil_of_mem (List.mem_of_getLast? hlast))
      rw [List.length_drop] at hversion hpos
      rw [Option.elim_some]
      omega

end Lug.Wal
