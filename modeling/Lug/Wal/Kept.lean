import Lug.Wal.Adopt

/-!
A loaded store at work: what holds of it and of the directory, and that an append
keeps it however it ends.
-/

namespace Lug.Wal

open Octets Faulty Runs

variable [Crc32] (V : Type) [Versioned V] [HeaderSerde V]

/-- A loaded store, its directory laid out as `L` and holding the records `log`. The
first `stale` of the closed segments are the store's no more, as their removal
failed. -/
structure Kept (log : Journal) (L : Layout) (stale : ℕ) (m : Machine) : Prop
    extends Left V log L m.dir where
  stale_le : stale ≤ L.closed.length
  segments : m.store.segments = (L.spans.drop stale).map Span.segment
  clean : m.store.poison = none → ∀ p, L.last = some p → Blank p.rest
  active : (m.store.active = none ∧ ∀ p, L.last = some p → p.records ≠ [] ∧ Blank p.rest) ∨
    L.stub = none ∧ ∃ p, L.last = some p ∧ m.store.active = some p.first
  linked : ∃ n, Linked n (L.spans.drop stale)
  covered : log.base ≤ m.store.headerVersion ∧ m.store.headerVersion ≤ log.tip
  known : ∀ h, headerOf V m.dir = .ok h → m.store.headerVersion ≤ versionOf h
  recovered : m.store.recovered = true
  room : segPrologue + recPrefix ≤ m.store.rotateBytes

variable {V} {log : Journal} {L L' : Layout} {stale : ℕ} {env : Env} {m m' : Machine} {p : Piece}

namespace Kept

/-- The spans of the segments that are the store's. -/
theorem live (h : Kept V log L stale m) (hlast : L.last = some p) :
    L.spans.drop stale = (L.closed.drop stale).map Piece.toSpan ++ [p.toSpan] := by
  have hle := h.stale_le
  rw [Layout.spans_of_last hlast, List.drop_append_of_le_length (by rw [List.length_map]; exact hle),
    List.map_drop]

theorem live_of_none (h : Kept V log L stale m) (hlast : L.last = none) :
    L.spans.drop stale = [] := by
  rw [Layout.spans, Layout.pieces, hlast, (h.empty hlast).1]
  exact List.drop_nil

theorem last_segment (h : Kept V log L stale m) :
    m.store.last = L.last.map fun p => p.toSpan.segment := by
  rw [SegmentStore.last, h.segments, List.getLast?_map]
  cases hlast : L.last with
  | none =>
      rw [h.live_of_none hlast]
      rfl
  | some p =>
      rw [h.live hlast, List.getLast?_concat]
      rfl

/-- The store goes on where the log ends. -/
theorem nextVersion (h : Kept V log L stale m) : m.store.nextVersion = log.next := by
  rw [SegmentStore.nextVersion, h.last_segment]
  cases hlast : L.last with
  | none =>
      have hcovered := h.covered
      rw [Journal.tip, (h.empty hlast).2, List.length_nil] at hcovered
      show m.store.headerVersion + 1 = log.next
      rw [Journal.next, Journal.tip, (h.empty hlast).2, List.length_nil]
      omega
  | some p =>
      have hnext := (h.last p hlast).1
      have htip : log.next = log.tip + 1 := rfl
      show p.next - 1 + 1 = log.next
      omega

/-- A segment named for the next version continues those of the store. -/
theorem linked_next (h : Kept V log L stale m) (records : List Record) :
    ∃ n, Linked n (L.spans.drop stale ++ [⟨log.next, records⟩]) := by
  cases hlast : L.last with
  | none =>
      rw [h.live_of_none hlast]
      exact ⟨log.next, rfl, trivial⟩
  | some p =>
      obtain ⟨n, hlinked⟩ := h.linked
      refine ⟨n, linked_append.mpr ⟨hlinked, ?_, trivial⟩⟩
      rw [h.live hlast, nextOf_append_singleton]
      exact (h.last p hlast).1.symm

/-- The same records laid out in other files, which leaves the header alone. -/
theorem carry (h : Kept V log L stale m) (hleft : Left V log L' m'.dir)
    (hheader : m'.dir.header = m.dir.header) (hspans : L'.spans = L.spans)
    (hclosed : L'.closed.length = L.closed.length)
    (hstore : m'.store = { m.store with
      active := m'.store.active
      capacity := m'.store.capacity
      poison := m'.store.poison })
    (hclean : m'.store.poison = none → ∀ p, L'.last = some p → Blank p.rest)
    (hactive : (m'.store.active = none ∧
        ∀ p, L'.last = some p → p.records ≠ [] ∧ Blank p.rest) ∨
      L'.stub = none ∧ ∃ p, L'.last = some p ∧ m'.store.active = some p.first) :
    Kept V log L' stale m' := by
  refine ⟨hleft, hclosed ▸ h.stale_le, ?_, hclean, hactive, hspans ▸ h.linked, ?_, ?_, ?_, ?_⟩
  · rw [hstore, hspans]
    exact h.segments
  · rw [hstore]
    exact h.covered
  · rw [headerOf_congr hheader, hstore]
    exact h.known
  · rw [hstore]
    exact h.recovered
  · rw [hstore]
    exact h.room

end Kept

/-! ### Closing the active segment -/

/-- The last segment at its true length, or as it was. -/
def Layout.seal (cut : Bool) (L : Layout) : Layout :=
  { L with last := L.last.map fun p => if cut then ⟨p.toSpan, []⟩ else p }

omit [Crc32] in
@[simp] theorem Layout.seal_false (L : Layout) : L.seal false = L := by
  obtain ⟨closed, last, stub⟩ := L
  cases last <;> rfl

omit [Crc32] in
@[simp] theorem Layout.spans_seal (cut : Bool) (L : Layout) : (L.seal cut).spans = L.spans := by
  obtain ⟨closed, last, stub⟩ := L
  cases last <;> cases cut <;> simp [Layout.seal, Layout.spans, Layout.pieces]

/-- The closing of the active segment gets as far as to cut it. -/
def SegmentStore.cutting (s : SegmentStore) (env : Env) : Bool :=
  s.active.isSome && decide (env.reply .closeLen = .ok)

/-- The closing of the active segment gets through. -/
def SegmentStore.closing (s : SegmentStore) (env : Env) : Bool :=
  s.active.isNone || decide (env.reply .closeLen = .ok ∧ env.reply .closeSync = .ok)

theorem edit_setLen {d : Dir} {pre post : List File} (hd : d.segments = pre ++ p.file :: post) :
    d.Becomes (pre ++ (⟨p.toSpan, []⟩ : Piece).file :: post)
      (d.edit (.segment p.first) (setLen p.stop)) := by
  have hedit := Dir.becomes_edit (setLen p.stop) hd
  have hcut : setLen p.stop (p.body ++ p.rest) = p.body ++ [] := by
    rw [← Span.length_body, setLen_append, List.append_nil]
  rw [hcut] at hedit
  exact hedit

theorem Kept.seal (h : Kept V log L stale m) {d' : Dir} {cut : Bool}
    (hfull : ∀ p, L.last = some p → p.records ≠ [] ∧ Blank p.rest)
    (hfiles : d'.segments = (L.seal cut).files) (hheader : d'.header = m.dir.header) :
    Kept V log (L.seal cut) stale ⟨{ m.store with active := none }, d'⟩ := by
  have hshape : ∀ p, (L.seal cut).last = some p → p.records ≠ [] ∧ Blank p.rest := by
    intro p hp
    obtain ⟨q, hq, rfl⟩ := Option.map_eq_some_iff.mp hp
    obtain ⟨hrecords, hblank⟩ := hfull q hq
    cases cut with
    | true => exact ⟨hrecords, blank_nil⟩
    | false => exact ⟨hrecords, hblank⟩
  have hleft : Left V log (L.seal cut) d' := by
    refine h.toLeft.reshape hheader hfiles rfl ?_ (fun p hp => (h.closed p hp).2)
      (fun p hp => Blank.debris (hshape p hp).2 _) fun s hs => ⟨(h.stub s hs).1, hshape⟩
    rw [Layout.seal, Option.map_map]
    cases L.last with
    | none => rfl
    | some q => cases cut <;> rfl
  exact h.carry hleft hheader (L.spans_seal cut) rfl rfl (fun _ p hp => (hshape p hp).2)
    (.inl ⟨rfl, hshape⟩)

theorem ends_closeActive (h : Kept V log L stale m)
    (hfull : ∀ p, L.last = some p → p.records ≠ [] ∧ Blank p.rest) :
    Ends (closeActive env) (fun x m' => Kept V log (L.seal (m.store.cutting env)) stale m' ∧
      m'.store = { m.store with active := none } ∧ m'.dir.header = m.dir.header ∧
        (x = .ok () ↔ m.store.closing env = true) ∧ (x ≠ .ok () → ¬env.Calm) ∧
          ∀ e, x = .error e → ∃ path, e = .io path) m := by
  have hkeep : m.store.cutting env = false → Kept V log (L.seal (m.store.cutting env)) stale
      ⟨{ m.store with active := none }, m.dir⟩ := by
    intro hcut
    refine h.seal hfull ?_ rfl
    rw [hcut, Layout.seal_false]
    exact h.files
  rw [closeActive, ends_bind, ends_get, after_ok, ends_bind, ends_upd, after_ok]
  cases hactive : m.store.active with
  | none =>
      have hcut : m.store.cutting env = false := by
        rw [SegmentStore.cutting, hactive]
        rfl
      refine ⟨hkeep hcut, rfl, rfl, ?_, fun hne => absurd rfl hne, (fun _ h => by cases h)⟩
      rw [SegmentStore.closing, hactive]
      exact ⟨fun _ => rfl, fun _ => rfl⟩
  | some file =>
      obtain ⟨hstub, p, hlast, hname⟩ := h.active.resolve_left fun hnone => by
        rw [hnone.1] at hactive
        cases hactive
      obtain rfl : p.first = file := Option.some.inj (hname.symm.trans hactive)
      have hclosing : m.store.closing env =
          decide (env.reply .closeLen = .ok ∧ env.reply .closeSync = .ok) := by
        rw [SegmentStore.closing, hactive]
        rfl
      have hcutting : m.store.cutting env = decide (env.reply .closeLen = .ok) := by
        rw [SegmentStore.cutting, hactive]
        rfl
      have hsegments := h.segments_of_last hstub hlast
      have hedit := edit_setLen hsegments
      have hcut : env.reply .closeLen = .ok →
          Kept V log (L.seal (m.store.cutting env)) stale ⟨{ m.store with active := none },
            m.dir.edit (.segment p.first) (setLen p.stop)⟩ := by
        intro hok
        refine h.seal hfull ?_ hedit.2.1
        rw [hcutting, decide_eq_true hok, hedit.1, Layout.files, Layout.pieces, Layout.seal, hlast,
          hstub]
        simp
      rw [h.last_segment, hlast]
      dsimp only [Option.map_some]
      rw [ends_bind]
      refine ends_sys_call (fun hok => ?_) (fun hfail => ?_) (fun hdie => ?_)
      · rw [after_ok]
        refine ends_sys_call (fun hsync => ?_) (fun hfail => ?_) (fun hdie => ?_)
        · refine ⟨hcut hok, rfl, hedit.2.1, ?_, fun hne => absurd rfl hne, (fun _ h => by cases h)⟩
          rw [hclosing]
          exact ⟨fun _ => decide_eq_true ⟨hok, hsync⟩, fun _ => rfl⟩
        · refine ⟨hcut hok, rfl, hedit.2.1, ?_, fun _ => not_calm_of_reply hfail (by decide), ?_⟩
          · rw [hclosing, hfail]
            simp
          · rintro e he
            cases he
            exact ⟨_, rfl⟩
        · refine ⟨hcut hok, rfl, hedit.2.1, ?_, fun _ => not_calm_of_reply hdie (by decide), (fun _ h => by cases h)⟩
          rw [hclosing, hdie]
          simp
      · refine ⟨hkeep (by rw [hcutting, hfail]; rfl), rfl, rfl, ?_,
          fun _ => not_calm_of_reply hfail (by decide), ?_⟩
        · rw [hclosing, hfail]
          simp
        · rintro e he
          cases he
          exact ⟨_, rfl⟩
      · refine ⟨hkeep (by rw [hcutting, hdie]; rfl), rfl, rfl, ?_,
          fun _ => not_calm_of_reply hdie (by decide), (fun _ h => by cases h)⟩
        rw [hclosing, hdie]
        simp

/-! ### Starting a segment -/

omit [Crc32] in
/-- A file with a longer, blank end. -/
theorem Stub.Of.reserve {n len : ℕ} {s : Stub} (h : s.Of n) (hlen : segPrologue ≤ len)
    (fallocate : Bool) : ∃ s' : Stub, s'.Of n ∧ s'.stamped = s.stamped ∧ segPrologue ≤ s'.file.2.length ∧
      s'.file = (n, (if fallocate then extend len else setLen len) s.file.2) := by
  have hstamped := h.stamped
  have htaken : (segmentPrologue.take s.stamped).length = s.stamped := by
    rw [List.length_take, length_segmentPrologue]
    omega
  have hsize : ∀ rest : Bytes, len ≤ s.stamped + rest.length → Blank rest →
      (⟨n, s.stamped, rest⟩ : Stub).Of n ∧ segPrologue ≤ (⟨n, s.stamped, rest⟩ : Stub).file.2.length := by
    intro rest hrest hblank
    have hlong : segPrologue ≤ (⟨n, s.stamped, rest⟩ : Stub).file.2.length := by
      show segPrologue ≤ (segmentPrologue.take s.stamped ++ rest).length
      rw [List.length_append, htaken]
      omega
    exact ⟨⟨rfl, hstamped, hblank, fun _ => hlong⟩, hlong⟩
  cases fallocate with
  | true =>
      have hrest := hsize (extend (len - s.stamped) s.rest)
        (by rw [length_extend]; omega) (h.blank.extend _)
      refine ⟨_, hrest.1, rfl, hrest.2, ?_⟩
      rw [if_pos rfl, Stub.file, Stub.file, extend_append, htaken]
  | false =>
      have hlength : (setLen (len - s.stamped) s.rest).length = len - s.stamped := by
        rw [setLen, List.length_append, List.length_take, length_zeroes]
        omega
      have hrest := hsize (setLen (len - s.stamped) s.rest)
        (by rw [hlength]; omega) (h.blank.setLen _)
      refine ⟨_, hrest.1, rfl, hrest.2, ?_⟩
      rw [if_neg (by simp), Stub.file, Stub.file, setLen_append_of_le (by omega), htaken]

omit [Crc32] in
/-- A file with a part of the prologue written over its start. -/
theorem Stub.Of.stamp {n : ℕ} {s : Stub} (h : s.Of n) (hlen : segPrologue ≤ s.file.2.length) {k : ℕ}
    (hk : k ≤ segPrologue) : ∃ s' : Stub, s'.Of n ∧ s'.stamped = max s.stamped k ∧
      segPrologue ≤ s'.file.2.length ∧
        s'.file = (n, overwrite 0 (segmentPrologue.take k) s.file.2) := by
  have hstamped := h.stamped
  have htake : (segmentPrologue.take k).length = k := by
    rw [List.length_take, length_segmentPrologue]
    omega
  have htaken : (segmentPrologue.take s.stamped).length = s.stamped := by
    rw [List.length_take, length_segmentPrologue]
    omega
  -- what is new of the prologue goes over what was blank
  have hbytes : overwrite 0 (segmentPrologue.take k) s.file.2 =
      segmentPrologue.take (max s.stamped k) ++ s.rest.drop (k - s.stamped) := by
    rw [overwrite_zero, htake, Stub.file, List.drop_append, htaken]
    by_cases hlow : k ≤ s.stamped
    · rw [max_eq_left hlow, show k - s.stamped = 0 by omega, List.drop_zero, ← List.append_assoc]
      congr 1
      conv => rhs; rw [← List.take_append_drop k (segmentPrologue.take s.stamped)]
      rw [List.take_take, min_eq_left hlow]
    · rw [max_eq_right (by omega), List.drop_of_length_le (by omega), List.nil_append]
  have hlength : (overwrite 0 (segmentPrologue.take k) s.file.2).length = s.file.2.length := by
    rw [length_overwrite, htake]
    omega
  have hfile : (⟨n, max s.stamped k, s.rest.drop (k - s.stamped)⟩ : Stub).file =
      (n, overwrite 0 (segmentPrologue.take k) s.file.2) := Prod.ext rfl hbytes.symm
  have hlong : segPrologue ≤
      (⟨n, max s.stamped k, s.rest.drop (k - s.stamped)⟩ : Stub).file.2.length := by
    rw [hfile, hlength]
    exact hlen
  exact ⟨_, ⟨rfl, max_le hstamped hk, h.blank.drop _, fun _ => hlong⟩, rfl, hlong, hfile⟩

namespace Kept

theorem files_stub {s : Stub} (hs : L.stub = some s) :
    L.files = L.pieces.map Piece.file ++ [s.file] := by
  rw [Layout.files, hs]
  rfl

/-- The directory with another stub in it, or with a first one. -/
theorem set_stub (h : Kept V log L stale m) (hactive : m.store.active = none) {d' : Dir} {s : Stub}
    (hs : s.Of (log.next)) (hheader : d'.header = m.dir.header)
    (hfiles : d'.segments = L.pieces.map Piece.file ++ [s.file]) :
    Kept V log { L with stub := some s } stale { m with dir := d' } := by
  have hfull : ∀ p, L.last = some p → p.records ≠ [] ∧ Blank p.rest := by
    refine (h.active.resolve_right ?_).2
    rintro ⟨-, p, -, hp⟩
    rw [hactive] at hp
    cases hp
  have hleft : Left V log { L with stub := some s } d' :=
    h.toLeft.reshape hheader hfiles rfl rfl (fun p hp => (h.closed p hp).2)
      (fun p hp => (h.last p hp).2) fun t ht => by
        cases ht
        exact ⟨hs, hfull⟩
  exact h.carry hleft hheader rfl rfl rfl h.clean (.inl ⟨hactive, hfull⟩)

/-- A change to the stub. -/
theorem edit_stub (h : Kept V log L stale m) (hactive : m.store.active = none) {s s' : Stub}
    (hs : L.stub = some s) {f : Bytes → Bytes} (hs' : s'.Of (log.next))
    (hfile : s'.file = (log.next, f s.file.2)) :
    Kept V log { L with stub := some s' } stale
      { m with dir := m.dir.edit (.segment (log.next)) f } := by
  have hsegments : m.dir.segments = L.pieces.map Piece.file ++ (log.next, s.file.2) :: [] := by
    rw [h.files, files_stub hs, ← (h.stub s hs).1.first]
    rfl
  have hedit := Dir.becomes_edit f hsegments
  refine h.set_stub hactive hs' hedit.2.1 ?_
  rw [hedit.1, hfile]

/-- The file of a new segment is the last one of the directory. -/
theorem touch_stub (h : Kept V log L stale m) (hactive : m.store.active = none) :
    ∃ s : Stub, s.stamped = L.stub.elim 0 Stub.stamped ∧
      Kept V log { L with stub := some s } stale
        { m with dir := m.dir.touch (.segment (log.next)) } := by
  cases hstub : L.stub with
  | some s =>
      have hsegments : m.dir.segments =
          L.pieces.map Piece.file ++ (log.next, s.file.2) :: [] := by
        rw [h.files, files_stub hstub, ← (h.stub s hstub).1.first]
        rfl
      refine ⟨s, rfl, ?_⟩
      rw [Dir.touch_segment hsegments, ← hstub]
      exact h
  | none =>
      have hfiles : m.dir.segments = L.pieces.map Piece.file := by
        rw [h.files, Layout.files, hstub]
        exact List.append_nil _
      have hbelow : ∀ f ∈ m.dir.segments, f.1 < log.next := by
        intro f hf
        rw [hfiles] at hf
        obtain ⟨p, hp, rfl⟩ := List.mem_map.mp hf
        have hnext := h.next_le (List.mem_map_of_mem hp)
        rw [Span.next] at hnext
        have hrecords : p.records ≠ [] := by
          cases List.mem_append.mp hp with
          | inl hclosed => exact (h.closed p hclosed).1
          | inr hlast =>
              refine ((h.active.resolve_right ?_).2 p (Option.mem_toList.mp hlast)).1
              rintro ⟨-, q, -, hq⟩
              rw [hactive] at hq
              cases hq
        have hlong := List.length_pos_of_ne_nil hrecords
        show p.first < log.next
        omega
      refine ⟨⟨log.next, 0, []⟩, rfl, h.set_stub hactive ⟨rfl, Nat.zero_le _, blank_nil, fun h => by cases h⟩
        Dir.header_touch ?_⟩
      rw [Dir.segments_touch_new hbelow, hfiles]
      rfl

/-- A stub that was stamped is the store's last segment once the store says so. -/
theorem start (h : Kept V log L stale m) {s : Stub}
    (hs : L.stub = some s) (hstamped : 8 ≤ s.stamped) {capacity : ℕ} :
    ∃ z, Blank z ∧ Kept V log ⟨L.pieces, some ⟨⟨log.next, []⟩, z⟩, none⟩ stale
      ⟨{ m.store with
          segments := m.store.segments ++ [⟨log.next, segPrologue, log.tip⟩]
          capacity := capacity
          active := some (log.next) }, m.dir⟩ := by
  obtain ⟨hof, -⟩ := h.stub s hs
  obtain ⟨z, hz, hleft⟩ := h.toLeft.promote hs (hof.hasMagic_iff.mpr hstamped)
  rw [hof.first] at hleft
  have hspans : Layout.spans ⟨L.pieces, some ⟨⟨log.next, []⟩, z⟩, none⟩ =
      L.spans ++ [⟨log.next, []⟩] := by
    rw [Layout.spans_of_last rfl]
    rfl
  have hle : stale ≤ L.spans.length := by
    have hstale := h.stale_le
    rw [Layout.spans, Layout.pieces, List.length_map, List.length_append]
    omega
  refine ⟨z, hz, hleft, ?_, ?_, ?_, .inr ⟨rfl, _, rfl, rfl⟩, ?_, h.covered, h.known, h.recovered,
    h.room⟩
  · rwa [Layout.spans, List.length_map] at hle
  · rw [hspans, List.drop_append_of_le_length hle, List.map_append, ← h.segments]
    rfl
  · rintro - q hq
    cases hq
    exact hz
  · rw [hspans, List.drop_append_of_le_length hle]
    exact h.linked_next []

end Kept

/-- What a rotation that did not get through leaves: the new segment's file as far as
it came. -/
def Stuck (env : Env) (m : Machine) (L L' : Layout) : Prop :=
  if m.store.closing env = true ∧ env.reply .create = .ok then
    ∃ s, L' = { L.seal (m.store.cutting env) with stub := some s } ∧
      s.stamped = max (L.stub.elim 0 Stub.stamped)
        (if env.reply .reserve = .ok then landed (env.written .stamp) segPrologue else 0)
  else L' = L.seal (m.store.cutting env)

/-- `rotate`: the store goes on in a new segment, or in the old one with its file not
open. -/
theorem ends_rotate (h : Kept V log L stale m)
    (hfull : ∀ p, L.last = some p → p.records ≠ [] ∧ Blank p.rest) :
    Ends (rotate env (log.next)) (fun x m' => m'.dir.header = m.dir.header ∧
      (x = .ok () → m.store.closing env = true ∧ ∃ z, Blank z ∧ Kept V log
        ⟨(L.seal (m.store.cutting env)).pieces, some ⟨⟨log.next, []⟩, z⟩, none⟩ stale m' ∧
          m'.store = { m.store with
            segments := m.store.segments ++ [⟨log.next, segPrologue, log.tip⟩]
            capacity := m.store.rotateBytes
            active := some (log.next) }) ∧
      (x ≠ .ok () → ∃ L', Stuck env m L L' ∧ Kept V log L' stale m' ∧
        m'.store = { m.store with active := none }) ∧
      (x ≠ .ok () → ¬env.Calm) ∧ ∀ e, x = .error e → ∃ path, e = .io path) m := by
  rw [rotate, ends_bind]
  refine (ends_closeActive h hfull).mono ?_
  rintro x m₁ ⟨h₁, hstore₁, hheader₁, hclosed, hcalm, hio⟩
  have hactive₁ : m₁.store.active = none := by rw [hstore₁]
  have hrotate₁ : m₁.store.rotateBytes = m.store.rotateBytes := by rw [hstore₁]
  by_cases hx : x = .ok ()
  case neg =>
    have hnot : ¬(m.store.closing env = true ∧ env.reply .create = .ok) := fun hboth =>
      hx (hclosed.mpr hboth.1)
    have hstuck : Stuck env m L (L.seal (m.store.cutting env)) := by
      rw [Stuck, if_neg hnot]
    cases x with
    | ok u => exact absurd rfl hx
    | error e =>
        obtain ⟨path, rfl⟩ := hio e rfl
        exact ⟨hheader₁, nofun, fun _ => ⟨_, hstuck, h₁, hstore₁⟩, fun _ => hcalm nofun,
          fun e he => ⟨path, by cases he; rfl⟩⟩
    | died =>
        exact ⟨hheader₁, nofun, fun _ => ⟨_, hstuck, h₁, hstore₁⟩, fun _ => hcalm nofun, nofun⟩
  case pos =>
    have hclosing := hclosed.mp hx
    subst hx
    rw [after_ok, ends_bind, ends_get, after_ok, ends_bind]
    dsimp only
    have huncreated : env.reply .create ≠ .ok →
        Stuck env m L (L.seal (m.store.cutting env)) := by
      intro hne
      rw [Stuck, if_neg fun hboth => hne hboth.2]
    refine ends_sys_call (fun hcreate => ?_) (fun hfail => ?_) (fun hdie => ?_)
    case refine_2 =>
      have hstuck := huncreated (by rw [hfail]; nofun)
      exact ⟨hheader₁, nofun, fun _ => ⟨_, hstuck, h₁, hstore₁⟩,
        fun _ => not_calm_of_reply hfail nofun, fun e he => ⟨_, by cases he; rfl⟩⟩
    case refine_3 =>
      have hstuck := huncreated (by rw [hdie]; nofun)
      exact ⟨hheader₁, nofun, fun _ => ⟨_, hstuck, h₁, hstore₁⟩,
        fun _ => not_calm_of_reply hdie nofun, nofun⟩
    obtain ⟨s, hs, h₂⟩ := h₁.touch_stub hactive₁
    -- behind this the file is there, and it shows how far the rotation came
    have hstop : ∀ (x : Exit Err Unit) (t : Stub) (m₂ : Machine), x ≠ .ok () →
        Kept V log { L.seal (m.store.cutting env) with stub := some t } stale m₂ →
        m₂.store = m₁.store → m₂.dir.header = m.dir.header →
        t.stamped = max s.stamped
          (if env.reply .reserve = .ok then landed (env.written .stamp) segPrologue else 0) →
        ¬env.Calm → (∀ e, x = .error e → ∃ path, e = .io path) →
        m₂.dir.header = m.dir.header ∧
        (x = .ok () → m.store.closing env = true ∧ ∃ z, Blank z ∧ Kept V log
          ⟨(L.seal (m.store.cutting env)).pieces, some ⟨⟨log.next, []⟩, z⟩, none⟩ stale m₂ ∧
            m₂.store = { m.store with
              segments := m.store.segments ++ [⟨log.next, segPrologue, log.tip⟩]
              capacity := m.store.rotateBytes
              active := some (log.next) }) ∧
        (x ≠ .ok () → ∃ L', Stuck env m L L' ∧ Kept V log L' stale m₂ ∧
          m₂.store = { m.store with active := none }) ∧
        (x ≠ .ok () → ¬env.Calm) ∧ ∀ e, x = .error e → ∃ path, e = .io path := by
      intro x t m₂ hx hkept hstore hheader hstamped hncalm hpath
      refine ⟨hheader, fun hok => absurd hok hx, fun _ => ⟨_, ?_, hkept, hstore.trans hstore₁⟩,
        fun _ => hncalm, hpath⟩
      rw [Stuck, if_pos ⟨hclosing, hcreate⟩]
      exact ⟨t, rfl, by rw [hstamped, hs]; rfl⟩
    have hroom : segPrologue ≤ m₁.store.rotateBytes := by
      have hroom₁ := h₁.room
      omega
    have hheader₂ : (m₁.dir.touch (.segment (log.next))).header = m.dir.header :=
      Dir.header_touch.trans hheader₁
    rw [after_ok, ends_bind]
    refine ends_sys_call (fun hreserve => ?_) (fun hfail => ?_) (fun hdie => ?_)
    case refine_2 =>
      refine hstop _ s _ nofun h₂ rfl hheader₂ ?_ (not_calm_of_reply hfail nofun)
        (fun e he => ⟨_, by cases he; rfl⟩)
      rw [hfail, if_neg nofun, Nat.max_zero]
    case refine_3 =>
      refine hstop _ s _ nofun h₂ rfl hheader₂ ?_ (not_calm_of_reply hdie nofun) nofun
      rw [hdie, if_neg nofun, Nat.max_zero]
    obtain ⟨s', hof', hstamped', hlong', hfile'⟩ := (h₂.stub s rfl).1.reserve hroom env.fallocate
    have h₃ := h₂.edit_stub hactive₁ rfl hof' hfile'
    obtain ⟨t, hof, hstamped, hlong, hfile⟩ := hof'.stamp hlong' (landed_le (env.written .stamp) _)
    have h₄ := h₃.edit_stub hactive₁ rfl hof hfile
    have hshow : t.stamped = max s.stamped
        (if env.reply .reserve = .ok then landed (env.written .stamp) segPrologue else 0) := by
      rw [hstamped, hstamped', if_pos hreserve]
    rw [after_ok, ends_bind]
    refine ends_sys.mpr (ends_pwritevAll_single (by decide) (fun _ _ => Nat.zero_le _)
      fun x hall hfail => ?_)
    have hheader₄ := (@Dir.header_edit ((m₁.dir.touch (.segment (log.next))).edit
      (.segment (log.next)) (if env.fallocate = true then extend m₁.store.rotateBytes
        else setLen m₁.store.rotateBytes)) log.next (overwrite 0
          (segmentPrologue.take (landed (env.written .stamp) segPrologue)))).trans
      ((Dir.header_edit _).trans hheader₂)
    cases x with
    | error u =>
        exact hstop _ t _ nofun h₄ rfl hheader₄ hshow (hfail nofun) (fun e he => ⟨_, by cases he; rfl⟩)
    | died => exact hstop _ t _ nofun h₄ rfl hheader₄ hshow (hfail nofun) nofun
    | ok u =>
        have hwhole : landed (env.written .stamp) segPrologue = segPrologue := hall.mp rfl
        rw [Exit.mapError, after_ok, ends_bind]
        refine ends_sys_call (fun _ => ?_) (fun hfail => ?_) (fun hdie => ?_)
        case refine_2 =>
          exact hstop _ t _ nofun h₄ rfl hheader₄ hshow (not_calm_of_reply hfail nofun)
            (fun e he => ⟨_, by cases he; rfl⟩)
        case refine_3 =>
          exact hstop _ t _ nofun h₄ rfl hheader₄ hshow (not_calm_of_reply hdie nofun) nofun
        rw [after_ok, ends_bind]
        refine ends_sys_call (fun _ => ?_) (fun hfail => ?_) (fun hdie => ?_)
        case refine_2 =>
          exact hstop _ t _ nofun h₄ rfl hheader₄ hshow (not_calm_of_reply hfail nofun)
            (fun e he => ⟨_, by cases he; rfl⟩)
        case refine_3 =>
          exact hstop _ t _ nofun h₄ rfl hheader₄ hshow (not_calm_of_reply hdie nofun) nofun
        rw [after_ok, ends_upd]
        refine ⟨hheader₄, fun _ => ?_, fun hne => absurd rfl hne, fun hne => absurd rfl hne, nofun⟩
        have hmagic : 8 ≤ t.stamped := by
          rw [hstamped, hwhole, segPrologue]
          omega
        obtain ⟨z, hz, hkept⟩ := @Kept.start _ _ _ _ _ _ _ _ h₄ _ rfl hmagic m₁.store.rotateBytes
        refine ⟨hclosing, z, hz, hkept, ?_⟩
        rw [hstore₁]
        rfl

end Lug.Wal
