import Lug.Wal.Checkpoint

/-!
A log directory over time: stores are opened on it, loaded, appended to and
checkpointed, any of their system calls may fail, and the process may be killed
anywhere.
-/

namespace Lug.Wal

open Octets Faulty Runs

variable [Crc32] {V : Type} [Versioned V] [HeaderSerde V] {log : Journal} {L : Layout} {stale : ℕ}
  {env : Env} {m m' : Machine} {d d' : Dir} {records : List Record}

/-- The records of the segment files past those of the log. -/
def Journal.beyond (log : Journal) (d : Dir) : List Record := above log.tip (recordsOf d.segments)

/-! ### Settling a store -/

/-- A directory that loads is laid out without a stub. -/
theorem Left.recovered (h : Left V log L d) {version : ℕ} (hstands : Stands V log version d)
    {collect : Bool} {tail : List Record} (hok : recovery version collect d.segments = .ok tail) :
    ∃ L', Left V log L' d ∧ L'.stub = none ∧ L'.Sound := by
  cases hstub : L.stub with
  | none => exact ⟨L, h, hstub, h.sound_of_recovery hstub hstands hok⟩
  | some s =>
      have hmem : s.file ∈ d.segments := by
        rw [h.files, Layout.files, hstub]
        simp
      have hmagic := (recovery_ok_iff.mp hok).1.magic s.file hmem
      obtain ⟨z, -, hleft⟩ := h.promote hstub hmagic
      exact ⟨_, hleft, rfl, hleft.sound_of_recovery rfl hstands hok⟩

/-- What a load adopts is what it finds past the log. -/
theorem Left.beyond_eq (h : Left V log L d) (hstub : L.stub = none) (hsound : L.Sound) :
    log.beyond d = L.extra := by
  have hrun := h.sound_run hsound
  have hold : ∀ r ∈ L.spans.flatMap Span.records, ¬log.tip < r.version := by
    intro r hr
    obtain ⟨s, hs, hr⟩ := List.mem_flatMap.mp hr
    obtain ⟨-, t, ht⟩ := h.taken s hs
    have hmem : r ∈ log.records := List.mem_of_mem_drop (ht ▸ List.mem_append_left t hr)
    have hbounds := h.numbered.bounds hmem
    rw [Journal.tip]
    omega
  have hnew : ∀ r ∈ L.extra, log.tip < r.version := by
    intro r hr
    have hbounds := (consecutive_append.mp hrun).2.bounds hr
    rw [Journal.tip]
    omega
  rw [Journal.beyond, above, h.recordsOf_segments hstub, List.filter_append,
    List.filter_eq_nil_iff.mpr (by simpa using hold), List.nil_append,
    List.filter_eq_self.mpr (by simpa using hnew)]

variable (V) in
/-- A version that stands for the header of the directory: its version, or the last one
that a header was written at. -/
def Noted (log : Journal) (version : ℕ) (d : Dir) : Prop :=
  (∃ header, headerOf V d = .ok header ∧ version = versionOf header) ∨
    version = log.tip ∧ ∀ g, headerOf V d = .ok g → versionOf g = version

/-- A directory without segments is laid out without any. -/
theorem Left.eq_nil (h : Left V log L d) (hnil : d.segments = []) :
    L = ⟨[], none, none⟩ ∧ log.records = [] := by
  have hfiles := h.files
  rw [hnil, Layout.files, Layout.pieces, eq_comm, List.append_eq_nil_iff, List.map_eq_nil_iff,
    List.append_eq_nil_iff, List.map_eq_nil_iff] at hfiles
  obtain ⟨⟨hclosed, hlast⟩, hstub⟩ := hfiles
  obtain ⟨closed, last, stub⟩ := L
  obtain rfl : closed = [] := hclosed
  obtain rfl : last = none := Option.toList_eq_nil_iff.mp hlast
  obtain rfl : stub = none := Option.toList_eq_nil_iff.mp hstub
  exact ⟨rfl, (h.empty rfl).2⟩

theorem Noted.stands {version : ℕ} (h : Noted V log version d) : Stands V log version d :=
  h.symm.imp_left And.left

theorem Left.covered_of_noted (h : Left V log L d) {version : ℕ} (hnoted : Noted V log version d) :
    (log.base ≤ version ∧ version ≤ log.tip) ∧
      ∀ g, headerOf V d = .ok g → version ≤ versionOf g := by
  cases hnoted with
  | inl hread =>
      obtain ⟨header, hheader, rfl⟩ := hread
      refine ⟨h.header header hheader, fun g hg => ?_⟩
      rw [hheader] at hg
      cases hg
      exact le_rfl
  | inr hempty =>
      obtain ⟨rfl, hread⟩ := hempty
      exact ⟨⟨Journal.base_le_tip, le_rfl⟩, fun g hg => (hread g hg).ge⟩

/-- The store a recovery leaves works on what it found. -/
theorem Left.settle (h : Left V log L m.dir) {version : ℕ} (hnoted : Noted V log version m.dir)
    {collect : Bool} {tail : List Record}
    (hok : recovery version collect m.dir.segments = .ok tail) {z : Bytes} (hz : Blank z) (hfiles : m'.dir.segments = padLast z (m.dir.segments.map cut))
    (hbecomes : m.dir.Becomes m'.dir.segments m'.dir) {active : Option ℕ}
    (hactive : m.dir.segments = [] → active = none) {capacity rotateBytes : ℕ}
    (hroom : segPrologue + recPrefix ≤ rotateBytes)
    (hstore : m'.store = ⟨settled none m.dir.segments,
      (m.dir.segments.getLast?.map Prod.fst).or active, capacity, version, rotateBytes, true,
      none⟩) : ∃ L', Kept V (log.append (log.beyond m.dir)) L' 0 m' := by
  obtain ⟨⟨hbase, htip⟩, hknown⟩ := h.covered_of_noted hnoted
  obtain ⟨L, h, hstub, hsound⟩ := h.recovered hnoted.stands hok
  rw [h.beyond_eq hstub hsound]
  have hadopt := h.adopt hstub hsound hz (hfiles ▸ hbecomes)
  refine ⟨L.adopt z, hadopt, Nat.zero_le _, ?_, ?_, ?_, ?_, ?_, ?_, ?_, ?_⟩
  · rw [hstore, List.drop_zero]
    exact h.settled_of_sound hstub hsound z
  · rintro - p hp
    rw [Layout.adopt, Option.map_eq_some_iff] at hp
    obtain ⟨q, -, rfl⟩ := hp
    exact hz
  · rw [hstore]
    cases hlast : L.last with
    | none =>
        left
        have hnil := h.segments_of_none hstub hlast
        rw [hnil, hactive hnil, Layout.adopt, hlast]
        exact ⟨rfl, fun _ h => by cases h⟩
    | some p =>
        right
        rw [h.segments_of_last hstub hlast, List.getLast?_concat, Layout.adopt, hlast]
        exact ⟨rfl, _, rfl, rfl⟩
  · obtain ⟨n, hlinked⟩ := hsound.linked
    refine ⟨n, ?_⟩
    rw [List.drop_zero]
    cases hlast : L.last with
    | none =>
        rw [Layout.spans, Layout.pieces, Layout.adopt, hlast, (h.empty hlast).1]
        trivial
    | some p =>
        have hadopted : (L.adopt z).last =
            some ⟨⟨p.first, p.records ++ (found p.rest).records⟩, z⟩ := by
          rw [Layout.adopt, hlast]
          rfl
        rw [Layout.spans_of_last hlast, linked_append] at hlinked
        rw [Layout.spans_of_last hadopted, Layout.adopt, List.map_map]
        exact linked_append.mpr ⟨hlinked.1, hlinked.2.1, trivial⟩
  · rw [hstore, Journal.tip_append]
    exact ⟨hbase, htip.trans (Nat.le_add_right ..)⟩
  · intro g hg
    rw [headerOf_congr hbecomes.2.1] at hg
    rw [hstore]
    exact hknown g hg
  · rw [hstore]
  · rw [hstore]
    exact hroom

variable (V) in
/-- A store that was opened and has not settled its segments. -/
structure Fresh (log : Journal) (L : Layout) (m : Machine) : Prop extends Left V log L m.dir where
  names : m.store.segments.map Segment.first = m.dir.segments.map Prod.fst
  inactive : m.dir.segments = [] → m.store.active = none
  noted : Noted V log m.store.headerVersion m.dir
  unrecovered : m.store.recovered = false
  clean : m.store.poison = none
  room : segPrologue + recPrefix ≤ m.store.rotateBytes

theorem names_trimmed {files files' : List File} (h : List.Forall₂ Trimmed files files') :
    files'.map Prod.fst = files.map Prod.fst := by
  induction h with
  | nil => rfl
  | @cons f f' _ _ hhead _ ih =>
      have hname : f'.1 = f.1 := by
        cases hhead with
        | inl hsame => rw [hsame]
        | inr hcut =>
            obtain ⟨-, z, -, rfl⟩ := hcut
            rfl
      rw [List.map_cons, List.map_cons, ih, hname]

/-- A recovery that fails leaves the store as unsettled as it was. -/
theorem Fresh.stopped (h : Fresh V log L m) (htrimmed : List.Forall₂ Trimmed m.dir.segments m'.dir.segments)
    (hbecomes : m.dir.Becomes m'.dir.segments m'.dir) {segs : List Segment} {active : Option ℕ}
    {capacity version : ℕ}
    (hnames : segs = m.store.segments ∨ segs.map Segment.first = m.dir.segments.map Prod.fst)
    (hactive : m.dir.segments = [] → active = none)
    (hversion : version = m.store.headerVersion ∨
      ∃ header, headerOf V m.dir = .ok header ∧ version = versionOf header)
    (hstore : m'.store = { m.store with
      segments := segs, active := active, capacity := capacity, headerVersion := version }) :
    ∃ L', Fresh V log L' m' := by
  obtain ⟨L', hleft⟩ := h.toLeft.trimmed htrimmed hbecomes
  have hsame := names_trimmed htrimmed
  refine ⟨L', hleft, ?_, ?_, ?_, ?_, ?_, ?_⟩
  · rw [hstore, hsame]
    cases hnames with
    | inl hold => rw [hold, h.names]
    | inr hnew => exact hnew
  · intro hnil
    rw [hnil, List.map_nil, eq_comm, List.map_eq_nil_iff] at hsame
    rw [hstore]
    exact hactive hsame
  · have hheader := headerOf_congr (V := V) hbecomes.2.1
    rw [hstore]
    cases hversion with
    | inr hnew =>
        obtain ⟨g, hg, hversion⟩ := hnew
        exact .inl ⟨g, hheader.trans hg, hversion⟩
    | inl hold =>
        rw [Noted, hheader]
        exact hold ▸ h.noted
  · rw [hstore]
    exact h.unrecovered
  · rw [hstore]
    exact h.clean
  · rw [hstore]
    exact h.room

theorem recovery_of_loaded {header : Option (Header V)} (hheader : headerOf V d = .ok header)
    {found : Recovered V} (h : loaded V d = .ok found) :
    ∃ tail, recovery (versionOf header) true d.segments = .ok tail := by
  rw [loaded, hheader] at h
  dsimp only at h
  cases hrecovery : recovery (versionOf header) true d.segments with
  | error e =>
      rw [hrecovery] at h
      cases h
  | ok tail => exact ⟨tail, rfl⟩

/-- `load` of a directory, whatever store it is called on. -/
theorem Left.ends_load (h : Left V log L m.dir) (hroom : segPrologue + recPrefix ≤ m.store.rotateBytes) :
    Ends (load V env) (fun x m' => (∀ found, x = .ok found →
        ∃ L', Kept V (log.append (log.beyond m.dir)) L' 0 m') ∧
      ((∀ found, x ≠ .ok found) → (∃ L', Left V log L' m'.dir) ∧
        m'.store.rotateBytes = m.store.rotateBytes)) m := by
  refine (Wal.ends_load V).mono ?_
  rintro x m' hloading
  constructor
  · rintro found rfl
    obtain ⟨header, z, capacity, hheader, hz, hfiles, hstore⟩ := hloading.through found rfl
    obtain ⟨tail, htail⟩ := recovery_of_loaded hheader hloading.follows
    have hstore' : m'.store = ⟨settled none m.dir.segments,
        (m.dir.segments.getLast?.map Prod.fst).or none, capacity, versionOf header,
        m.store.rotateBytes, true, none⟩ := by
      rw [hstore, Option.or_none]
    exact h.settle (.inl ⟨header, hheader, rfl⟩) htail hz hfiles hloading.becomes (fun _ => rfl)
      hroom hstore'
  · intro hx
    obtain ⟨segs, active, capacity, version, -, -, -, hstore⟩ := hloading.stopped hx
    exact ⟨h.trimmed hloading.trimmed hloading.becomes, by rw [hstore]⟩

theorem Fresh.ends_load (h : Fresh V log L m) :
    Ends (load V env) (fun x m' => (∀ found, x ≠ .ok found) → ∃ L', Fresh V log L' m') m := by
  refine (Wal.ends_load V).mono ?_
  rintro x m' hloading hx
  obtain ⟨segs, active, capacity, version, hactive, hsegs, hversion, hstore⟩ := hloading.stopped hx
  exact h.stopped hloading.trimmed hloading.becomes hsegs hactive hversion hstore

/-- The recovery an append begins with on an unsettled store. -/
theorem Fresh.ends_recover (h : Fresh V log L m) :
    Ends (recover env false) (fun x m' => (∀ tail, x = .ok tail →
        ∃ L', Kept V (log.append (log.beyond m.dir)) L' 0 m' ∧ m'.store.poison = none) ∧
      ((∀ tail, x ≠ .ok tail) → ∃ L', Fresh V log L' m')) m := by
  refine (Wal.ends_recover false (List.nil_append _).symm h.names).mono ?_
  rintro x m' hrecovering
  obtain ⟨files', htrimmed, hbecomes⟩ := hrecovering.trimmed
  obtain rfl : m'.dir.segments = files' := hbecomes.1
  constructor
  · rintro tail rfl
    obtain ⟨z, capacity, hz, hfiles, hstore⟩ := hrecovering.through tail rfl
    obtain ⟨L', hkept⟩ := h.toLeft.settle h.noted hrecovering.follows hz hfiles
      hbecomes h.inactive h.room hstore
    exact ⟨L', hkept, by rw [hstore]⟩
  · intro hx
    obtain ⟨segs, active, capacity, hsegs, hactive, hstore⟩ := hrecovering.stopped hx
    exact h.stopped htrimmed hbecomes (.inr (hsegs.trans h.names))
      (fun hnil => (hactive hnil).trans (h.inactive hnil)) (.inl rfl) hstore

/-- An append of a store that is not settled recovers it first. -/
theorem ends_append_unsettled {Q : Exit Err Unit → Machine → Prop} (hne : records ≠ [])
    (hclean : m.store.poison = none) (hrecovered : m.store.recovered = false)
    (h : Ends (recover env false) (fun x m₁ => match x with
      | .ok _ => m₁.store.poison = none ∧ m₁.store.recovered = true ∧ Ends (append env records) Q m₁
      | .error e => Q (.error e) m₁
      | .died => Q .died m₁) m) : Ends (append env records) Q m := by
  have hnonempty : ¬records.isEmpty := fun hempty => hne (List.isEmpty_iff.mp hempty)
  rw [append, if_neg hnonempty, ends_bind, ends_get, after_ok, hclean]
  dsimp only
  rw [ends_bind, ensureRecovered, ends_bind, ends_get, after_ok, hrecovered, if_neg (by simp),
    ends_bind]
  refine h.mono ?_
  rintro x m₁ hends
  cases x with
  | error e => exact hends
  | died => exact hends
  | ok tail =>
      obtain ⟨hclean₁, hrecovered₁, hends⟩ := hends
      rw [append, if_neg hnonempty, ends_bind, ends_get, after_ok, hclean₁] at hends
      dsimp only at hends
      rw [ends_bind, ensureRecovered, ends_bind, ends_get, after_ok, hrecovered₁, if_pos rfl,
        ends_pure, after_ok] at hends
      rw [after_ok, ends_pure, after_ok]
      exact hends

/-- An append of an opened store goes on as one of a loaded store, or fails with its
recovery. -/
theorem Fresh.ends_append (h : Fresh V log L m) (hne : records ≠ []) :
    Ends (append env records) (fun x m' =>
      if (recover env false m).1.isOk
        then Settled V (log.append (log.beyond m.dir)) records 0 x m'
        else x ≠ .ok () ∧ ∃ L', Fresh V log L' m') m := by
  refine ends_append_unsettled hne h.clean h.unrecovered ?_
  have hrecover : Ends (recover env false) _ m := h.ends_recover
  unfold Ends at hrecover ⊢
  obtain ⟨hok, hfail⟩ := hrecover
  cases hx : (recover env false m).1 with
  | ok tail =>
      obtain ⟨L', hkept, hclean⟩ := hok tail hx
      refine ⟨hclean, hkept.recovered, ?_⟩
      have happends : Ends (append env records) (Settled V (log.append (log.beyond m.dir)) records 0)
          (recover env false m).2 :=
        (Wal.ends_append hkept).mono fun x m' hends => hends.1.settled hkept
      exact happends
  | error e =>
      obtain ⟨L', hfresh⟩ := hfail (by rw [hx]; nofun)
      exact ⟨nofun, L', hfresh⟩
  | died =>
      obtain ⟨L', hfresh⟩ := hfail (by rw [hx]; nofun)
      exact ⟨nofun, L', hfresh⟩

/-! ### The directory over time -/

/-- No store, one that was opened, one whose segments were settled, and one that was
settled and failed to load again. -/
inductive Phase
  | down
  | opened
  | up
  | lost
  deriving DecidableEq

/-- A directory, the store that works on it, and the log: what was appended with
`Ok` and what a recovery adopted. -/
structure World where
  phase : Phase
  machine : Machine
  log : Journal

inductive Event (V : Type)
  | opening (rotateBytes : ℕ)
  | load
  | append (records : List Record)
  | sync
  | writeHeader (view : V)
  | kill

/-- An append begins with a recovery that gets through. -/
def Machine.settles (m : Machine) (env : Env) (records : List Record) : Bool :=
  !records.isEmpty && m.store.poison.isNone && !m.store.recovered && (recover env false m).1.isOk

namespace World

/-- The log with what a recovery finds past it. -/
def adopted (w : World) : Journal := w.log.append (w.log.beyond w.machine.dir)

/-- What becomes of the process by how an operation ends: it is gone once it was
killed. -/
def opening (w : World) : Exit Err Unit → Machine → World
  | .ok _, m => ⟨.opened, m, w.log⟩
  | _, m => ⟨.down, m, w.log⟩

def loading (w : World) : Exit Err (Recovered V) → Machine → World
  | .ok _, m => ⟨.up, m, w.adopted⟩
  | .error _, m => ⟨if w.phase = .opened then .opened else .lost, m, w.log⟩
  | .died, m => ⟨.down, m, w.log⟩

def appending (w : World) (records : List Record) : Exit Err Unit → Machine → World
  | .ok _, m => ⟨w.phase, m, w.log.append records⟩
  | .error _, m => ⟨w.phase, m, w.log⟩
  | .died, m => ⟨.down, m, w.log⟩

def syncing (w : World) : Exit Err Unit → Machine → World
  | .died, m => ⟨.down, m, w.log⟩
  | _, m => ⟨w.phase, m, w.log⟩

/-- A header that is not at the last version starts another log. -/
def checkpointing (w : World) (version : ℕ) : Exit Err Unit → Machine → World
  | x, m =>
      let log := if version = w.log.tip then w.log else ⟨version, []⟩
      let reached := if m.dir.header = w.machine.dir.header then w.log else log
      match x with
      | .ok _ => ⟨w.phase, m, log⟩
      | .error _ => ⟨if version = w.log.tip then w.phase else .lost, m, reached⟩
      | .died => ⟨.down, m, reached⟩

/-- The world once the recovery is through that an append begins with. -/
def settle (w : World) (env : Env) (records : List Record) : World :=
  if w.machine.settles env records then ⟨.up, w.machine, w.adopted⟩ else w

/-- One operation. -/
def step (w : World) (env : Env) : Event V → World
  | .opening rotateBytes =>
      let ended := openWith V env rotateBytes w.machine
      w.opening ended.1 ended.2
  | .load =>
      let ended := load V env w.machine
      w.loading ended.1 ended.2
  | .append records =>
      let ended := append env records w.machine
      (w.settle env records).appending records ended.1 ended.2
  | .sync =>
      let ended := sync env w.machine
      w.syncing ended.1 ended.2
  | .writeHeader view =>
      let ended := writeHeader env view w.machine
      w.checkpointing (Versioned.version view) ended.1 ended.2
  | .kill => ⟨.down, w.machine, w.log⟩

/-- What may be called when. A view is at the last version, or the log has no segment
at all. -/
def Driven (w : World) : Event V → Prop
  | .opening _ => w.phase = .down
  | .load => w.phase ≠ .down
  | .append _ => w.phase = .opened ∨ w.phase = .up ∨
      w.phase = .lost ∧ w.machine.store.poison.isSome
  | .sync => w.phase ≠ .down
  | .writeHeader view => w.phase = .up ∧ Versioned.version view = w.log.tip ∨
      (w.phase = .opened ∨ w.phase = .up) ∧ w.machine.store.segments = [] ∧
        w.machine.dir.segments = []
  | .kill => True

end World

/-- The worlds that come of an empty directory by operations that meet a condition. -/
inductive Run (Meets : World → Event V → Prop) : World → Prop
  | start (store : SegmentStore) : Run Meets ⟨.down, ⟨store, Dir.empty⟩, ⟨0, []⟩⟩
  | step {w : World} (env : Env) {event : Event V} : Run Meets w → w.Driven event → Meets w event →
      Run Meets (w.step env event)

/-- What holds of a directory and its store. -/
def World.Good (V : Type) [Versioned V] [HeaderSerde V] (w : World) : Prop :=
  match w.phase with
  | .down => ∃ L, Left V w.log L w.machine.dir
  | .opened => ∃ L, Fresh V w.log L w.machine
  | .up => ∃ L stale, Kept V w.log L stale w.machine
  | .lost => (∃ L, Left V w.log L w.machine.dir) ∧
      segPrologue + recPrefix ≤ w.machine.store.rotateBytes

theorem left_empty : Left V ⟨0, []⟩ ⟨[], none, none⟩ Dir.empty := by
  refine ⟨trivial, by simp, rfl, .nil, nofun, by simp, nofun, fun _ => ⟨rfl, rfl⟩, nofun, ?_, nofun,
    nofun⟩
  intro g hg
  cases hg
  exact ⟨le_rfl, le_rfl⟩

/-- A header of any version, over a directory without segments. -/
theorem ends_writeHeader_empty [LawfulHeaderSerde V] {view : V} (hsegs : m.store.segments = []) :
    Ends (writeHeader env view) (fun x m' => m'.dir.segments = m.dir.segments ∧
      (x = .ok () → m'.store = { m.store with headerVersion := Versioned.version view } ∧
        ∀ g, headerOf V m'.dir = .ok g → versionOf g = Versioned.version view) ∧
      (x ≠ .ok () → m'.store = m.store ∧ (m'.dir.header = m.dir.header ∨
        ∀ g, headerOf V m'.dir = .ok g → versionOf g = Versioned.version view))) m := by
  refine ends_writeHeader_steps (fun x d hx _ hsegments hheader => ?_)
    (fun json x d hx _ hjson hsegments hheader => ?_) (fun json d _ hjson hsegments hheader => ?_)
  · exact ⟨hsegments, fun hok => absurd hok hx, fun _ => ⟨rfl, .inl hheader⟩⟩
  · exact ⟨hsegments, fun hok => absurd hok hx,
      fun _ => ⟨rfl, .inr fun g hg => versionOf_headerBytes hjson hheader hg⟩⟩
  · rw [reclaim, ends_bind, ends_get, after_ok, hsegs]
    exact ⟨hsegments, fun _ => ⟨rfl, fun g hg => versionOf_headerBytes hjson hheader hg⟩,
      fun hne => absurd rfl hne⟩

theorem left_jump {version : ℕ} (hsegments : d.segments = [])
    (hheader : ∀ g, headerOf V d = .ok g → versionOf g = version) :
    Left V ⟨version, []⟩ ⟨[], none, none⟩ d := by
  refine ⟨trivial, by simp, hsegments, .nil, nofun, by simp, nofun, fun _ => ⟨rfl, rfl⟩, nofun, ?_,
    nofun, nofun⟩
  intro g hg
  rw [hheader g hg]
  exact ⟨le_rfl, le_rfl⟩

theorem Left.same_dir (h : Left V log L d) (hsegments : d'.segments = d.segments)
    (hheader : d'.header = d.header) : Left V log L d' := by
  have hsame := headerOf_congr (V := V) hheader
  exact ⟨h.numbered, h.fits, hsegments.trans h.files, h.spaced, h.taken, h.closed, h.last, h.empty,
    h.stub, hsame ▸ h.header, hsame ▸ h.reach, hsame ▸ h.continues⟩

/-- A store without segments that takes its log to start at `version`. -/
theorem Fresh.jump (h : Fresh V log L m) {version : ℕ} (hfiles : m.dir.segments = [])
    (hsegments : m'.dir.segments = m.dir.segments)
    (hstore : m'.store = { m.store with headerVersion := version })
    (hread : ∀ g, headerOf V m'.dir = .ok g → versionOf g = version) :
    Fresh V ⟨version, []⟩ ⟨[], none, none⟩ m' := by
  have hempty : m'.dir.segments = [] := hsegments.trans hfiles
  refine ⟨left_jump hempty hread, ?_, ?_, .inr ⟨?_, ?_⟩, ?_, ?_, ?_⟩
  · rw [hstore, hsegments]
    exact h.names
  · rw [hstore]
    exact fun _ => h.inactive hfiles
  · rw [hstore]
    rfl
  · rw [hstore]
    exact hread
  · rw [hstore]
    exact h.unrecovered
  · rw [hstore]
    exact h.clean
  · rw [hstore]
    exact h.room

theorem Kept.jump (h : Kept V log L stale m) {version : ℕ} (hfiles : m.dir.segments = [])
    (hsegs : m.store.segments = []) (hsegments : m'.dir.segments = m.dir.segments)
    (hstore : m'.store = { m.store with headerVersion := version })
    (hread : ∀ g, headerOf V m'.dir = .ok g → versionOf g = version) :
    Kept V ⟨version, []⟩ ⟨[], none, none⟩ 0 m' := by
  have hinactive : m.store.active = none := by
    obtain ⟨rfl, -⟩ := h.toLeft.eq_nil hfiles
    refine (h.active.resolve_right ?_).1
    rintro ⟨-, p, hp, -⟩
    cases hp
  refine ⟨left_jump (hsegments.trans hfiles) hread, le_rfl, ?_, nofun, .inl ⟨?_, nofun⟩,
    ⟨0, trivial⟩, ?_, ?_, ?_, ?_⟩
  · rw [hstore]
    exact hsegs
  · rw [hstore]
    exact hinactive
  · rw [hstore]
    exact ⟨le_rfl, le_rfl⟩
  · intro g hg
    rw [hstore, hread g hg]
  · rw [hstore]
    exact h.recovered
  · rw [hstore]
    exact h.room

namespace World

variable {w : World}

theorem Good.left (h : w.Good V) : ∃ L, Left V w.log L w.machine.dir := by
  rw [Good] at h
  cases hphase : w.phase with
  | down => rwa [hphase] at h
  | opened =>
      rw [hphase] at h
      obtain ⟨L, hfresh⟩ := h
      exact ⟨L, hfresh.toLeft⟩
  | up =>
      rw [hphase] at h
      obtain ⟨L, stale, hkept⟩ := h
      exact ⟨L, hkept.toLeft⟩
  | lost =>
      rw [hphase] at h
      exact h.1

theorem Good.room (h : w.Good V) (hup : w.phase ≠ .down) :
    segPrologue + recPrefix ≤ w.machine.store.rotateBytes := by
  rw [Good] at h
  cases hphase : w.phase with
  | down => exact absurd hphase hup
  | opened =>
      rw [hphase] at h
      obtain ⟨L, hfresh⟩ := h
      exact hfresh.room
  | up =>
      rw [hphase] at h
      obtain ⟨L, stale, hkept⟩ := h
      exact hkept.room
  | lost =>
      rw [hphase] at h
      exact h.2

theorem good_opening (h : w.Good V) (rotateBytes : ℕ) :
    (w.step env (.opening rotateBytes : Event V)).Good V := by
  obtain ⟨L, hleft⟩ := h.left
  show Ends (openWith V env rotateBytes) (fun x m => (w.opening x m).Good V) w.machine
  refine (ends_openWith V rotateBytes).mono ?_
  rintro x m ⟨hdir, hok⟩
  cases x with
  | error e => exact ⟨L, hdir ▸ hleft⟩
  | died => exact ⟨L, hdir ▸ hleft⟩
  | ok u =>
      obtain ⟨header, hheader, hstore⟩ := hok rfl
      refine ⟨L, hdir ▸ hleft, ?_, ?_, .inl ⟨header, hdir ▸ hheader, ?_⟩, ?_, ?_, ?_⟩
      · show m.store.segments.map Segment.first = m.dir.segments.map Prod.fst
        rw [hstore, hdir, List.map_map]
        rfl
      · show _ → m.store.active = none
        rw [hstore]
        exact fun _ => rfl
      · show m.store.headerVersion = _
        rw [hstore]
      · show m.store.recovered = false
        rw [hstore]
      · show m.store.poison = none
        rw [hstore]
      · show _ ≤ m.store.rotateBytes
        rw [hstore]
        exact le_max_right _ _

theorem good_load (h : w.Good V) (hup : w.phase ≠ .down) :
    (w.step env (.load : Event V)).Good V := by
  obtain ⟨L, hleft⟩ := h.left
  have hroom := h.room hup
  have hopened : Ends (load V env) (fun x m' => w.phase = .opened →
      (∀ found, x ≠ .ok found) → ∃ L', Fresh V w.log L' m') w.machine := by
    by_cases hphase : w.phase = .opened
    · rw [Good, hphase] at h
      obtain ⟨L, hfresh⟩ := h
      exact hfresh.ends_load.mono fun x m hends _ => hends
    · exact fun hopened => absurd hopened hphase
  show Ends (load V env) (fun x m => (w.loading x m).Good V) w.machine
  refine ((hleft.ends_load hroom).and hopened).mono ?_
  rintro x m ⟨⟨hok, hfail⟩, hopened⟩
  cases x with
  | ok found =>
      obtain ⟨L', hkept⟩ := hok found rfl
      exact ⟨L', 0, hkept⟩
  | died => exact (hfail nofun).1
  | error e =>
      obtain ⟨hleft', hrotate⟩ := hfail nofun
      rw [loading]
      by_cases hphase : w.phase = .opened
      · rw [if_pos hphase]
        exact hopened hphase nofun
      · rw [if_neg hphase]
        exact ⟨hleft', hrotate ▸ hroom⟩

theorem good_of_settled {x : Exit Err Unit} {m' : Machine} {phase : Phase} (hup : phase = .up)
    (h : Settled V log records stale x m') :
    (World.appending ⟨phase, m, log⟩ records x m').Good V := by
  subst hup
  cases x with
  | ok u =>
      obtain ⟨L', hkept⟩ := h
      exact ⟨L', stale, hkept⟩
  | error e =>
      obtain ⟨L', hkept⟩ := h
      exact ⟨L', stale, hkept⟩
  | died => exact h

theorem good_append (h : w.Good V) (hdriven : w.Driven (.append records : Event V)) :
    (w.step env (.append records : Event V)).Good V := by
  show Ends (append env records) (fun x m => ((w.settle env records).appending records x m).Good V)
    w.machine
  by_cases hnil : records = []
  · -- nothing is done with an empty batch
    have hsame : w.settle env records = w := by
      rw [settle, if_neg]
      simp [Machine.settles, hnil]
    have hnothing : w.appending records (.ok ()) w.machine = w := by
      rw [appending, hnil, Journal.append_nil]
    rw [hsame, append, if_pos (List.isEmpty_iff.mpr hnil), ends_pure, hnothing]
    exact h
  rcases hdriven with hphase | hphase | ⟨hphase, hpoison⟩
  · rw [Good, hphase] at h
    obtain ⟨L, hfresh⟩ := h
    have hsettles : w.machine.settles env records = (recover env false w.machine).1.isOk := by
      simp [Machine.settles, hfresh.clean, hfresh.unrecovered, hnil]
    refine (hfresh.ends_append hnil).mono ?_
    intro x m hends
    rw [settle, hsettles]
    split_ifs at hends ⊢ with hok
    · exact good_of_settled rfl hends
    · obtain ⟨hx, L', hfresh'⟩ := hends
      cases x with
      | ok u => exact absurd rfl hx
      | error e =>
          rw [appending, hphase]
          exact ⟨L', hfresh'⟩
      | died => exact ⟨L', hfresh'.toLeft⟩
  · rw [Good, hphase] at h
    obtain ⟨L, stale, hkept⟩ := h
    have hsame : w.settle env records = w := by
      rw [settle, if_neg]
      simp [Machine.settles, hkept.recovered]
    rw [hsame]
    refine (ends_append hkept).mono ?_
    rintro x m ⟨happend, -⟩
    exact good_of_settled (m := w.machine) hphase (happend.settled hkept)
  · obtain ⟨poison, hpoison⟩ := Option.isSome_iff_exists.mp hpoison
    have hsame : w.settle env records = w := by
      rw [settle, if_neg]
      simp [Machine.settles, hpoison]
    rw [hsame, append, if_neg fun hempty => hnil (List.isEmpty_iff.mp hempty), ends_bind, ends_get,
      after_ok, hpoison]
    exact h

theorem good_sync (h : w.Good V) : (w.step env (.sync : Event V)).Good V := by
  show Ends (sync env) (fun x m => (w.syncing x m).Good V) w.machine
  refine ends_sync.mono ?_
  rintro x m ⟨rfl, -⟩
  cases x with
  | ok u => exact h
  | error e => exact h
  | died => exact h.left

theorem good_of_checkpointing {view : V} (hview : Versioned.version view = w.log.tip)
    (hphase : w.phase = .up) {x : Exit Err Unit} {m : Machine}
    (h : Checkpointing V env w.log L stale w.machine view x m) :
    (w.checkpointing (Versioned.version view) x m).Good V := by
  obtain ⟨L', stale', hkept⟩ : ∃ L' stale', Kept V w.log L' stale' m := by
    cases h with
    | unpublished x m hx hpublishes hkept => exact ⟨_, _, hkept⟩
    | published json x m hx hpublishes hjson hkept => exact ⟨_, _, hkept⟩
    | taken json gone stale' x m hjson hkept => exact ⟨_, _, hkept⟩
  have hlog : (if m.dir.header = w.machine.dir.header then w.log else
      if Versioned.version view = w.log.tip then w.log else ⟨Versioned.version view, []⟩) =
      w.log := by
    rw [if_pos hview, ite_self]
  cases x with
  | ok u =>
      rw [checkpointing, if_pos hview, hphase]
      exact ⟨L', stale', hkept⟩
  | error e =>
      rw [checkpointing, hlog, if_pos hview, hphase]
      exact ⟨L', stale', hkept⟩
  | died =>
      rw [checkpointing, hlog]
      exact ⟨L', hkept.toLeft⟩

/-- A log without segments may start again at any version. -/
theorem good_jump [LawfulHeaderSerde V] (h : w.Good V) {view : V}
    (hphase : w.phase = .opened ∨ w.phase = .up ∧ Versioned.version view ≠ w.log.tip)
    (hsegs : w.machine.store.segments = []) (hfiles : w.machine.dir.segments = []) :
    Ends (writeHeader env view)
      (fun x m => (w.checkpointing (Versioned.version view) x m).Good V) w.machine := by
  obtain ⟨L, hleft⟩ := h.left
  have hroom := h.room (by cases hphase with | inl h => rw [h]; nofun | inr h => rw [h.1]; nofun)
  have hnil : w.log = ⟨w.log.tip, []⟩ := by
    have hrecords := (hleft.eq_nil hfiles).2
    cases hlog : w.log with
    | mk base records =>
        rw [hlog] at hrecords
        obtain rfl : records = [] := hrecords
        rfl
  have hlog : (if Versioned.version view = w.log.tip then w.log else ⟨Versioned.version view, []⟩) =
      (⟨Versioned.version view, []⟩ : Journal) := by
    split_ifs with hview
    · rw [hview]
      exact hnil
    · rfl
  refine (ends_writeHeader_empty hsegs).mono ?_
  rintro x m ⟨hsegments, hok, hfail⟩
  have hempty : m.dir.segments = [] := hsegments.trans hfiles
  have hreached : x ≠ .ok () → ∃ L', Left V (if m.dir.header = w.machine.dir.header then w.log
      else ⟨Versioned.version view, []⟩) L' m.dir := by
    intro hx
    split_ifs with hsame
    · exact ⟨L, hleft.same_dir hsegments hsame⟩
    · exact ⟨_, left_jump hempty ((hfail hx).2.resolve_left hsame)⟩
  cases x with
  | died =>
      rw [checkpointing, hlog]
      exact hreached nofun
  | ok u =>
      obtain ⟨hstore, hread⟩ := hok rfl
      rw [checkpointing, hlog]
      cases hphase with
      | inl hopened =>
          rw [Good, hopened] at h
          obtain ⟨L, hfresh⟩ := h
          rw [hopened]
          exact ⟨_, hfresh.jump hfiles hsegments hstore hread⟩
      | inr hup =>
          rw [Good, hup.1] at h
          obtain ⟨L, stale, hkept⟩ := h
          rw [hup.1]
          exact ⟨_, _, hkept.jump hfiles hsegs hsegments hstore hread⟩
  | error e =>
      obtain ⟨hstore, hheader⟩ := hfail nofun
      rw [checkpointing, hlog]
      by_cases hview : Versioned.version view = w.log.tip
      · -- the header is at the version the store has it at
        have hopened : w.phase = .opened := hphase.resolve_right fun hup => hup.2 hview
        have hsame : (if m.dir.header = w.machine.dir.header then w.log
            else ⟨Versioned.version view, []⟩) = w.log := by
          rw [hview, ← hnil, ite_self]
        rw [if_pos hview, hsame, hopened]
        rw [Good, hopened] at h
        obtain ⟨L, hfresh⟩ := h
        obtain ⟨⟨hbase, htip⟩, -⟩ := hfresh.covered_of_noted hfresh.noted
        have hversion : w.machine.store.headerVersion = w.log.tip := by
          rw [hnil] at hbase
          exact le_antisymm htip hbase
        have hleft' := hreached nofun
        rw [hsame] at hleft'
        obtain ⟨L', hleft'⟩ := hleft'
        refine ⟨L', hleft', ?_, ?_, ?_, ?_, ?_, ?_⟩
        · rw [show m.store = _ from hstore, show m.dir.segments = _ from hsegments]
          exact hfresh.names
        · rw [show m.store = _ from hstore]
          exact fun _ => hfresh.inactive hfiles
        · rw [show m.store = _ from hstore]
          cases hheader with
          | inl hold =>
              rw [Noted, headerOf_congr hold]
              exact hfresh.noted
          | inr hread => exact .inr ⟨hversion, fun g hg => by rw [hread g hg, hview, hversion]⟩
        · rw [show m.store = _ from hstore]
          exact hfresh.unrecovered
        · rw [show m.store = _ from hstore]
          exact hfresh.clean
        · rw [show m.store = _ from hstore]
          exact hfresh.room
      · rw [if_neg hview]
        exact ⟨hreached nofun, by rw [show m.store = _ from hstore]; exact hroom⟩

theorem good_writeHeader [LawfulHeaderSerde V] (h : w.Good V) {view : V}
    (hdriven : w.Driven (.writeHeader view)) : (w.step env (.writeHeader view)).Good V := by
  show Ends (writeHeader env view)
    (fun x m => (w.checkpointing (Versioned.version view) x m).Good V) w.machine
  by_cases hwhole : w.phase = .up ∧ Versioned.version view = w.log.tip
  · obtain ⟨hphase, hview⟩ := hwhole
    have hgood := h
    rw [Good, hphase] at hgood
    obtain ⟨L, stale, hkept⟩ := hgood
    exact (ends_writeHeader hkept hview).mono fun x m hends =>
      good_of_checkpointing hview hphase hends
  · obtain ⟨hphase, hsegs, hfiles⟩ := hdriven.resolve_left hwhole
    exact good_jump h (hphase.imp_right fun hup => ⟨hup, fun hview => hwhole ⟨hup, hview⟩⟩) hsegs
      hfiles

theorem good_step [LawfulHeaderSerde V] (h : w.Good V) {event : Event V}
    (hdriven : w.Driven event) : (w.step env event).Good V := by
  cases event with
  | opening rotateBytes => exact good_opening h rotateBytes
  | load => exact good_load h hdriven
  | append records => exact good_append h hdriven
  | sync => exact good_sync h
  | writeHeader view => exact good_writeHeader h hdriven
  | kill => exact h.left

end World

theorem Run.good [LawfulHeaderSerde V] {Meets : World → Event V → Prop} {w : World}
    (h : Run Meets w) : w.Good V := by
  induction h with
  | start store => exact ⟨_, left_empty⟩
  | step env _ hdriven _ ih => exact World.good_step ih hdriven

end Lug.Wal
