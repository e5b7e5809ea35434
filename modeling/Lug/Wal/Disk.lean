import Lug.Wal.Serving

/-!
`lug_wal::SegmentStore` as the storage of a log: the calls of a process on its store, each
with what the system makes of it, up to the call that the process is killed in. It keeps
the contract that `Storage` states.
-/

namespace Lug.Wal

open Octets Faulty Runs

/-! ### What a read returns, if it returns -/

section Reads

variable [Crc32] {V : Type} [Versioned V] [HeaderSerde V] {env env' : Env}
  {m m' : Machine}

/-- The loop of `read_after` behind a file that could be read. -/
theorem readSegments_cons {start limit : ℕ} {segment : Segment} {rest : List Segment}
    {out : List Record} {content : Bytes}
    (hread : readFile env (.scan segment.first) segment.path m = (.ok content, m)) :
    readSegments env start limit (segment :: rest) out m =
      match scan segment.path content (collectRecord start limit) out with
      | .error e => (.error e, m)
      | .ok (out, _) =>
          if limit ≤ out.length then (.ok out, m) else readSegments env start limit rest out m := by
  rw [readSegments]
  show Act.bind _ _ m = _
  rw [Act.bind, hread]
  dsimp only
  show Act.bind _ _ m = _
  cases scan segment.path content (collectRecord start limit) out with
  | error e => rfl
  | ok scanned =>
      obtain ⟨out', stop⟩ := scanned
      show (if limit ≤ out'.length then pure out' else readSegments env start limit rest out' :
        Op (List Record)) m = _
      dsimp only
      split_ifs <;> rfl

omit [Crc32] in
/-- A file that was read is there, and nothing happened to it. -/
theorem readFile_ok {site : Site} {path : Path} {content : Bytes}
    (h : readFile env site path m = (.ok content, m')) :
    m' = m ∧ m.dir.bytes path = some content := by
  unfold readFile at h
  split at h
  · cases h
    exact ⟨rfl, ‹_›⟩
  · cases h
  · cases h

theorem readSegments_agrees (hcalm : env'.Calm) {start limit : ℕ} (segments : List Segment)
    (out : List Record) {records : List Record}
    (hok : (readSegments env start limit segments out m).1 = .ok records) :
    (readSegments env' start limit segments out m).1 = .ok records := by
  induction segments generalizing out with
  | nil => exact hok
  | cons segment rest ih =>
      obtain ⟨content, m₁, hread, -⟩ : ∃ content m₁,
          readFile env (.scan segment.first) segment.path m = (.ok content, m₁) ∧ _ :=
        exists_of_bind_ok hok
      obtain ⟨rfl, hcontent⟩ := readFile_ok hread
      have hread' : readFile env' (.scan segment.first) segment.path m₁ = (.ok content, m₁) := by
        rw [readFile, hcontent, hcalm.reply]
      rw [readSegments_cons hread] at hok
      rw [readSegments_cons hread']
      cases hscan : scan segment.path content (collectRecord start limit) out with
      | error e =>
          rw [hscan] at hok
          cases hok
      | ok scanned =>
          rw [hscan] at hok
          dsimp only at hok ⊢
          split_ifs at hok ⊢
          · exact hok
          · exact ih _ hok

/-- A read that succeeds returns what it returns where nothing fails. -/
theorem readAfter_agrees (hcalm : env'.Calm) {after limit : ℕ} {records : List Record}
    (hok : (readAfter env after limit m).1 = .ok records) :
    (readAfter env' after limit m).1 = .ok records := by
  have hstep : ∀ env, readAfter env after limit m =
      if min (after + 1) versionMax < m.store.oldest then
        (.error (.reclaimed (min (after + 1) versionMax) m.store.oldest), m)
      else if limit = 0 then (.ok [], m)
      else (m.store.segmentFor (min (after + 1) versionMax)).elim (.ok [], m) fun index =>
        readSegments env (min (after + 1) versionMax) limit (m.store.segments.drop index) [] m := by
    intro env
    rw [readAfter]
    show (if min (after + 1) versionMax < m.store.oldest then _ else if limit = 0 then _ else _ :
      Op (List Record)) m = _
    split_ifs
    · rfl
    · rfl
    · cases m.store.segmentFor (min (after + 1) versionMax) <;> rfl
  rw [hstep] at hok ⊢
  split_ifs at hok ⊢
  · exact hok
  · cases hindex : m.store.segmentFor (min (after + 1) versionMax) with
    | none =>
        rw [hindex] at hok
        exact hok
    | some index =>
        rw [hindex] at hok
        exact readSegments_agrees hcalm _ _ hok

end Reads

section Serving

variable [Crc32] {V : Type} [Versioned V] [HeaderSerde V] {env : Env} {m : Machine} {H : Ledger V}

omit [Crc32] in
theorem onward_onward {n k : ℕ} (h : n ≤ k) (records : List Record) :
    onward k (onward n records) = onward k records := by
  rw [onward, onward, List.filter_filter, onward]
  refine List.filter_congr fun r _ => ?_
  rw [← Bool.decide_and]
  exact decide_eq_decide.mpr ⟨And.left, fun hk => ⟨hk, h.trans hk⟩⟩

/-- What a read of a store at work returns, if it returns. -/
theorem Serves.readAfter_ok (h : Serves H m) {after limit : ℕ} {records : List Record}
    (hok : (readAfter env after limit m).1 = .ok records) :
    m.store.oldest ≤ min (after + 1) versionMax ∧
      records = (onward (min (after + 1) versionMax) H.taken).take limit := by
  obtain ⟨L, stale, hkept⟩ := h.kept
  have hcalm := readAfter_agrees calm_calm hok
  rw [hkept.readAfter_eq calm_calm, hkept.extra_nil h.clean, List.append_nil,
    hkept.since_oldest] at hcalm
  split_ifs at hcalm with hold
  have hrecords := (Exit.ok.inj hcalm).symm
  rw [onward_onward (not_lt.mp hold)] at hrecords
  exact ⟨not_lt.mp hold, hrecords⟩

/-- A version of a history, or the next one. -/
def Ranges (H : Ledger V) (n : ℕ) : Prop :=
  n ≤ H.taken.length + 1 ∧ (n ≤ H.taken.length → ∃ r ∈ H.taken, r.version = n)

/-- The oldest version of a store at work is there, unless nothing is. -/
theorem Serves.ranges (h : Serves H m) : Ranges H m.store.oldest := by
  obtain ⟨L, stale, hkept⟩ := h.kept
  have hfront := hkept.front_le.2
  rw [hkept.oldest_eq h.next_le]
  rw [next_journal] at hfront ⊢
  refine ⟨hfront, fun hle => ?_⟩
  have hpos : 1 ≤ L.front (H.taken.length + 1) stale := by
    rw [Layout.front]
    cases hspans : L.spans.drop stale with
    | nil => exact Nat.le_add_left ..
    | cons s spans =>
        exact (hkept.taken s (List.mem_of_mem_drop (i := stale) (by rw [hspans]; simp))).1
  have hindex : L.front (H.taken.length + 1) stale - 1 < H.taken.length := by omega
  refine ⟨H.taken[L.front (H.taken.length + 1) stale - 1], List.getElem_mem hindex, ?_⟩
  have hsuffix := hkept.numbered.drop (L.front (H.taken.length + 1) stale - 1)
  have hbase : (journal H).base = 0 := rfl
  rw [show (journal H).records = H.taken from rfl, List.drop_eq_getElem_cons hindex, hbase]
    at hsuffix
  have hversion := hsuffix.1
  omega

end Serving

/-! ### The texts of the errors -/

/-- A file as the errors name it, less the directory it is in. A segment file is named for
its first version, in 18 digits at least. -/
def Path.name : Path → String
  | .dir => ""
  | .header => "header"
  | .headerTmp => "header.tmp"
  | .segment first => String.ofList (List.leftpad 18 '0' (Nat.toDigits 10 first)) ++ ".seg"

/-- A checksum as it is printed. -/
def hexText (n : ℕ) : String := "0x" ++ String.ofList (List.leftpad 8 '0' (Nat.toDigits 16 n))

/-- `lug_wal::Error`, less what the operating system says. -/
def Err.display : Err → String
  | .io path => path.name ++ ": "
  | .locked => " is already open: a log directory has exactly one writer"
  | .notASegment path => path.name ++ " does not start with the segment magic"
  | .notAHeader path => path.name ++ " does not start with the header magic"
  | .headerChecksum found computed len =>
      "header checksum is " ++ hexText found ++ ", computed " ++ hexText computed ++ " over " ++
        toString len ++ " bytes"
  | .shortHeader len => "header is " ++ toString len ++ " bytes, too short to hold its own frame"
  | .headerDisagrees declared view =>
      "header says version " ++ toString declared ++ " but carries a view at " ++ toString view
  | .headerAhead header last =>
      "header is at version " ++ toString header ++ ", above the last record " ++ toString last
  | .json message => message
  | .gap path expected found =>
      "version gap in " ++ path.name ++ ": expected " ++ toString expected ++ ", found " ++
        toString found
  | .misnamed path expected found =>
      path.name ++ " is named for version " ++ toString expected ++ " but starts at " ++
        toString found
  | .tornMidLog path => "torn record in " ++ path.name ++ ", which is not the last segment"
  | .outOfOrder expected found =>
      "append expected version " ++ toString expected ++ ", got " ++ toString found
  | .oversized version len max =>
      "payload of " ++ toString len ++ " bytes at version " ++ toString version ++
        " exceeds the limit of " ++ toString max
  | .reclaimed requested oldest =>
      "version " ++ toString requested ++ " was reclaimed; oldest readable is " ++ toString oldest
  | .empty version =>
      "version " ++ toString version ++
        " carries an empty payload, which reads back as the end of the segment"
  | .cleanupFailed path offset =>
      path.name ++ ": an append failed at offset " ++ toString offset ++
        " and the bytes above it could not be zeroed: "
  | .poisoned path offset =>
      path.name ++ " is poisoned: bytes above offset " ++ toString offset ++
        " may replay as records nobody was told about, so appending is refused until the " ++
        "store is reopened"
  | .exhausted version =>
      "version " ++ toString version ++
        " is the last the counter holds, and the log needs a version above it"

/-! ### The store of a process -/

/-- What a log is told where its storage gives no result. A process that was killed is
told nothing: that it was is for whoever looks at it from outside. -/
inductive Fault
  | store (e : Err)
  | killed
  | misused

def Fault.display : Fault → String
  | .store e => e.display
  | .killed => "the process was killed"
  | .misused => "the store is not called so"

/-- The store was opened, or loaded, or its process was killed over a directory. -/
inductive Standing
  | opened
  | up
  | killed (dir : Dir)

/-- A store in its process, and what the system is going to make of its calls. A failed
append can be cleaned up after. -/
structure Disk (V : Type) where
  standing : Standing
  machine : Machine
  env : ℕ → Env
  mends : ∀ n, (env n).Mends

/-- A process to be: what it is told, and what the system is going to make of its calls. -/
structure Launch where
  rotateBytes : ℕ
  opening : Env
  env : ℕ → Env
  mends : ∀ n, (env n).Mends

namespace Disk

variable {V : Type} {α : Type}

/-- The directory as it stands, for whoever opens it next. -/
def dir (s : Disk V) : Dir :=
  match s.standing with
  | .killed d => d
  | _ => s.machine.dir

/-- The store a call leaves, by how it ends. Nobody works on a store again whose process
was killed. -/
def returned (s : Disk V) : Exit Err α → Machine → Except Fault α × Disk V
  | .ok a, m => (.ok a,
      { s with
        standing := .up
        machine := m
        env := fun n => s.env (n + 1)
        mends := fun n => s.mends (n + 1) })
  | .error e, m => (.error (.store e),
      { s with
        machine := m
        env := fun n => s.env (n + 1)
        mends := fun n => s.mends (n + 1) })
  | .died, m => (.error .killed,
      { s with
        standing := .killed m.dir
        env := fun n => s.env (n + 1)
        mends := fun n => s.mends (n + 1) })

def issue (s : Disk V) (op : Env → Op α) : Except Fault α × Disk V :=
  s.returned (op (s.env 0) s.machine).1 (op (s.env 0) s.machine).2

/-- A call on a store that was loaded. -/
def serve (s : Disk V) (op : Env → Op α) : Except Fault α × Disk V :=
  match s.standing with
  | .up => s.issue op
  | .opened => (.error .misused, s)
  | .killed _ => (.error .killed, s)

variable [Crc32] [Versioned V] [HeaderSerde V]

def append (s : Disk V) (records : List Record) : Except Fault Unit × Disk V :=
  s.serve fun env => Wal.append env records

/-- `write_header`, of a view at the last version that was appended. What the store does
with another view is not asked here: a log has no other. -/
def writeHeader (s : Disk V) (view : V) : Except Fault Unit × Disk V :=
  match s.standing with
  | .up =>
      if Versioned.version view + 1 = s.machine.store.nextVersion then
        s.issue fun env => Wal.writeHeader env view
      else (.error .misused, s)
  | .opened => (.error .misused, s)
  | .killed _ => (.error .killed, s)

def sync (s : Disk V) : Except Fault Unit × Disk V := s.serve Wal.sync

def load (s : Disk V) : Except Fault (Recovered V) × Disk V :=
  match s.standing with
  | .killed _ => (.error .killed, s)
  | _ => s.issue (Wal.load V)

def readAfter (s : Disk V) (after limit : ℕ) : Except Fault (List Record) :=
  (s.serve fun env => Wal.readAfter env after limit).1

instance : Storage (Disk V) V where
  Err := Fault
  display := Fault.display
  append := append
  writeHeader := writeHeader
  sync := sync
  load := load
  readAfter := readAfter
  oldest s := s.machine.store.oldest

/-- `open_with`, by a process that starts on the directory `d`. -/
def start (V : Type) [Versioned V] [HeaderSerde V] (p : Launch) (d : Dir) :
    Except Fault (Disk V) × Dir :=
  match openWith V p.opening p.rotateBytes ⟨⟨[], none, 0, 0, 0, false, none⟩, d⟩ with
  | (.ok _, m) => (.ok ⟨.opened, m, p.env, p.mends⟩, m.dir)
  | (.error e, m) => (.error (.store e), m.dir)
  | (.died, m) => (.error .killed, m.dir)

/-! ### The contract -/

/-- What a store stands for. Of a process that was killed it is what is in the directory;
the versions it would have answered with are still those of its log. -/
def Holds (s : Disk V) (H : Ledger V) : Prop :=
  match s.standing with
  | .opened => False
  | .up => Serves H s.machine
  | .killed d => Rests H d ∧ Ranges H s.machine.store.oldest

variable {s : Disk V} {H : Ledger V}

theorem Holds.rests (h : s.Holds H) : Rests H s.dir := by
  unfold Holds at h
  unfold dir
  split at h
  · exact h.elim
  · next hup =>
      rw [hup]
      exact h.rests
  · next hkilled =>
      rw [hkilled]
      exact h.1

theorem Holds.ranges (h : s.Holds H) : Ranges H s.machine.store.oldest := by
  unfold Holds at h
  split at h
  · exact h.elim
  · exact h.ranges
  · exact h.2

/-- A store stands for a history and its process is there, or it was killed and answers no
call any more. -/
theorem Holds.serve (h : s.Holds H) (op : Env → Op α) :
    (s.standing = .up ∧ Serves H s.machine ∧ s.serve op = s.issue op) ∨
      s.serve op = (.error .killed, s) := by
  unfold Holds at h
  unfold Disk.serve
  split at h
  · exact h.elim
  · next hup =>
      rw [hup]
      exact .inl ⟨rfl, h, rfl⟩
  · next hkilled =>
      rw [hkilled]
      exact .inr rfl

theorem holds_up {s : Disk V} (hup : s.standing = .up) : s.Holds H ↔ Serves H s.machine := by
  unfold Holds
  rw [hup]

/-- A call that fails leaves the process there. -/
theorem holds_failed {s : Disk V} {e : Err} {m : Machine} (hup : s.standing = .up)
    (h : Serves H m) : (s.returned (.error e : Exit Err α) m).2.Holds H :=
  (holds_up (s := (s.returned (.error e : Exit Err α) m).2) hup).mpr h

/-- All that an append does. -/
theorem Holds.append (h : s.Holds H) (records : List Record) :
    (∃ x m', Recorded H records s.machine x m' ∧ s.standing = .up ∧
      s.append records = s.returned x m') ∨ s.append records = (.error .killed, s) := by
  refine (h.serve fun env => Wal.append env records).imp_left ?_
  rintro ⟨hup, hserves, hissue⟩
  exact ⟨_, _, hserves.ends_append (s.mends 0) records, hup, hissue⟩

theorem Holds.sync (h : s.Holds H) :
    (∃ x m', Serves H m' ∧ m'.store.oldest = s.machine.store.oldest ∧ s.standing = .up ∧
      s.sync = s.returned x m') ∨ s.sync = (.error .killed, s) := by
  refine (h.serve Wal.sync).imp_left ?_
  rintro ⟨hup, hserves, hissue⟩
  obtain ⟨hserves', holdest⟩ : Ends (Wal.sync (s.env 0)) _ _ := hserves.ends_sync
  exact ⟨_, _, hserves', holdest, hup, hissue⟩

theorem Holds.writeHeader [LawfulHeaderSerde V] (h : s.Holds H) (view : V) :
    (∃ x m', Checkpointed H view s.machine x m' ∧ s.standing = .up ∧
      s.writeHeader view = s.returned x m') ∨ s.writeHeader view = (.error .killed, s) ∨
        (Versioned.version view ≠ H.taken.length ∧ s.writeHeader view = (.error .misused, s)) := by
  unfold Holds at h
  unfold Disk.writeHeader
  split at h
  · exact h.elim
  · next hup =>
      rw [hup]
      dsimp only
      rw [h.nextVersion]
      split_ifs with hview
      · exact Or.inl ⟨_, _, h.ends_writeHeader (Nat.succ_inj.mp hview), rfl, rfl⟩
      · exact Or.inr (Or.inr ⟨fun hsame => hview (hsame ▸ rfl), rfl⟩)
  · next hkilled =>
      rw [hkilled]
      exact Or.inr (Or.inl rfl)

/-- A load of a store at work finds its history. -/
theorem Holds.load (h : s.Holds H) {found : Recovered V} (hok : s.load.1 = .ok found) :
    s.load.2.Holds H ∧ found.Resumes H := by
  unfold Holds at h
  unfold Disk.load at hok ⊢
  split at h
  · exact h.elim
  · next hup =>
      rw [hup] at hok ⊢
      obtain ⟨L, stale, hkept⟩ := h.kept
      have hload : Ends (Wal.load V (s.env 0)) _ _ := h.rests.ends_load hkept.room
      change Reloaded _ _ _ _ at hload
      have hsame : extended H s.machine.dir = H := by
        rw [extended, h.beyond_eq, Ledger.push_nil]
      dsimp only [issue] at hok ⊢
      generalize (Wal.load V (s.env 0) s.machine).1 = x at hok hload ⊢
      generalize (Wal.load V (s.env 0) s.machine).2 = m' at hok hload ⊢
      cases x with
      | ok found' =>
          cases hok
          obtain ⟨hresumes, -, -, hserves⟩ := hload
          rw [hsame] at hresumes hserves
          exact ⟨hserves h.low, hresumes⟩
      | error e => cases hok
      | died => cases hok
  · next hkilled =>
      rw [hkilled] at hok
      cases hok

/-- A read of a store at work. -/
theorem Holds.readAfter (h : s.Holds H) {after limit : ℕ} {records : List Record}
    (hok : s.readAfter after limit = .ok records) :
    s.machine.store.oldest ≤ min (after + 1) versionMax ∧
      records = (onward (min (after + 1) versionMax) H.taken).take limit ∧
        H.taken.length < versionMax := by
  unfold Disk.readAfter at hok
  rcases h.serve fun env => Wal.readAfter env after limit with ⟨-, hserves, hissue⟩ | hkilled
  · rw [hissue, issue] at hok
    generalize hx : (Wal.readAfter (s.env 0) after limit s.machine).1 = x at hok
    cases x with
    | ok found =>
        cases hok
        obtain ⟨hold, hrecords⟩ := hserves.readAfter_ok hx
        exact ⟨hold, hrecords, hserves.low⟩
    | error e => cases hok
    | died => cases hok
  · rw [hkilled] at hok
    cases hok

/-! ### What the contract asks of each call -/

theorem Holds.append_ok {records : List Record} (h : s.Holds H)
    (hok : (s.append records).1 = .ok ()) : (s.append records).2.Holds (H.push records) := by
  obtain ⟨x, m', hrecorded, hup, happend⟩ | hkilled := h.append records
  · rw [happend] at hok ⊢
    cases x with
    | ok u => exact hrecorded.1
    | error e => cases hok
    | died => cases hok
  · rw [hkilled] at hok
    cases hok

theorem Holds.append_error {records : List Record} {e : Fault} (h : s.Holds H)
    (herror : (s.append records).1 = .error e) : (s.append records).2.Holds H := by
  obtain ⟨x, m', hrecorded, hup, happend⟩ | hkilled := h.append records
  · rw [happend] at herror ⊢
    cases x with
    | ok u => cases herror
    | error e => exact holds_failed hup hrecorded.1
    | died => exact ⟨hrecorded, h.ranges⟩
  · rw [hkilled]
    exact h

theorem Holds.after_sync (h : s.Holds H) : s.sync.2.Holds H := by
  obtain ⟨x, m', hserves, -, hup, hsync⟩ | hkilled := h.sync
  · rw [hsync]
    cases x with
    | ok u => exact hserves
    | error e => exact holds_failed hup hserves
    | died => exact ⟨hserves.rests, h.ranges⟩
  · rw [hkilled]
    exact h

theorem Holds.readAfter_eq {after limit : ℕ} {records : List Record} (h : s.Holds H)
    (hok : s.readAfter after limit = .ok records) :
    records = (H.taken.filter (after < ·.version)).take limit := by
  obtain ⟨-, hrecords, hlow⟩ := h.readAfter hok
  rw [hrecords, onward]
  congr 1
  refine List.filter_congr fun r hr => decide_eq_decide.mpr ?_
  have hbounds := h.rests.numbered.bounds hr
  omega

theorem Holds.readAfter_mem {after limit : ℕ} {records : List Record} (h : s.Holds H)
    (hok : s.readAfter after limit = .ok records) :
    ∀ r ∈ records, r ∈ H.taken ∧ s.machine.store.oldest ≤ r.version := by
  intro r hr
  obtain ⟨hold, rfl, -⟩ := h.readAfter hok
  obtain ⟨hmem, hversion⟩ := List.mem_filter.mp (List.mem_of_mem_take hr)
  exact ⟨hmem, hold.trans (of_decide_eq_true hversion)⟩

theorem Holds.oldest_append (h : s.Holds H) (records : List Record) :
    s.machine.store.oldest ≤ (s.append records).2.machine.store.oldest := by
  obtain ⟨x, m', hrecorded, hup, happend⟩ | hkilled := h.append records
  · rw [happend]
    cases x with
    | ok u => exact hrecorded.2
    | error e => exact hrecorded.2
    | died => exact le_rfl
  · rw [hkilled]

theorem Holds.oldest_sync (h : s.Holds H) :
    s.machine.store.oldest ≤ s.sync.2.machine.store.oldest := by
  obtain ⟨x, m', -, holdest, -, hsync⟩ | hkilled := h.sync
  · rw [hsync]
    cases x with
    | ok u => exact holdest.ge
    | error e => exact holdest.ge
    | died => exact le_rfl
  · rw [hkilled]

section Header

variable [LawfulHeaderSerde V] {view : V}

theorem Holds.writeHeader_ok (h : s.Holds H) (hok : (s.writeHeader view).1 = .ok ()) :
    (s.writeHeader view).2.Holds (H.checkpoint view) := by
  obtain ⟨x, m', hcheckpointed, hup, hwrite⟩ | hkilled | ⟨-, hmisused⟩ := h.writeHeader view
  · rw [hwrite] at hok ⊢
    cases x with
    | ok u => exact hcheckpointed.1
    | error e => cases hok
    | died => cases hok
  · rw [hkilled] at hok
    cases hok
  · rw [hmisused] at hok
    cases hok

theorem Holds.writeHeader_error {e : Fault} (h : s.Holds H)
    (herror : (s.writeHeader view).1 = .error e) :
    (s.writeHeader view).2.Holds H ∨ (s.writeHeader view).2.Holds (H.checkpoint view) := by
  obtain ⟨x, m', hcheckpointed, hup, hwrite⟩ | hkilled | ⟨-, hmisused⟩ := h.writeHeader view
  · rw [hwrite] at herror ⊢
    cases x with
    | ok u => cases herror
    | error e => exact hcheckpointed.1.imp (holds_failed hup) (holds_failed hup)
    | died =>
        exact hcheckpointed.imp (fun hrests => ⟨hrests, h.ranges⟩) fun hrests => ⟨hrests, h.ranges⟩
  · rw [hkilled]
    exact Or.inl h
  · rw [hmisused]
    exact Or.inl h

theorem Holds.oldest_writeHeader (h : s.Holds H) (view : V) :
    s.machine.store.oldest ≤ (s.writeHeader view).2.machine.store.oldest := by
  obtain ⟨x, m', hcheckpointed, hup, hwrite⟩ | hkilled | ⟨-, hmisused⟩ := h.writeHeader view
  · rw [hwrite]
    cases x with
    | ok u => exact hcheckpointed.2
    | error e => exact hcheckpointed.2
    | died => exact le_rfl
  · rw [hkilled]
  · rw [hmisused]

/-- The store of the process keeps the contract of a storage. -/
instance : StorageContract (Disk V) where
  Holds := Holds
  append_ok h hok := h.append_ok hok
  append_error h herror := h.append_error herror
  sync_holds h := h.after_sync
  writeHeader_ok h hok := h.writeHeader_ok hok
  writeHeader_error h herror := h.writeHeader_error herror
  readAfter_ok h _ hok := h.readAfter_eq hok
  load_ok h hok := h.load hok
  oldest_append h := h.oldest_append _
  oldest_sync h := h.oldest_sync
  oldest_writeHeader h := h.oldest_writeHeader _
  oldest_le h := h.rests.top ▸ h.ranges.1
  oldest_mem h hle := h.ranges.2 (h.rests.top ▸ hle)
  readAfter_mem h hok := h.readAfter_mem hok

end Header

end Disk

end Lug.Wal
