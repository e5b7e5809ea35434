import Lug.Wal.Sys

/-!
`lug_wal::SegmentStore`: a store made of segment files and one header file.
-/

namespace Lug.Wal

open Octets Faulty

/-- Where an append failed to clean up after itself. -/
structure Poison where
  path : Path
  offset : ℕ

/-- `SegmentStore`. The write handle names the file it was opened on. -/
structure SegmentStore where
  segments : List Segment
  active : Option ℕ
  capacity : ℕ
  headerVersion : ℕ
  rotateBytes : ℕ
  recovered : Bool
  poison : Option Poison

/-- A store and the directory it works on. -/
structure Machine where
  store : SegmentStore
  dir : Dir

abbrev Op (α : Type) : Type := Act Machine Err α

/-- System calls, with their failure put to a path. -/
def sys {α : Type} (path : Path) (m : Sys α) : Op α :=
  (m.mapError fun _ => Err.io path).on Machine.dir fun d s => { s with dir := d }

def upd (f : SegmentStore → SegmentStore) : Op Unit :=
  Act.modify fun m => { m with store := f m.store }

/-- A file, read to its end. -/
def readFile (env : Env) (site : Site) (path : Path) : Op Bytes := fun m =>
  match env.reply site, m.dir.bytes path with
  | .ok, some content => (.ok content, m)
  | .die, _ => (.died, m)
  | _, _ => (.error (.io path), m)

def SegmentStore.last (s : SegmentStore) : Option Segment := s.segments.getLast?

/-- `next_version`. -/
def SegmentStore.nextVersion (s : SegmentStore) : ℕ := s.last.elim s.headerVersion Segment.last + 1

/-! ### The header -/

structure Header (V : Type) where
  version : ℕ
  view : V

/-- `serde_json` on the header of a view. -/
class HeaderSerde (V : Type) where
  toVec : Header V → Except String Bytes
  fromSlice : Bytes → Except String (Header V)

/-- What the store relies on in `serde_json`: a header is read back from its text,
and no beginning of a text is a text. -/
class LawfulHeaderSerde (V : Type) [HeaderSerde V] : Prop where
  fromSlice_toVec {h : Header V} {json : Bytes} :
    HeaderSerde.toVec h = .ok json → HeaderSerde.fromSlice json = .ok h
  fromSlice_take {h : Header V} {json : Bytes} {n : ℕ} : HeaderSerde.toVec h = .ok json →
    n < json.length → ∃ e, (HeaderSerde.fromSlice (json.take n) : Except String (Header V)) = .error e

variable [Crc32] {V : Type} [Versioned V] [HeaderSerde V]

/-- `read_header`, of a file with these bytes. -/
def parseHeader (bytes : Bytes) : Except Err (Header V) :=
  if bytes.length < 16 then .error (.shortHeader bytes.length)
  else if bytes.take 8 ≠ hdrMagic then .error (.notAHeader .header)
  else
    let crc := ofLe ((bytes.drop 8).take 4)
    let len := ofLe ((bytes.drop 12).take 4)
    if bytes.length < 16 + len then .error (.shortHeader bytes.length)
    else
      let json := (bytes.drop 16).take len
      let computed := (Crc32.hash json).toNat
      if computed ≠ crc then .error (.headerChecksum crc computed len)
      else
        match HeaderSerde.fromSlice json with
        | .error e => .error (.json e)
        | .ok (header : Header V) =>
            if header.version ≠ Versioned.version header.view then
              .error (.headerDisagrees header.version (Versioned.version header.view))
            else .ok header

/-- `read_header`. -/
def readHeader (V : Type) [Versioned V] [HeaderSerde V] (env : Env) : Op (Option (Header V)) :=
  fun m =>
    match env.reply .readHeader, m.dir.header with
    | .die, _ => (.died, m)
    | .fail, _ => (.error (.io .header), m)
    | .ok, none => (.ok none, m)
    | .ok, some bytes => Act.lift ((parseHeader bytes).map some) m

/-! ### Recovery -/

/-- `list_segments`. -/
def listSegments (env : Env) : Op Unit := do
  sys .dir (call env .listDir id)
  Act.modify fun m =>
    { m with store := { m.store with
        segments := m.dir.segments.map fun file => Segment.mk file.1 0 (file.1 - 1) } }

/-- `truncate`. -/
def truncate (env : Env) (first len : ℕ) : Op Unit := do
  sys (.segment first) (call env (.cutOpen first) (Dir.touch (.segment first)))
  sys (.segment first) (call env (.cutLen first) (Dir.edit (.segment first) (setLen len)))
  sys (.segment first) (call env (.cutSync first) id)

/-- What recovery does with a record: it must be the one that is due, and one
above the header goes into the tail. -/
def visitRecord (headerVersion : ℕ) (collect : Bool) (first : ℕ)
    (acc : Option ℕ × List Record) (r : Record) : Except Err (Option ℕ × List Record) :=
  let tail := if collect && decide (headerVersion < r.version) then acc.2 ++ [r] else acc.2
  match acc.1 with
  | some e =>
      if r.version ≠ e then .error (.gap (.segment first) e r.version)
      else .ok (some (r.version + 1), tail)
  | none =>
      if r.version ≠ first then .error (.misnamed (.segment first) first r.version)
      else .ok (some (r.version + 1), tail)

/-- The version before the one that is due. -/
def lastVersion (first : ℕ) (expect : Option ℕ) : ℕ := expect.elim (first - 1) fun e => e - 1

/-- The loop of `recover`, from the segment at `index` on. -/
def settle (env : Env) (headerVersion : ℕ) (collect : Bool) :
    ℕ → List Segment → Option ℕ × List Record → Op (Option ℕ × List Record)
  | _, [], acc => pure acc
  | index, segment :: rest, acc => do
      let bytes ← readFile env (.scan segment.first) segment.path
      let (acc, scanned) ← Act.lift (scan segment.path bytes
        (fun b r => (visitRecord headerVersion collect segment.first b r).map (·, false)) acc)
      if scanned.torn ∧ rest ≠ [] then Act.throw (.tornMidLog segment.path)
      else do
        if scanned.stop < scanned.fileLen then truncate env segment.first scanned.stop
        else pure ()
        upd fun s => { s with
          segments := s.segments.set index
            ⟨segment.first, scanned.stop, lastVersion segment.first acc.1⟩ }
        settle env headerVersion collect (index + 1) rest acc

/-- The end of `recover`: the last segment is opened and sized. -/
def openLast (env : Env) (headerVersion : ℕ) : Op Unit := do
  let m ← Act.get
  match m.store.last with
  | none => pure ()
  | some segment =>
      if segment.last < headerVersion then Act.throw (.headerAhead headerVersion segment.last)
      else do
        sys segment.path (call env .openLast (Dir.touch segment.path))
        upd fun s => { s with capacity := max segment.stop s.rotateBytes }
        sys segment.path
          (preallocate env .reserveLast segment.path (max segment.stop m.store.rotateBytes))
        upd fun s => { s with active := some segment.first }

/-- `recover`. -/
def recover (env : Env) (collect : Bool) : Op (List Record) := do
  let m ← Act.get
  let headerVersion := m.store.headerVersion
  let (_, tail) ← settle env headerVersion collect 0 m.store.segments (none, [])
  openLast env headerVersion
  match tail.head? with
  | some first =>
      if first.version ≠ headerVersion + 1 then
        Act.throw (.gap .header (headerVersion + 1) first.version)
      else pure ()
  | none => pure ()
  upd fun s => { s with recovered := true, poison := none }
  pure tail

/-- `ensure_recovered`. -/
def ensureRecovered (env : Env) : Op Unit := do
  let m ← Act.get
  if m.store.recovered then pure ()
  else do
    let _ ← recover env false
    pure ()

/-- `open_with`. -/
def openWith (V : Type) [Versioned V] [HeaderSerde V] (env : Env) (rotateBytes : ℕ) :
    Op Unit := do
  sys .dir (call env .makeDir id)
  sys .dir (call env .openDir id)
  sys .dir (call env .lockDir id)
  if env.locked then Act.throw .locked
  else do
    upd fun _ => ⟨[], none, 0, 0, max rotateBytes (segPrologue + recPrefix), false, none⟩
    listSegments env
    let header ← readHeader V env
    upd fun s => { s with headerVersion := header.elim 0 Header.version }

/-- `load`. -/
def load (V : Type) [Versioned V] [HeaderSerde V] (env : Env) : Op (Recovered V) := do
  upd fun s => { s with active := none }
  listSegments env
  let header ← readHeader V env
  upd fun s => { s with headerVersion := header.elim 0 Header.version }
  let tail ← recover env true
  pure ⟨header.map Header.view, tail⟩

/-! ### Appending -/

/-- The first part of `rotate`: the active segment is closed at its true length. -/
def closeActive (env : Env) : Op Unit := do
  let m ← Act.get
  upd fun s => { s with active := none }
  match m.store.active, m.store.last with
  | some file, some segment => do
      sys segment.path (call env .closeLen (Dir.edit (.segment file) (setLen segment.stop)))
      sys segment.path (call env .closeSync id)
  | _, _ => pure ()

/-- `rotate`. -/
def rotate (env : Env) (first : ℕ) : Op Unit := do
  closeActive env
  let m ← Act.get
  let path := Path.segment first
  sys path (call env .create (Dir.touch path))
  sys path (preallocate env .reserve path m.store.rotateBytes)
  sys path (pwritevAll env .stamp path [segmentPrologue] 0)
  sys path (call env .stampSync id)
  sys .dir (call env .stampDirSync id)
  upd fun s => { s with
    segments := s.segments ++ [⟨first, segmentPrologue.length, first - 1⟩]
    capacity := s.rotateBytes
    active := some first }

/-- The checks of `append`, record after record. -/
def validate : ℕ → List Record → Except Err Unit
  | _, [] => .ok ()
  | expected, r :: records =>
      if r.version ≠ expected then .error (.outOfOrder expected r.version)
      else if r.patch.isEmpty then .error (.empty r.version)
      else if maxPayload < r.patch.length then
        .error (.oversized r.version r.patch.length maxPayload)
      else if versionMax < expected + 1 then .error (.exhausted r.version)
      else validate (expected + 1) records

/-- `u64::next_multiple_of`. -/
def nextMultipleOf (n k : ℕ) : ℕ := if n % k = 0 then n else n + (k - n % k)

def batchBufs (records : List Record) : List Bytes :=
  records.flatMap fun r => [recordPrefix r.version r.patch, r.patch]

def batchTotal (records : List Record) : ℕ :=
  (records.map fun r => recPrefix + r.patch.length).sum

/-- The segment being written must hold `stop + total` bytes. -/
def grow (env : Env) (segment : Segment) (file total : ℕ) : Op Unit := do
  let m ← Act.get
  if m.store.capacity < segment.stop + total then do
    let want := nextMultipleOf (segment.stop + total) m.store.rotateBytes
    sys segment.path (preallocate env .grow (.segment file) want)
    upd fun s => { s with capacity := want }
  else pure ()

/-- What `append` does where its write failed: what landed is zeroed, and a store
that cannot do so is poisoned. -/
def cleanUp (env : Env) (segment : Segment) (file total : ℕ) (failure : Err) : Op Unit := do
  let cleaned ← (sys segment.path (do
    zeroRange env (.segment file) segment.stop total
    call env .eraseSync id)).attempt
  match cleaned with
  | .ok _ => Act.throw failure
  | .error _ => do
      upd fun s => { s with poison := some ⟨segment.path, segment.stop⟩ }
      Act.throw (.cleanupFailed segment.path segment.stop)

/-- The last part of `append`: the batch goes into the last segment. Without a
segment or a handle the source panics. -/
def writeBatch (env : Env) (records : List Record) : Op Unit := do
  let m ← Act.get
  match m.store.last, m.store.active with
  | some segment, some file => do
      let total := batchTotal records
      grow env segment file total
      let wrote ← (sys segment.path
        (pwritevAll env .write (.segment file) (batchBufs records) segment.stop)).attempt
      match wrote with
      | .error failure => cleanUp env segment file total failure
      | .ok _ =>
          upd fun s => { s with segments := s.segments.dropLast ++
            [⟨segment.first, segment.stop + total,
              records.getLast?.elim segment.last Record.version⟩] }
  | _, _ => Act.die

/-- Whether an append must start a new segment. -/
def SegmentStore.rotating (s : SegmentStore) : Bool :=
  s.last.elim true (fun segment => decide (s.rotateBytes ≤ segment.stop)) || s.active.isNone

/-- `append`. -/
def append (env : Env) (records : List Record) : Op Unit := do
  if records.isEmpty then pure ()
  else do
    let m ← Act.get
    match m.store.poison with
    | some poison => Act.throw (.poisoned poison.path poison.offset)
    | none => do
        ensureRecovered env
        let m ← Act.get
        Act.lift (validate m.store.nextVersion records)
        if m.store.rotating then rotate env (records.head?.elim 0 Record.version)
        else pure ()
        writeBatch env records

/-! ### Checkpoints -/

/-- `sync`. -/
def sync (env : Env) : Op Unit := do
  let m ← Act.get
  match m.store.active, m.store.last with
  | some _, some segment => sys segment.path (call env .flush id)
  | _, _ => pure ()

/-- The loop of `reclaim`, on the segments of the store, with whether one was
removed. -/
def reclaimLoop (env : Env) (headerVersion : ℕ) : List Segment → Bool → Op Bool
  | segment :: next :: rest, removed =>
      if next.first ≤ headerVersion + 1 then do
        upd fun s => { s with segments := next :: rest }
        sys segment.path (call env (.unlink segment.first) (Dir.unlink segment.first))
        reclaimLoop env headerVersion (next :: rest) true
      else pure removed
  | _, removed => pure removed

/-- `reclaim`. -/
def reclaim (env : Env) : Op Unit := do
  let m ← Act.get
  let removed ← reclaimLoop env m.store.headerVersion m.store.segments false
  if removed then sys .dir (call env .reclaimSync id)
  else pure ()

/-- `write_header`. Its `write_all` resumes after a short write as `pwritev_all`
does. -/
def writeHeader (env : Env) (view : V) : Op Unit := do
  sync env
  let version := Versioned.version view
  let json ← Act.lift ((HeaderSerde.toVec (⟨version, view⟩ : Header V)).mapError Err.json)
  sys .headerTmp (call env .tmpCreate (Dir.put .headerTmp []))
  sys .headerTmp (pwritevAll env .tmpWrite .headerTmp [headerBytes json] 0)
  sys .headerTmp (call env .tmpSync id)
  sys .dir (call env .rename Dir.publish)
  sys .dir (call env .publishSync id)
  upd fun s => { s with headerVersion := version }
  reclaim env

/-! ### Reading -/

/-- `oldest`. -/
def SegmentStore.oldest (s : SegmentStore) : ℕ :=
  s.segments.head?.elim (min (s.headerVersion + 1) versionMax) Segment.first

/-- `segment_for`: the last segment that starts at or below `version`. -/
def SegmentStore.segmentFor (s : SegmentStore) (version : ℕ) : Option ℕ :=
  (s.segments.reverse.findIdx? fun segment => decide (segment.first ≤ version)).map
    fun index => s.segments.length - 1 - index

def collectRecord (start limit : ℕ) (out : List Record) (r : Record) :
    Except Err (List Record × Bool) :=
  let out := if start ≤ r.version then out ++ [r] else out
  .ok (out, decide (limit ≤ out.length))

/-- The loop of `read_after`. -/
def readSegments (env : Env) (start limit : ℕ) :
    List Segment → List Record → Op (List Record)
  | [], out => pure out
  | segment :: rest, out => do
      let bytes ← readFile env (.scan segment.first) segment.path
      let (out, _) ← Act.lift (scan segment.path bytes (collectRecord start limit) out)
      if limit ≤ out.length then pure out else readSegments env start limit rest out

/-- `read_after`. -/
def readAfter (env : Env) (after limit : ℕ) : Op (List Record) := do
  let m ← Act.get
  let start := min (after + 1) versionMax
  if start < m.store.oldest then Act.throw (.reclaimed start m.store.oldest)
  else if limit = 0 then pure []
  else
    match m.store.segmentFor start with
    | none => pure []
    | some index => readSegments env start limit (m.store.segments.drop index) []

/-! ### Rules for the programs above -/

section Rules

variable {env : Env} {site : Site} {path : Path} {m : Machine}

omit [Crc32] in
theorem ends_sys {α : Type} {p : Sys α} {Q : Exit Err α → Machine → Prop} :
    Ends (sys path p) Q m ↔
      Ends p (fun x d => Q (x.mapError fun _ => .io path) { m with dir := d }) m.dir :=
  Iff.rfl

omit [Crc32] in
theorem ends_sys_call {effect : Dir → Dir} {Q : Exit Err Unit → Machine → Prop}
    (ok : env.reply site = .ok → Q (.ok ()) { m with dir := effect m.dir })
    (fail : env.reply site = .fail → Q (.error (.io path)) m)
    (die : env.reply site = .die → Q .died m) : Ends (sys path (call env site effect)) Q m :=
  ends_sys.mpr (ends_call ok fail die)

omit [Crc32] in
@[simp] theorem ends_upd {f : SegmentStore → SegmentStore} {Q : Exit Err Unit → Machine → Prop} :
    Ends (upd f) Q m ↔ Q (.ok ()) { m with store := f m.store } := Iff.rfl

omit [Crc32] in
theorem ends_readFile {content : Bytes} {Q : Exit Err Bytes → Machine → Prop}
    (h : m.dir.bytes path = some content) (ok : Q (.ok content) m)
    (fail : ¬env.Calm → Q (.error (.io path)) m) (die : ¬env.Calm → Q .died m) :
    Ends (readFile env site path) Q m := by
  unfold Ends readFile
  rw [h]
  cases hreply : env.reply site with
  | ok => exact ok
  | fail => exact fail fun hcalm => by rw [hcalm.reply] at hreply; cases hreply
  | die => exact die fun hcalm => by rw [hcalm.reply] at hreply; cases hreply

omit [Crc32] in
/-- A call that fails or dies shows that not all was calm. -/
theorem not_calm_of_reply {reply : Reply} (h : env.reply site = reply) (hne : reply ≠ .ok) :
    ¬env.Calm := fun hcalm => hne (h.symm.trans (hcalm.reply site))

end Rules

end Lug.Wal
