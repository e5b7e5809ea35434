import Lug.Cavlc.History
import Lug.Client.View
import Lug.Server.Stream

/-!
`lug_client::follower`: a server-side log, rebuilt and kept live in a client. The task and
the server it follows take their steps in any order: the log grows, the stream task of the
subscription sends, the connection breaks, a view is read on another connection, and the
consumer of the events makes room or does not. Some handle of the follower is always held.
-/

namespace Lug.Client.Follower

open Cavlc Runs

/-- `Error`, with the failure of an error frame in one piece. -/
inductive Error
  | server (failure : Failure)
  | disconnected
  | connect
  | timeout
  | protocol (detail : String)
  | overrun
  | view (e : Cavlc.Error)
  | codec
  | io
  | http
  | closed

namespace Error

def isTransient : Error → Bool
  | .disconnected | .connect | .timeout => true
  | .server failure => failure.code ∈ [.storage, .internal, .backpressure]
  | _ => false

/-- Whether an error means stop rather than try again. -/
def fatal : Error → Bool
  | .server failure => failure.code ∈ [.noSuchLog, .unauthorized, .malformed, .rejected]
  | .view _ | .closed => true
  | _ => false

end Error

inductive Status
  | live
  | reconnecting
  | ended
  | failed (e : Error)

structure State where
  snapshot : Option Snapshot
  version : ℕ
  reducible : Bool
  status : Status

/-- `lug_proto::Event`. -/
inductive Event
  | record (r : Pushed)
  | gap (from_ to_ : ℕ)

def Event.cursor : Event → ℕ
  | .record r => r.version
  | .gap _ to_ => to_

/-- Where the task stands between two things another party can see. -/
inductive Phase
  /-- About to subscribe. -/
  | idle
  /-- Waiting for a frame. -/
  | waiting
  | folding (records : List Pushed)
  /-- It asked for the view when the log stood at `asked`. -/
  | reading (from_ to_ asked : ℕ)
  /-- It waits for room to announce a gap; behind it stands the view to adopt, if there is
  one. -/
  | announcing (from_ to_ : ℕ) (view : Option Snapshot)
  | stopped

/-- `Task`, with every state it gave to its watches and every event its channel took. -/
structure Task where
  cursor : ℕ
  store : Option Store
  mode : Mode
  dropped : Option (ℕ × ℕ)
  published : List State
  events : List Event
  phase : Phase

namespace Task

def start : Task where
  cursor := 0
  store := none
  mode := .reducible
  dropped := none
  published := [⟨none, 0, true, .reconnecting⟩]
  events := []
  phase := .idle

def publish (t : Task) (status : Status) : Task :=
  { t with published := t.published ++
      [⟨t.store.map Store.snapshot, t.cursor, t.mode = .reducible, status⟩] }

/-- What `run` does with an error of `session`. -/
def fail (t : Task) (e : Error) : Task :=
  if e.fatal then { t.publish (.failed e) with phase := .stopped }
  else { t.publish .reconnecting with phase := .idle }

/-- `Step::Restart`. -/
def restart (t : Task) : Task := { t with phase := .idle }

/-- `Step::Ended`. -/
def finish (t : Task) : Task := { t.publish .ended with phase := .stopped }

def adopt (t : Task) (snapshot : Snapshot) : Task :=
  { t with cursor := snapshot.version, store := some (.resume 0 snapshot) }.publish .live

/-- `emit`, of a gap, up to the point where it waits for room. -/
def announce (t : Task) (from_ to_ : ℕ) (view : Option Snapshot) : Task :=
  { t with
    dropped := none
    phase := .announcing (t.dropped.elim from_ fun lost => min lost.1 from_) to_ view }

/-- `try_send`, behind what was dropped before it. -/
def trySend (t : Task) (event : Event) (room : Bool) : Task :=
  if room then { t with events := t.events ++ [event] }
  else
    { t with dropped := some ((t.dropped.map Prod.fst).getD (event.cursor - 1), event.cursor) }

/-- `emit`, of a record. Whether the channel has room is up to its consumer, each time. -/
def emit (t : Task) (record : Pushed) (room room' : Bool) : Task :=
  match t.dropped with
  | some (from_, to_) =>
      if room then
        { t with events := t.events ++ [Event.gap from_ to_], dropped := none }.trySend
          (.record record) room'
      else { t with dropped := some (from_, record.version) }
  | none => t.trySend (.record record) room'

/-- `recover`, up to the point where it has asked for the view. -/
def recover (t : Task) (from_ to_ version : ℕ) : Task :=
  if t.mode = .records then { t with cursor := to_ }.announce from_ to_ none
  else { t with phase := .reading from_ to_ version }

/-- The view that `recover` asked for. -/
def answered (t : Task) (from_ to_ version : ℕ) (value : Json) : Task :=
  match (View.unwrapFrame version value).snapshot with
  | .error e => t.fail (.view e)
  | .ok snapshot =>
      if snapshot.version < to_ then t.restart
      else t.announce from_ snapshot.version (some snapshot)

/-- There was no view to be had. -/
def unanswered (t : Task) (e : Error) : Task := if e.isTransient then t.restart else t.fail e

/-- There is room for the gap. -/
def announced (t : Task) (from_ to_ : ℕ) (view : Option Snapshot) : Task :=
  let t := { t with events := t.events ++ [Event.gap from_ to_] }
  match view with
  | some snapshot => { t.adopt snapshot with phase := .waiting }
  | none => { t.publish .live with phase := .waiting }

variable [TextCodec]

/-- One round of the loop of `fold`; `version` is where the log stands. -/
def fold (t : Task) (version : ℕ) (room room' : Bool) : List Pushed → Task
  | [] => { t.publish .live with phase := .waiting }
  | record :: records =>
      if record.version ≤ t.cursor then { t with phase := .folding records }
      else if record.version ≠ t.cursor + 1 then
        t.recover t.cursor (record.version - 1) version
      else
        match t.store with
        | none =>
            { { t with cursor := record.version }.emit record room room' with
              phase := .folding records }
        | some store =>
            match OrderedPatch.ofJson record.patch with
            | .error e =>
                t.fail (.protocol
                  ("version " ++ toString record.version ++ " is not a patch: " ++ e))
            | .ok patch =>
                match store.apply patch with
                | (.error e, store) => { t with store := some store }.fail (.view e)
                | (.ok applied, store) =>
                    let t := { t with store := some store }
                    if applied.snapshot.version ≠ record.version then
                      t.fail (.protocol
                        ("folded to version " ++ toString applied.snapshot.version ++
                          " but the record says " ++ toString record.version))
                    else
                      { { t with cursor := record.version }.emit record room room' with
                        phase := .folding records }

omit [TextCodec] in
/-- What `session` does with a frame; `version` is where the log stands. -/
def receive (t : Task) (version : ℕ) : Frame → Task
  | .error failure =>
      if failure.code = .notReducible ∧ t.mode = .reducible then
        { t with mode := .records }.restart
      else if failure.code = .outOfRange then { t with cursor := 0, store := none }.restart
      else t.fail (.server failure)
  | .view version value =>
      match snapshotFrom version value with
      | .error e => t.fail (.view e)
      | .ok snapshot =>
          if t.store.isSome ∧ t.cursor < snapshot.version then
            t.announce t.cursor snapshot.version (some snapshot)
          else { t.adopt snapshot with phase := .waiting }
  | .records records => { t with phase := .folding records }
  | .gap from_ to_ => t.recover from_ to_ version

end Task

/-! ### The server -/

/-- A view of this document at this version is read as what it is, both where it is the first
frame of a stream and where it is asked for. -/
def Decodes (version : ℕ) (document : Json) : Prop :=
  (∃ s, snapshotFrom version document = .ok s ∧ s.version = version ∧
      s.root.toJson = document) ∧
    ∃ s, (View.unwrapFrame version document).snapshot = .ok s ∧ s.version = version ∧
      s.root.toJson = document

theorem decodes_bare (version : ℕ) {fields : List (String × Json)}
    (hj : (Json.object fields).Canonical) (hbare : Bare (.object fields)) :
    Decodes version (.object fields) := by
  have hread := snapshotFrom_bare version hj hbare
  have hroot := Value.toJson_ofJson hj
  refine ⟨⟨_, hread, rfl, hroot⟩, ⟨version, Value.ofJson (.object fields)⟩, ?_, rfl, hroot⟩
  rw [View.unwrapFrame, hread]
  show newSnapshot version (Value.ofJson (Value.ofJson (.object fields)).toJson) = _
  rw [hroot]
  exact newSnapshot_object version hj

/-- The patch leads from one document to the next. -/
def Leads [TextCodec] (patch document next : Json) : Prop :=
  ∃ q, OrderedPatch.ofJson patch = .ok q ∧ q.toJson.edit document = .ok (some next)

/-- A log: its patches, and, if it keeps a view, the document at each of its versions. -/
structure History [TextCodec] where
  reducible : Bool
  patches : List Json
  documents : List Json
  counted : documents.length = patches.length + 1
  decodes : reducible = true → ∀ v d, documents[v]? = some d → Decodes v d
  leads : reducible = true → ∀ v p d next, patches[v]? = some p → documents[v]? = some d →
    documents[v + 1]? = some next → Leads p d next

namespace History

variable [TextCodec]

def version (h : History) : ℕ := h.patches.length

/-- The log has grown, if it changed at all. -/
structure Grows (h h' : History) : Prop where
  reducible : h'.reducible = h.reducible
  patches : h.patches <+: h'.patches
  documents : h.documents <+: h'.documents

end History

/-- The stream task of a subscription, and the frames that are on their way. -/
structure Conn where
  cursor : ℕ
  /-- The view of the preamble is still to come. -/
  opening : Bool
  ended : Bool
  inFlight : List Frame

def Conn.open (from_ : ℕ) (mode : Mode) : Conn := ⟨from_, mode = .reducible, false, []⟩

/-- What the stream task sends next: the view first, then the records behind its cursor, or
that they are gone. Nothing a subscription from a version of the log asks for is out of
range. -/
inductive Conn.Sends [TextCodec] (h : History) : Conn → Conn → Prop
  | view {c : Conn} {d : Json} (opening : c.opening = true) (going : c.ended = false)
      (reducible : h.reducible = true) (current : h.documents[h.version]? = some d) :
      Sends h c { c with
        cursor := max c.cursor h.version
        opening := false
        inFlight := c.inFlight ++ [.view h.version d] }
  | records {c : Conn} {rs : List Pushed} (opened : c.opening = false) (going : c.ended = false)
      (nonempty : rs ≠ []) (run : Consecutive Pushed.version (c.cursor + 1) rs)
      (committed : ∀ r ∈ rs, h.patches[r.version - 1]? = some r.patch) :
      Sends h c { c with
        cursor := c.cursor + rs.length
        inFlight := c.inFlight ++ [.records rs] }
  | gap {c : Conn} {to_ : ℕ} (opened : c.opening = false) (going : c.ended = false)
      (above : c.cursor < to_) (reached : to_ ≤ h.version) :
      Sends h c { c with cursor := to_, inFlight := c.inFlight ++ [.gap c.cursor to_] }
  | error {c : Conn} {failure : Failure} (going : c.ended = false)
      (range : failure.code ≠ .outOfRange)
      (reducible : failure.code = .notReducible → h.reducible = false) :
      Sends h c { c with ended := true, inFlight := c.inFlight ++ [.error failure] }

/-! ### All of it -/

structure World [TextCodec] where
  history : History
  conn : Conn
  task : Task

namespace World

variable [TextCodec]

/-- One step of any party. -/
inductive Step : World → World → Prop
  | grow {w : World} {h : History} (grows : w.history.Grows h) : Step w { w with history := h }
  | send {w : World} {c : Conn} (sends : w.conn.Sends w.history c) : Step w { w with conn := c }
  | subscribe {w : World} (idle : w.task.phase = .idle) :
      Step w { w with
        conn := .open w.task.cursor w.task.mode
        task := { w.task with phase := .waiting } }
  /-- There is no connection, or the one there was broke. -/
  | breaks {w : World} (e : Error) (h : w.task.phase = .idle ∨ w.task.phase = .waiting)
      (broken : ∀ failure, e ≠ .server failure) : Step w { w with task := w.task.fail e }
  | ends {w : World} (waiting : w.task.phase = .waiting) : Step w { w with task := w.task.finish }
  | receive {w : World} {frame : Frame} {inFlight : List Frame}
      (waiting : w.task.phase = .waiting) (next : w.conn.inFlight = frame :: inFlight) :
      Step w { w with
        conn := { w.conn with inFlight }
        task := w.task.receive w.history.version frame }
  | fold {w : World} {records : List Pushed} (room room' : Bool)
      (folding : w.task.phase = .folding records) :
      Step w { w with task := w.task.fold w.history.version room room' records }
  | answer {w : World} {from_ to_ asked version : ℕ} {d : Json}
      (reading : w.task.phase = .reading from_ to_ asked)
      (reducible : w.history.reducible = true) (since : asked ≤ version)
      (current : w.history.documents[version]? = some d) :
      Step w { w with task := w.task.answered from_ to_ version d }
  | refuse {w : World} {from_ to_ asked : ℕ} (e : Error)
      (reading : w.task.phase = .reading from_ to_ asked) :
      Step w { w with task := w.task.unanswered e }
  | announce {w : World} {from_ to_ : ℕ} {view : Option Snapshot}
      (announcing : w.task.phase = .announcing from_ to_ view) :
      Step w { w with task := w.task.announced from_ to_ view }

/-- A follower that was just started. -/
def start (h : History) (c : Conn) : World := ⟨h, c, .start⟩

end World

end Lug.Client.Follower
