import Lug.Lib.Table
import Lug.Ts.Client
import Lug.Ts.FrameDecoder

/-!
`UnixTransport` of `unix.ts`, as the event loop runs it: calls that wait for the response
under their id, streams that are pushed theirs, frames that are written one at a time, and
the timers and microtasks that settle what is left. What goes in and comes out is kept
beside the state, in the order in which it does.
-/

namespace Lug.Ts

open Proto (putU32 maxFrame)

/-- What promises are rejected with, and inboxes fail with. -/
inductive Fault
  | connection (message : String)
  | protocol (message : String)
  | timeout (message : String) (timeoutMs : Double)
  | frame (message : String)
  deriving DecidableEq, Repr

def Fault.message : Fault → String
  | connection message | protocol message | timeout message _ | frame message => message

/-- What the language brings along. -/
structure Runtime where
  /-- `JSON.stringify`, as UTF-8. -/
  stringify : Json → Bytes
  /-- A fatal `TextDecoder`, and `JSON.parse`. -/
  parse : Bytes → Except String Json
  /-- A number as text. -/
  written : Double → String

/-! ### Responses -/

/-- `response.t`, of a response that is one. -/
def tagOf : Json → String
  | .object fields =>
      match fields.lookup "t" with
      | some (.string tag) => tag
      | _ => ""
  | _ => ""

/-- An integer that stands under a name. -/
def integerOf (key : String) : Json → Option ℤ
  | .object fields =>
      match fields.lookup key with
      | some (.number n) => integer n
      | _ => none
  | _ => none

/-- `response.id`. -/
def idOf (response : Json) : ℕ := ((integerOf "id" response).getD 0).toNat

/-- The frame that ends a stream. -/
def isLast (response : Json) : Bool := tagOf response = "end" || tagOf response = "error"

/-! ### The transport -/

structure PendingCall where
  call : ℕ
  timeoutMs : Double

/-- Who awaits that a frame is written. -/
inductive Sender
  | call (id : ℕ)
  | operation (op : ℕ)
  deriving DecidableEq

structure WriteJob where
  frame : Bytes
  sender : Sender

inductive Steer
  | start (stream : ℕ)
  | grant
  | cancel

/-- A method of a stream's driver that awaits its `#sendWithin`. -/
structure Operation where
  op : ℕ
  steer : Steer
  id : ℕ
  timeoutMs : Double

def Operation.name (o : Operation) : String :=
  match o.steer with
  | .start _ => "subscribe " ++ toString o.id
  | .grant => "credit " ++ toString o.id
  | .cancel => "cancel " ++ toString o.id

/-- A microtask. -/
inductive Microtask
  /-- The `catch` behind the `#send` of a call. -/
  | caught (id : ℕ) (error : Fault)
  /-- What follows the race of an operation. -/
  | raced (o : Operation) (result : Except Fault Unit)

/-- What the transport's callers get to see. Calls, streams and operations are known by the
number they were made under. -/
inductive Report
  | call (call : ℕ) (result : Except Fault Json)
  | inbox (stream : ℕ) (result : Except Fault Json)
  | operation (op : ℕ) (result : Except Fault Unit)

structure UnixTransport where
  decoder : FrameDecoder
  /-- A call that is pending has its timer running. -/
  pending : Table ℕ PendingCall
  streams : Table ℕ ℕ
  writes : List WriteJob
  /-- The frame that the socket has not called back for. -/
  writing : Option WriteJob
  dead : Option Fault
  maxFrame : ℕ
  destroyed : Bool
  /-- The operations whose race is open, each with its timer running. -/
  racing : Table ℕ Operation
  microtasks : List Microtask
  /-- The ids of the calls, and of the streams that were started. -/
  calls : List ℕ
  started : List ℕ
  operations : ℕ
  /-- The requests that were queued, and the frames that the socket was given of them. -/
  queued : List Request
  written : List Bytes
  /-- What was received before the transport died. -/
  received : Bytes
  reports : List Report

namespace UnixTransport

/-- A transport whose socket is connected. -/
def new : UnixTransport where
  decoder := .new
  pending := .empty
  streams := .empty
  writes := []
  writing := none
  dead := none
  maxFrame := Proto.maxFrame
  destroyed := false
  racing := .empty
  microtasks := []
  calls := []
  started := []
  operations := 0
  queued := []
  written := []
  received := []
  reports := []

/-- An operation's race is decided, which stops its timer. A race that is over is not decided
again. -/
def settle (t : UnixTransport) (op : ℕ) (result : Except Fault Unit) : UnixTransport :=
  match t.racing.get? op with
  | none => t
  | some o => { t with
      racing := t.racing.erase op
      microtasks := t.microtasks ++ [.raced o result] }

/-- `job.reject`. -/
def rejectJob (error : Fault) (t : UnixTransport) (job : WriteJob) : UnixTransport :=
  match job.sender with
  | .call id => { t with microtasks := t.microtasks ++ [.caught id error] }
  | .operation op => t.settle op (.error error)

/-- `job.resolve`, on which no call waits. -/
def resolveJob (t : UnixTransport) (job : WriteJob) : UnixTransport :=
  match job.sender with
  | .call _ => t
  | .operation op => t.settle op (.ok ())

/-- What a transport is dead of. -/
def deathOf : Fault → Fault
  | .connection message => .connection message
  | error => .connection error.message

/-- `#fail`. -/
def fail (t : UnixTransport) (error : Fault) : UnixTransport :=
  match t.dead with
  | some _ => t
  | none =>
      let dead := deathOf error
      t.writes.foldl (rejectJob dead) { t with
        dead := some dead
        pending := .empty
        streams := .empty
        writes := []
        reports := t.reports ++ t.pending.values.map (fun p => .call p.call (.error dead)) ++
          t.streams.values.map fun stream => .inbox stream (.error dead) }

/-- `#pumpWrites`. -/
def pumpWrites (t : UnixTransport) : UnixTransport :=
  if t.writing.isSome || t.dead.isSome then t
  else match t.writes with
    | [] => t
    | job :: writes => { t with writes, writing := some job, written := t.written ++ [job.frame] }

end UnixTransport

/-- `encodeFrame`. -/
def encodeFrame (js : Runtime) (request : Request) (limit : ℕ) : Except Fault Bytes :=
  let body := js.stringify request.json
  if limit < body.length then
    .error (.frame ("frame of " ++ toString body.length ++ " bytes exceeds the " ++
      toString limit ++ " byte limit"))
  else .ok (putU32 body.length ++ body)

/-- `LugTimeoutError`. -/
def timedOut (js : Runtime) (operation : String) (timeoutMs : Double) : Fault :=
  .timeout (operation ++ " timed out after " ++ js.written timeoutMs ++ "ms") timeoutMs

namespace UnixTransport

variable (js : Runtime)

/-- `#send`. -/
def send (t : UnixTransport) (sender : Sender) (request : Request) :
    Except Fault UnixTransport :=
  match t.dead with
  | some dead => .error dead
  | none =>
      match encodeFrame js request t.maxFrame with
      | .error error => .error error
      | .ok frame => .ok (pumpWrites { t with
          writes := t.writes ++ [⟨frame, sender⟩]
          queued := t.queued ++ [request] })

/-- `call`. -/
def call (t : UnixTransport) (request : Request) (timeoutMs : Double) : UnixTransport :=
  let call := t.calls.length
  let t := { t with calls := t.calls ++ [request.id] }
  match t.dead with
  | some dead => { t with reports := t.reports ++ [.call call (.error dead)] }
  | none =>
      if t.pending.has request.id || t.streams.has request.id then
        { t with reports := t.reports ++ [.call call (.error (.protocol
          ("id " ++ toString request.id ++ " is already in flight")))] }
      else
        let t := { t with pending := t.pending.set request.id ⟨call, timeoutMs⟩ }
        match t.send js (.call request.id) request with
        | .ok t => t
        | .error error => { t with microtasks := t.microtasks ++ [.caught request.id error] }

/-- `#sendWithin`, for a method of a driver. -/
def sendWithin (t : UnixTransport) (steer : Steer) (request : Request) (timeoutMs : Double) :
    UnixTransport :=
  let o : Operation := ⟨t.operations, steer, request.id, timeoutMs⟩
  let t := { t with operations := t.operations + 1 }
  match t.send js (.operation o.op) request with
  | .ok t => { t with racing := t.racing.set o.op o }
  | .error error => { t with microtasks := t.microtasks ++ [.raced o (.error error)] }

/-- `start`. -/
def start (t : UnixTransport) (id : ℕ) (log : String) (from_ : ℕ) (mode : Mode)
    (timeoutMs : Double) : UnixTransport :=
  match t.dead with
  | some dead => { t with
      operations := t.operations + 1
      reports := t.reports ++ [.operation t.operations (.error dead)] }
  | none =>
      let stream := t.started.length
      let t := { t with started := t.started ++ [id], streams := t.streams.set id stream }
      t.sendWithin js (.start stream) (.subscribe id log from_ mode 0) timeoutMs

/-- `grant`. -/
def grant (t : UnixTransport) (id : ℕ) (timeoutMs : Double) : UnixTransport :=
  t.sendWithin js .grant (.credit id 1) timeoutMs

/-- `cancel`. -/
def cancel (t : UnixTransport) (id : ℕ) (timeoutMs : Double) : UnixTransport :=
  let t := { t with streams := t.streams.erase id }
  match t.dead with
  | some _ => { t with
      operations := t.operations + 1
      reports := t.reports ++ [.operation t.operations (.ok ())] }
  | none => t.sendWithin js .cancel (.cancel id) timeoutMs

/-- The loop of `#receive`. -/
def dispatch (t : UnixTransport) : List Json → UnixTransport
  | [] => t
  | response :: responses =>
      if !isResponse response then
        { t with destroyed := true }.fail
          (.protocol "unix server sent a response without a valid id or tag")
      else
        let id := idOf response
        match t.streams.get? id with
        | some stream =>
            if tagOf response = "ok" then t.dispatch responses
            else
              let t := { t with
                reports := t.reports ++ [Report.inbox stream (.ok response)]
                streams := if isLast response then t.streams.erase id else t.streams }
              dispatch t responses
        | none =>
            match t.pending.get? id with
            | some p =>
                let t := { t with
                  pending := t.pending.erase id
                  reports := t.reports ++ [Report.call p.call (.ok response)] }
                dispatch t responses
            | none => t.dispatch responses

/-- `#receive`. -/
def receive (t : UnixTransport) (chunk : Bytes) : UnixTransport :=
  match t.dead with
  | some _ => t
  | none =>
      let t := { t with received := t.received ++ chunk }
      match t.decoder.push js.parse chunk with
      | (.error _, decoder) =>
          { t with decoder, destroyed := true }.fail (.protocol "invalid frame from unix server")
      | (.ok responses, decoder) => { t with decoder }.dispatch responses

/-- The socket calls back for the frame it was given. -/
def wrote (t : UnixTransport) (job : WriteJob) (error : Option String) : UnixTransport :=
  let t := { t with writing := none }
  match error with
  | some message =>
      let failure := .connection ("unix write failed: " ++ message)
      ((rejectJob failure t job).fail failure).pumpWrites
  | none => (t.resolveJob job).pumpWrites

/-- The timer of a call that is pending. -/
def callTimer (t : UnixTransport) (id : ℕ) (p : PendingCall) : UnixTransport := { t with
  pending := t.pending.erase id
  reports := t.reports ++
    [.call p.call (.error (timedOut js ("request " ++ toString id) p.timeoutMs))] }

/-- The timer of an operation that races. -/
def operationTimer (t : UnixTransport) (o : Operation) : UnixTransport :=
  let error := timedOut js o.name o.timeoutMs
  ({ t with destroyed := true }.fail (.connection error.message)).settle o.op (.error error)

/-- What a microtask does. -/
def runMicrotask (t : UnixTransport) : Microtask → UnixTransport
  | .caught id error =>
      match t.pending.get? id with
      | none => t
      | some p => { t with
          pending := t.pending.erase id
          reports := t.reports ++ [.call p.call (.error error)] }
  | .raced o result =>
      match o.steer, result with
      | .start stream, .error error => { t with
          streams := t.streams.erase o.id
          reports := t.reports ++ [.inbox stream (.error error), .operation o.op (.error error)] }
      | _, result => { t with reports := t.reports ++ [.operation o.op result] }

/-- `close`. -/
def close (t : UnixTransport) : UnixTransport :=
  { t.fail (.connection "unix client closed") with destroyed := true }

/-- What `connect` makes of the answer to its `hello`. -/
def welcomed (t : UnixTransport) (welcome : Json) : Except Fault Unit × UnixTransport :=
  if tagOf welcome ≠ "welcome" ∨ integerOf "version" welcome ≠ some 1 then
    (.error (.protocol ("expected protocol welcome version 1, received " ++ tagOf welcome)),
      t.close)
  else
    match integerOf "max_frame" welcome with
    | none => (.error (.protocol "invalid server max_frame undefined"), t.close)
    | some n =>
        if 0 < n ∧ n < (2 ^ 32 : ℕ) then
          (.ok (), { t with maxFrame := min n.toNat Proto.maxFrame })
        else (.error (.protocol ("invalid server max_frame " ++ toString n)), t.close)

end UnixTransport

/-- What the event loop, or a caller, does next. -/
inductive Move
  | call (request : Request) (timeoutMs : Double)
  | start (id : ℕ) (log : String) (from_ : ℕ) (mode : Mode) (timeoutMs : Double)
  | grant (id : ℕ) (timeoutMs : Double)
  | cancel (id : ℕ) (timeoutMs : Double)
  | close
  | welcomed (welcome : Json)
  | microtask
  | data (chunk : Bytes)
  | error (message : String)
  | hangup
  | wrote (error : Option String)
  | callTimer (id : ℕ)
  | operationTimer (op : ℕ)

namespace UnixTransport

variable (js : Runtime)

/-- One event, where it can come. Events of the loop come behind the microtasks. -/
inductive Step (t : UnixTransport) : Move → UnixTransport → Prop
  | call (request timeoutMs) : Step t (.call request timeoutMs) (t.call js request timeoutMs)
  | start (id log from_ mode timeoutMs) :
      Step t (.start id log from_ mode timeoutMs) (t.start js id log from_ mode timeoutMs)
  | grant (id timeoutMs) : Step t (.grant id timeoutMs) (t.grant js id timeoutMs)
  | cancel (id timeoutMs) : Step t (.cancel id timeoutMs) (t.cancel js id timeoutMs)
  | close : Step t .close t.close
  | welcomed (welcome) : Step t (.welcomed welcome) (t.welcomed welcome).2
  | microtask {task rest} (h : t.microtasks = task :: rest) :
      Step t .microtask ({ t with microtasks := rest }.runMicrotask task)
  | data (idle : t.microtasks = []) (chunk) : Step t (.data chunk) (t.receive js chunk)
  | error (idle : t.microtasks = []) (message) :
      Step t (.error message) (t.fail (.connection ("unix socket failed: " ++ message)))
  | hangup (idle : t.microtasks = []) : Step t .hangup (t.fail (.connection "unix socket closed"))
  | wrote (idle : t.microtasks = []) {job} (h : t.writing = some job) (error) :
      Step t (.wrote error) (t.wrote job error)
  | callTimer (idle : t.microtasks = []) {id p} (h : t.pending.get? id = some p) :
      Step t (.callTimer id) (t.callTimer js id p)
  | operationTimer (idle : t.microtasks = []) {op o} (h : t.racing.get? op = some o) :
      Step t (.operationTimer op) (t.operationTimer js o)

/-- The states of a transport, from its connection on. -/
inductive Reaches : UnixTransport → Prop
  | new : Reaches new
  | step {t t' : UnixTransport} {move : Move} : Reaches t → Step js t move t' → Reaches t'

end UnixTransport

end Lug.Ts
