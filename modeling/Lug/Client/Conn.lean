import Lug.Server.Session

/-!
`lug_client::conn`: one connection that many exchanges share. Commands, the writer and the
frames of the server are served by one loop in whatever order they come; every exchange
sees its own frames alone.
-/

namespace Lug.Client.Conn

open Lug (Failure)

/-- `lug_proto::Request`, of which only the id is looked at. -/
structure Request (Q : Type) where
  id : ℕ
  payload : Q

/-- `lug_proto::Response`, as far as a connection looks into it. -/
inductive Response (P : Type)
  | ended (id : ℕ)
  | error (id : ℕ) (failure : Failure)
  | other (id : ℕ) (payload : P)

/-- What a connection tells a caller that went wrong. -/
inductive Error
  | server (id : ℕ) (failure : Failure)
  | disconnected (id : ℕ)

variable {P Q : Type}

def Response.id : Response P → ℕ
  | .ended id | .error id _ | .other id _ => id

def Response.isFinal : Response P → Bool
  | .ended _ | .error _ _ => true
  | .other _ _ => false

abbrev Answer (P : Type) := Except Error (Response P)

def unpack : Response P → Answer P
  | .error id failure => .error (.server id failure)
  | other => .ok other

/-- The channel of a stream, with all that was ever handed to it. -/
structure Sink (P : Type) where
  capacity : ℕ
  handed : List (Answer P)
  /-- How many of them the caller has received. -/
  taken : ℕ
  /-- Whether the caller has dropped its end. -/
  closed : Bool
  overrun : Bool

namespace Sink

def opened (capacity : ℕ) (closed : Bool) : Sink P := ⟨capacity, [], 0, closed, false⟩

/-- Whether `try_send` fails: the channel is full, or nobody receives. -/
def refuses (s : Sink P) : Bool := s.closed || s.capacity ≤ s.handed.length - s.taken

def trySend (s : Sink P) (reply : Answer P) : Sink P :=
  if s.refuses then s else { s with handed := s.handed ++ [reply] }

end Sink

/-- `Command`. A `Stream` brings a channel of some capacity, whose other end may be gone
before the command is read. -/
inductive Command (Q : Type)
  | call (req : Request Q)
  | stream (req : Request Q) (capacity : ℕ) (closed : Bool)
  | fire (req : Request Q)
  | forget (id : ℕ)

inductive Waiter
  | call
  | stream

end Lug.Client.Conn

namespace Lug.Client

open Conn

/-- A connection and what it leaves at its callers: what each call was answered, and the
channel of each stream. Callers make a channel for each request, so the id names it. -/
structure Conn (P Q : Type) where
  waiters : ℕ → Option Waiter
  pending : List (Request Q)
  running : Bool
  sent : List (Request Q)
  replies : ℕ → List (Answer P)
  sinks : ℕ → Sink P

namespace Conn

variable {P Q : Type}

def new : Conn P Q :=
  ⟨fun _ => none, [], true, [], fun _ => [], fun _ => Sink.opened 0 true⟩

def insert (c : Conn P Q) (id : ℕ) (waiter : Waiter) : Conn P Q :=
  { c with waiters := Function.update c.waiters id (some waiter) }

def remove (c : Conn P Q) (id : ℕ) : Conn P Q :=
  { c with waiters := Function.update c.waiters id none }

def setSink (c : Conn P Q) (id : ℕ) (sink : Sink P) : Conn P Q :=
  { c with sinks := Function.update c.sinks id sink }

def enqueue (c : Conn P Q) (req : Request Q) : Conn P Q :=
  { c with pending := c.pending ++ [req] }

def reply (c : Conn P Q) (id : ℕ) (answer : Answer P) : Conn P Q :=
  { c with replies := Function.update c.replies id (c.replies id ++ [answer]) }

/-- `accept`. -/
def accept (c : Conn P Q) : Command Q → Conn P Q
  | .call req => (c.insert req.id .call).enqueue req
  | .stream req capacity closed =>
      ((c.insert req.id .stream).setSink req.id (.opened capacity closed)).enqueue req
  | .fire req => c.enqueue req
  | .forget id => c.remove id

/-- `deliver`. -/
def deliver (c : Conn P Q) (frame : Response P) : Conn P Q :=
  match c.waiters frame.id with
  | none => c
  | some .call => (c.remove frame.id).reply frame.id (unpack frame)
  | some .stream =>
      let sink := c.sinks frame.id
      if sink.refuses then (c.setSink frame.id { sink with overrun := true }).remove frame.id
      else
        let c := c.setSink frame.id (sink.trySend (unpack frame))
        if frame.isFinal then c.remove frame.id else c

/-- Behind the loop: `Waiter::fail` of every waiter, and no request is sent any more. -/
def finish (c : Conn P Q) : Conn P Q where
  waiters _ := none
  pending := []
  running := false
  sent := c.sent
  replies id :=
    if c.waiters id matches some .call then c.replies id ++ [.error (.disconnected id)]
    else c.replies id
  sinks id :=
    if c.waiters id matches some .stream then (c.sinks id).trySend (.error (.disconnected id))
    else c.sinks id

/-- What the loop may be served next, and what callers do with their end of a channel. -/
inductive Event (P Q : Type)
  /-- `out.reserve()`, and whether the writer is still there. -/
  | permit (ok : Bool)
  /-- `cmds.recv()`: nothing when every handle is gone. -/
  | command (cmd : Option (Command Q))
  /-- `inbound.recv()`: nothing when the connection is dead. -/
  | inbound (frame : Option (Response P))
  | take (id : ℕ)
  | close (id : ℕ)

/-- One turn of `run`, under the guards of its `select`. -/
def step (cap : ℕ) (c : Conn P Q) : Event P Q → Option (Conn P Q)
  | .permit ok =>
      match c.running, c.pending with
      | true, req :: pending =>
          some (if ok then { c with pending, sent := c.sent ++ [req] } else c.finish)
      | _, _ => none
  | .command cmd =>
      if c.running ∧ c.pending.length < cap then
        some (match cmd with
          | some cmd => c.accept cmd
          | none => c.finish)
      else none
  | .inbound frame =>
      if c.running then
        some (match frame with
          | some frame => c.deliver frame
          | none => c.finish)
      else none
  | .take id =>
      let sink := c.sinks id
      if sink.taken < sink.handed.length then
        some (c.setSink id { sink with taken := sink.taken + 1 })
      else none
  | .close id => some (c.setSink id { c.sinks id with closed := true })

/-- A schedule. -/
def exec (cap : ℕ) (c : Conn P Q) : List (Event P Q) → Option (Conn P Q)
  | [] => some c
  | e :: es => (c.step cap e).bind fun c => c.exec cap es

end Conn

end Lug.Client
