import Lug.Server.Session

/-!
`lug_client::http` below `lug_client::conn`, and the server's `http` in front of its
sessions: a call is a POST of its own, a subscription is an SSE stream, and a stream is
steered by calls that carry the session it announced. Nothing is lost on the way, and
every call is answered.
-/

namespace Lug.Client.Http

open Lug.Server

/-- `Request::id`. -/
def idOf : Request → ℕ
  | .subscribe id _ _ _ | .credit id _ | .cancel id | .other id => id

/-- `Credit` and `Cancel`, which need the session of their stream. -/
def needsSession : Request → Bool
  | .credit _ _ | .cancel _ => true
  | .subscribe _ _ _ _ | .other _ => false

def isSubscribe : Request → Bool
  | .subscribe _ _ _ _ => true
  | _ => false

/-! ### The hub -/

/-- `conn::Command`. -/
inductive Command
  | call (request : Request)
  | stream (request : Request)
  | fire (request : Request)
  | forget (id : ℕ)

/-- `conn::Waiter`. -/
inductive Waiter
  | call
  | stream

/-- `conn::run`, with the waiters it failed as `Disconnected`. -/
structure Hub where
  waiters : List (ℕ × Waiter)
  pending : List Request
  running : Bool
  failed : List ℕ

namespace Hub

def remove (h : Hub) (id : ℕ) : Hub := { h with waiters := h.waiters.filter (·.1 ≠ id) }

def insert (h : Hub) (id : ℕ) (waiter : Waiter) : Hub :=
  { h.remove id with waiters := (h.remove id).waiters ++ [(id, waiter)] }

/-- `accept`. -/
def accept (h : Hub) : Command → Hub
  | .call request =>
      { h.insert (idOf request) .call with pending := h.pending ++ [request] }
  | .stream request =>
      { h.insert (idOf request) .stream with pending := h.pending ++ [request] }
  | .fire request => { h with pending := h.pending ++ [request] }
  | .forget id => h.remove id

/-- `deliver`. `full` says whether the sink of a stream is. -/
def deliver (h : Hub) (full : Bool) (frame : Response) : Hub :=
  match h.waiters.lookup frame.id with
  | none => h
  | some .call => h.remove frame.id
  | some .stream => if full || frame.body.isFinal then h.remove frame.id else h

/-- The connection is gone. Fail everything at once. -/
def disconnect (h : Hub) : Hub := ⟨[], [], false, h.failed ++ h.waiters.map Prod.fst⟩

end Hub

/-! ### The pump and the server -/

/-- Where a call stands: it waits for its stream to announce a session, it is on its way
with the session it found, it is answered with status 200 or 400, the answer was read. -/
inductive CallStage
  | waiting
  | posting (session : Option ℕ)
  | answered (reply : Except Failure Body)
  | done (reply : Except Failure Body)

structure Call where
  request : Request
  stage : CallStage

/-- A `StreamTask` and the session the server opened for it, whose name is its place in
the list. -/
structure Feed where
  id : ℕ
  from_ : ℕ
  mode : Mode
  credit : UInt32
  session : Option Server.Session
  read : ℕ
  running : Bool

/-- A connection over HTTP: its hub, its pump, everything the pump has spawned, and what
the server keeps for it. -/
structure Wire where
  hub : Hub
  out : List Request
  inbound : List Response
  calls : List Call
  feeds : List Feed
  /-- `Sessions`. -/
  announced : List (ℕ × ℕ)
  dead : Bool
  pumping : Bool

def noSession (id : ℕ) : Failure := ⟨.badId, "no session for stream " ++ toString id⟩

/-- The frames a session has sent. -/
def sent (s : Server.Session) : List Response :=
  s.trace.filterMap fun
    | .sent r => some r
    | _ => none

namespace Feed

/-- `stream`: the Welcome is the first event, so that the client learns the session name
before it needs to grant credit. -/
def opened (f : Feed) (found : Except Failure Bool) (answered : Option Body) : Server.Session :=
  ((Server.Session.new true).send ⟨f.id, .welcome⟩).receive found answered
    (.subscribe f.id f.from_ f.mode f.credit)

end Feed

namespace Wire

def new : Wire := ⟨⟨[], [], true, []⟩, [], [], [], [], [], false, true⟩

def setCall (w : Wire) (k : ℕ) (c : Call) : Wire := { w with calls := w.calls.set k c }

def setFeed (w : Wire) (k : ℕ) (f : Feed) : Wire := { w with feeds := w.feeds.set k f }

/-- The session a steering call names, if the server has it. -/
def session (w : Wire) (name : Option ℕ) : Option (ℕ × Feed × Server.Session) := do
  let n ← name
  let f ← w.feeds[n]?
  let s ← f.session
  pure (n, f, s)

/-- What the server answers to a steering call, and what becomes of its sessions. -/
def steer (w : Wire) (id : ℕ) (name : Option ℕ)
    (act : Server.Session → Except Failure Server.Session) (reply : Body) :
    Except Failure Body × Wire :=
  match w.session name with
  | none => (.error (noSession id), w)
  | some (n, f, s) =>
      match act s with
      | .ok s => (.ok reply, w.setFeed n { f with session := some s })
      | .error e => (.error e, w)

/-- `call` of the server. `answered` is what it answers to a request that steers nothing. -/
def handle (w : Wire) (request : Request) (name : Option ℕ) (answered : Body) :
    Except Failure Body × Wire :=
  match request with
  | .credit id credit => w.steer id name (fun s => s.grant id credit) .ok
  | .cancel id => w.steer id name (fun s => s.cancel id) .ended
  | .subscribe _ _ _ _ | .other _ => (.ok answered, w)

/-- What a frame tells the client of the sessions. -/
def note (w : Wire) (id name : ℕ) : Body → List (ℕ × ℕ)
  | .welcome => (id, name) :: w.announced.filter (·.1 ≠ id)
  | _ => w.announced

end Wire

/-- The moves a session makes by itself. -/
def isOwn : Server.Session.Move → Bool
  | .receive _ | .steer => false
  | _ => true

/-- Who takes the next step. -/
inductive Move
  | command (command : Command)
  | send
  | take
  | announced (call : ℕ)
  | expired (call : ℕ)
  | open (feed : ℕ)
  | work (feed : ℕ)
  | handle (call : ℕ)
  | answer (call : ℕ)
  | read (feed : ℕ)
  | deliver
  | stop
  | drop (feed : ℕ)
  | hangUp (feed : ℕ)
  | disconnect

/-- One step of any party. -/
inductive Step (w : Wire) : Move → Wire → Prop
  | command (live : w.hub.running = true) (command : Command) :
      Step w (.command command) { w with hub := w.hub.accept command }
  | send {request rest} (live : w.hub.running = true) (pumping : w.pumping = true)
      (h : w.hub.pending = request :: rest) :
      Step w .send { w with hub := { w.hub with pending := rest }, out := w.out ++ [request] }
  | subscribe {id from_ mode credit rest} (pumping : w.pumping = true)
      (h : w.out = .subscribe id from_ mode credit :: rest) :
      Step w .take { w with
        out := rest, feeds := w.feeds ++ [⟨id, from_, mode, credit, none, 0, true⟩] }
  | spawn {request rest} (pumping : w.pumping = true) (h : w.out = request :: rest)
      (other : isSubscribe request = false) :
      Step w .take { w with
        out := rest
        calls := w.calls ++
          [⟨request, if needsSession request then .waiting else .posting none⟩] }
  | announced {k call name} (hk : w.calls[k]? = some call) (hcall : call.stage = .waiting)
      (h : w.announced.lookup (idOf call.request) = some name) :
      Step w (.announced k) (w.setCall k { call with stage := .posting (some name) })
  /-- `SESSION_WAIT` is over. -/
  | expired {k call} (hk : w.calls[k]? = some call) (hcall : call.stage = .waiting) :
      Step w (.expired k) (w.setCall k { call with stage := .posting none })
  | open {k feed} (hk : w.feeds[k]? = some feed) (live : feed.running = true)
      (hnew : feed.session = none) (found : Except Failure Bool) (answered : Option Body) :
      Step w (.open k) (w.setFeed k { feed with session := some (feed.opened found answered) })
  | work {k feed s s' move} (hk : w.feeds[k]? = some feed) (hs : feed.session = some s)
      (own : isOwn move = true) (h : Server.Session.Step s move s') :
      Step w (.work k) (w.setFeed k { feed with session := some s' })
  | handle {k call name} (hk : w.calls[k]? = some call) (hcall : call.stage = .posting name)
      (answered : Body) :
      Step w (.handle k) ((w.handle call.request name answered).2.setCall k
        { call with stage := .answered (w.handle call.request name answered).1 })
  | answer {k call reply} (hk : w.calls[k]? = some call)
      (hcall : call.stage = .answered (.ok reply)) :
      Step w (.answer k) { w.setCall k { call with stage := .done (.ok reply) } with
        inbound := w.inbound ++ [⟨idOf call.request, reply⟩] }
  /-- A failed call is a failed connection. -/
  | refused {k call e} (hk : w.calls[k]? = some call)
      (hcall : call.stage = .answered (.error e)) :
      Step w (.answer k) { w.setCall k { call with stage := .done (.error e) } with dead := true }
  | read {k feed s r} (hk : w.feeds[k]? = some feed) (live : feed.running = true)
      (hs : feed.session = some s) (h : (sent s)[feed.read]? = some r) :
      Step w (.read k) { w.setFeed k { feed with read := feed.read + 1 } with
        announced := w.note feed.id k r.body
        inbound := w.inbound ++ [r] }
  | deliver {r rest} (live : w.hub.running = true) (h : w.inbound = r :: rest) (full : Bool) :
      Step w .deliver { w with hub := w.hub.deliver full r, inbound := rest }
  | stop (h : w.dead = true) : Step w .stop { w with pumping := false }
  | drop {k feed} (h : w.dead = true) (hk : w.feeds[k]? = some feed) :
      Step w (.drop k) { w.setFeed k { feed with running := false } with
        announced := w.announced.filter (·.1 ≠ feed.id) }
  /-- The server drops what it kept for a stream nobody reads. -/
  | hangUp {k feed} (hk : w.feeds[k]? = some feed) (gone : feed.running = false) :
      Step w (.hangUp k) (w.setFeed k { feed with session := none })
  /-- Nobody takes what the hub sends, or sends what it takes. -/
  | disconnect (live : w.hub.running = true) (gone : w.pumping = false)
      (h : w.hub.pending ≠ [] ∨ w.inbound = [] ∧ (∀ call ∈ w.calls, ∃ r, call.stage = .done r) ∧
        ∀ feed ∈ w.feeds, feed.running = false) :
      Step w .disconnect { w with hub := w.hub.disconnect }

/-- The states of a wire whose moves all meet a condition. -/
inductive Reaches (Meets : Wire → Move → Prop) : Wire → Prop
  | start : Reaches Meets .new
  | step {w w' : Wire} {move : Move} : Reaches Meets w → Step w move w' → Meets w move →
      Reaches Meets w'

end Lug.Client.Http
