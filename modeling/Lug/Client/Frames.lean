import Lug.Server.Delivery
import Lug.Server.Session

/-!
`lug_client::sub`, with what `lug_client::conn` keeps of one stream: the frames a
subscription receives through a bounded channel, and the credit it gives back as
they are taken. The link puts it in front of the stream task it subscribed to,
with everything that is on its way between the two.
-/

namespace Lug.Client

open Lug.Server

def creditMax : ℕ := 2 ^ 32 - 1

/-- The errors a subscription can end with. -/
inductive Error
  | remote (failure : Failure)
  | overrun
  | disconnected

/-- `sub::Frames`. `connected` says whether the connection still has the sender of
`rx`, and `commands` are the `Credit` frames put in its command queue. -/
structure Frames where
  window : UInt32
  /-- Records handed to the consumer since the last grant went out. -/
  drained : ℕ
  pendingCredit : ℕ
  done : Bool
  commands : List ℕ
  rx : List (Except Error Body)
  connected : Bool
  overrun : Bool

/-- What `poll_next` returns. -/
inductive Poll
  | pending
  | frame (body : Body)
  | error (e : Error)
  | none

namespace Frames

def opened (window : UInt32) : Frames := ⟨window, 0, 0, false, [], [], true, false⟩

/-- Sized to the credit window. -/
def capacity (f : Frames) : ℕ := max 1 (min f.window.toNat 4096)

def threshold (f : Frames) : ℕ := max (f.window.toNat / 2) 1

/-- `Frames::maybe_grant`. `ready` says whether the command queue has room. -/
def maybeGrant (ready : Bool) (f : Frames) : Frames :=
  let f := if f.threshold ≤ f.drained then
    { f with pendingCredit := min (f.pendingCredit + f.drained) creditMax, drained := 0 } else f
  if 0 < f.pendingCredit ∧ ready = true then
    { f with commands := f.commands ++ [f.pendingCredit], pendingCredit := 0 }
  else f

/-- The loop of `Frames::poll_next` over what the channel holds. -/
def pollFrom (f : Frames) (ready : ℕ → Bool) : List (Except Error Body) → Poll × Frames
  | [] =>
      let f := { f.maybeGrant (ready 0) with rx := [] }
      if f.connected then (.pending, f)
      else (.error (if f.overrun then .overrun else .disconnected), { f with done := true })
  | .error e :: rx => (.error e, { f.maybeGrant (ready 0) with rx, done := true })
  -- Plumbing, not data.
  | .ok .ok :: rx | .ok .welcome :: rx =>
      (f.maybeGrant (ready 0)).pollFrom (fun n => ready (n + 1)) rx
  | .ok .ended :: rx => (.none, { f.maybeGrant (ready 0) with rx, done := true })
  | .ok (.pushed (.records records)) :: rx =>
      let f := { f.maybeGrant (ready 0) with rx }
      let f := { f with drained := min (f.drained + records.length % 2 ^ 32) creditMax }
      (.frame (.pushed (.records records)), f.maybeGrant (ready 1))
  | .ok body :: rx => (.frame body, { f.maybeGrant (ready 0) with rx })

def pollNext (f : Frames) (ready : ℕ → Bool) : Poll × Frames :=
  if f.done then (.none, f) else f.pollFrom ready f.rx

/-- `conn::unpack`. -/
def unpack : Body → Except Error Body
  | .error failure => .error (.remote failure)
  | body => .ok body

/-- `conn::deliver`, to a stream. -/
def deliver (f : Frames) (frame : Body) : Frames :=
  if f.connected then
    if f.rx.length < f.capacity then
      { f with rx := f.rx ++ [unpack frame], connected := !frame.isFinal }
    -- Full means the server pushed past the credit it was granted, since the
    -- channel is sized to that window.
    else { f with overrun := true, connected := false }
  else f

/-- `Waiter::fail`, when the connection is gone. -/
def fail (f : Frames) : Frames :=
  if f.connected then
    if f.rx.length < f.capacity then
      { f with rx := f.rx ++ [.error .disconnected], connected := false }
    else { f with connected := false }
  else f

end Frames

/-- A subscription and its stream task. The `Credit` frames the connection has
taken from its queue are flying, `owed` are the replies the session still has to
send, and `down` is on its way back. -/
structure Link where
  frames : Frames
  /-- Records handed to the consumer. -/
  handed : ℕ
  flying : List ℕ
  task : Task
  owed : List Body
  down : List Body

namespace Poll

def records : Poll → ℕ
  | .frame (.pushed sent) => sent.pushed.length
  | _ => 0

@[simp] theorem records_error (e : Error) : (error e).records = 0 := rfl

end Poll

namespace Link

/-- The subscription was acknowledged and its task spawned. -/
def start (id : ℕ) (from_ : ℕ) (mode : Mode) (window : UInt32) : Link where
  frames := .opened window
  handed := 0
  flying := []
  task := ⟨id, window.toNat, .new from_ mode, .serving⟩
  owed := []
  down := [.ok]

def setStream (l : Link) (stream : Stream) : Link := { l with task := { l.task with stream } }

/-- The frame in the hands of the stream, as it goes out with its next step. -/
def inHand (t : Stream) : List Body :=
  match t.phase with
  | .sending frame _ _ => [.push frame]
  | _ => []

/-- One step of either party, or of what is between them. The log the stream
reads is left open, but for the limit of a catch-up, which `catchUp_length` says
the actor keeps to. -/
inductive Step (l : Link) : Link → Prop
  | poll (ready : ℕ → Bool) :
      Step l { l with
        frames := (l.frames.pollNext ready).2
        handed := l.handed + (l.frames.pollNext ready).1.records }
  | write {credit rest} (h : l.frames.commands = credit :: rest) :
      Step l { l with
        frames := { l.frames with commands := rest }, flying := l.flying ++ [credit] }
  | grant {credit rest} (h : l.flying = credit :: rest) (live : l.task.stage = .serving) :
      Step l { l with
        flying := rest
        task := { l.task with granted := min (l.task.granted + credit) versionMax }
        owed := l.owed ++ [.ok] }
  | refuse {credit rest} (h : l.flying = credit :: rest) (gone : l.task.stage ≠ .serving) :
      Step l { l with
        flying := rest, owed := l.owed ++ [.error (noStream l.task.id)] }
  | reply {body rest} (h : l.owed = body :: rest) :
      Step l { l with owed := rest, down := l.down ++ [body] }
  | serve (live : l.task.stage = .serving) (limits : Limits) (shared : Shared) :
      Step l { l.setStream (l.task.stream.step limits shared l.task.granted) with
        down := l.down ++ inHand l.task.stream }
  | viewed (live : l.task.stage = .serving) (asked : l.task.stream.phase = .opening)
      (answer : Except Failure (ℕ × Json)) :
      Step l (l.setStream (l.task.stream.viewed answer))
  | caughtUp {after limit} (live : l.task.stage = .serving)
      (asked : l.task.stream.phase = .awaiting after limit) (answer : Except Failure CatchUp)
      (bounded : ∀ es, answer = .ok (.records es) → es.length ≤ limit) :
      Step l (l.setStream (l.task.stream.caughtUp answer))
  /-- The watermark it waits on is gone. -/
  | orphaned (live : l.task.stage = .serving)
      (parked : l.task.stream.phase = .parkedEmpty ∨
        ∃ w, l.task.stream.phase = .parkedWatermark w) :
      Step l (l.setStream { l.task.stream with phase := .ended })
  | forget (live : l.task.stage = .serving) (ended : l.task.stream.phase = .ended) :
      Step l { l with task := { l.task with stage := .forgotten } }
  | finish (behind : l.task.stage = .forgotten) :
      Step l { l with task := { l.task with stage := .done }, down := l.down ++ [.ended] }
  | deliver {frame rest} (h : l.down = frame :: rest) :
      Step l { l with frames := l.frames.deliver frame, down := rest }
  /-- The connection is gone. -/
  | lost : Step l { l with frames := l.frames.fail }

end Link

end Lug.Client
