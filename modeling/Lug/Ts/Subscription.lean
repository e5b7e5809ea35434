import Lug.Server.Session

/-!
`subscription.ts`, over the socket of `unix.ts`: an inbox that frames are pushed to
and pulls are resolved from, and a subscription that grants the server one record
for a pull that finds nothing there. The link puts it in front of the stream task it
subscribed to, with everything that is on its way between the two.
-/

namespace Lug.Ts

open Lug.Server

/-- `ResponseInbox`. A pull is known by the number of its `next()`, and `results`
are what the promises were resolved with, where `none` says done. -/
structure Inbox where
  items : List Body
  waiting : List ℕ
  ended : Bool
  results : List (ℕ × Option Body)

namespace Inbox

def new : Inbox := ⟨[], [], false, []⟩

/-- `#drainEnd`. -/
def drainEnd (i : Inbox) : Inbox :=
  if i.items.isEmpty then
    { i with waiting := [], results := i.results ++ i.waiting.map fun call => (call, none) }
  else i

/-- `push`. -/
def push (i : Inbox) (response : Body) : Inbox :=
  if i.ended then i
  else
    let i := match i.waiting with
      | [] => { i with items := i.items ++ [response] }
      | call :: waiting => { i with waiting, results := i.results ++ [(call, some response)] }
    if response.isFinal then { i with ended := true }.drainEnd else i

def canPullWithoutCredit (i : Inbox) : Bool := !i.items.isEmpty || i.ended

/-- `pull`. -/
def pull (i : Inbox) (call : ℕ) : Inbox :=
  match i.items with
  | item :: items => { i with items, results := i.results ++ [(call, some item)] }
  | [] =>
      if i.ended then { i with results := i.results ++ [(call, none)] }
      else { i with waiting := i.waiting ++ [call] }

end Inbox

/-- `ControlledSubscription`. The calls of `next` that await the start, and those that
await that their `Credit` is written, in the order they were made. -/
structure Subscription where
  inbox : Inbox
  uncreditedPulls : ℕ
  called : ℕ
  starting : List ℕ
  /-- The `Subscribe` is written. -/
  started : Bool
  granting : List ℕ

namespace Subscription

/-- Only the view preamble of a reducible stream arrives uncharged. -/
def new (mode : Mode) : Subscription :=
  ⟨.new, if mode = .reducible then 1 else 0, 0, [], false, []⟩

/-- `next`, up to its first `await`. -/
def next (s : Subscription) : Subscription :=
  { s with called := s.called + 1, starting := s.starting ++ [s.called] }

/-- What a call does behind the start, and whether it asks for a grant. -/
def resume (s : Subscription) (call : ℕ) (starting : List ℕ) : Subscription × Bool :=
  let s := { s with starting }
  if s.uncreditedPulls ≠ 0 then
    ({ s with uncreditedPulls := s.uncreditedPulls - 1, inbox := s.inbox.pull call }, false)
  else if s.inbox.canPullWithoutCredit then ({ s with inbox := s.inbox.pull call }, false)
  else ({ s with granting := s.granting ++ [call] }, true)

theorem resume_cases (s : Subscription) (call : ℕ) (starting : List ℕ) :
    (s.uncreditedPulls ≠ 0 ∧ s.resume call starting = ({ s with
        starting
        uncreditedPulls := s.uncreditedPulls - 1
        inbox := s.inbox.pull call }, false)) ∨
      (s.uncreditedPulls = 0 ∧ s.inbox.canPullWithoutCredit = true ∧
        s.resume call starting = ({ s with starting, inbox := s.inbox.pull call }, false)) ∨
      (s.uncreditedPulls = 0 ∧ s.inbox.canPullWithoutCredit = false ∧
        s.resume call starting = ({ s with starting, granting := s.granting ++ [call] }, true)) := by
  rw [resume]
  by_cases hfree : s.uncreditedPulls = 0
  · right
    rw [if_neg (not_not.mpr hfree)]
    cases hcan : s.inbox.canPullWithoutCredit with
    | true => exact .inl ⟨hfree, rfl, if_pos rfl⟩
    | false => exact .inr ⟨hfree, rfl, if_neg Bool.false_ne_true⟩
  · exact .inl ⟨hfree, if_pos hfree⟩

/-- What it does behind the grant. -/
def granted (s : Subscription) (call : ℕ) (granting : List ℕ) : Subscription :=
  { s with granting, inbox := s.inbox.pull call }

end Subscription

/-- A subscription and its stream task. The requests are on their way `up`, `owed` are
the replies the session still has to send, and `down` is on its way back. -/
structure Link where
  id : ℕ
  sub : Subscription
  up : List Request
  task : Option Task
  owed : List Body
  down : List Body

namespace Link

/-- The first `next` subscribes, with no credit. -/
def opened (id from_ : ℕ) (mode : Mode) : Link :=
  ⟨id, (Subscription.new mode).next, [.subscribe id from_ mode 0], none, [], []⟩

def setStream (l : Link) (t : Task) (stream : Stream) : Link :=
  { l with task := some { t with stream } }

/-- The frame in the hands of the stream, as it goes out with its next step. -/
def inHand (t : Stream) : List Body :=
  match t.phase with
  | .sending frame _ _ => [.push frame]
  | _ => []

/-- What the acknowledgements leave of a frame: the transport hands on all others. -/
def deliver (l : Link) (frame : Body) (down : List Body) : Link :=
  match frame with
  | .ok => { l with down }
  | frame => { l with down, sub := { l.sub with inbox := l.sub.inbox.push frame } }

/-- Who takes the next step. -/
inductive Move
  | next
  | started
  | resume
  | granted
  | accept
  | reject (failure : Failure)
  | grant
  | refuse
  | reply
  | serve (limits : Limits) (shared : Shared)
  | viewed (answer : Except Failure (ℕ × Json))
  | caughtUp (answer : Except Failure CatchUp)
  | orphaned
  | forget
  | finish
  | deliver

/-- One step of either party, or of what is between them. The log the stream reads is
left open, but for the limit of a catch-up, which the actor keeps to. -/
inductive Step (l : Link) : Move → Link → Prop
  | next : Step l .next { l with sub := l.sub.next }
  | started : Step l .started { l with sub := { l.sub with started := true } }
  | resume {call starting} (hstarted : l.sub.started = true)
      (h : l.sub.starting = call :: starting) :
      Step l .resume { l with
        sub := (l.sub.resume call starting).1
        up := if (l.sub.resume call starting).2 then l.up ++ [.credit l.id 1] else l.up }
  | granted {call granting} (h : l.sub.granting = call :: granting) :
      Step l .granted { l with sub := l.sub.granted call granting }
  /-- Acknowledge before pushing anything. -/
  | accept {id from_ mode credit rest} (h : l.up = .subscribe id from_ mode credit :: rest)
      (free : l.task = none) :
      Step l .accept { l with
        up := rest
        task := some ⟨id, credit.toNat, .new from_ mode, .serving⟩
        down := l.down ++ [.ok] }
  | reject {id from_ mode credit rest} (h : l.up = .subscribe id from_ mode credit :: rest)
      (failure : Failure) :
      Step l (.reject failure) { l with up := rest, owed := l.owed ++ [.error failure] }
  | grant {id credit rest t} (h : l.up = .credit id credit :: rest) (ht : l.task = some t)
      (live : t.stage = .serving) :
      Step l .grant { l with
        up := rest
        task := some { t with granted := min (t.granted + credit.toNat) versionMax }
        owed := l.owed ++ [.ok] }
  | refuse {id credit rest} (h : l.up = .credit id credit :: rest)
      (gone : ∀ t, l.task = some t → t.stage ≠ .serving) :
      Step l .refuse { l with up := rest, owed := l.owed ++ [.error (noStream id)] }
  | reply {body rest} (h : l.owed = body :: rest) :
      Step l .reply { l with owed := rest, down := l.down ++ [body] }
  | serve {t} (ht : l.task = some t) (live : t.stage = .serving) (limits : Limits)
      (shared : Shared) :
      Step l (.serve limits shared)
        { l.setStream t (t.stream.step limits shared t.granted) with
          down := l.down ++ inHand t.stream }
  | viewed {t} (ht : l.task = some t) (live : t.stage = .serving)
      (asked : t.stream.phase = .opening) (answer : Except Failure (ℕ × Json)) :
      Step l (.viewed answer) (l.setStream t (t.stream.viewed answer))
  | caughtUp {t after limit} (ht : l.task = some t) (live : t.stage = .serving)
      (asked : t.stream.phase = .awaiting after limit) (answer : Except Failure CatchUp)
      (bounded : ∀ es, answer = .ok (.records es) → es.length ≤ limit) :
      Step l (.caughtUp answer) (l.setStream t (t.stream.caughtUp answer))
  /-- The watermark it waits on is gone. -/
  | orphaned {t} (ht : l.task = some t) (live : t.stage = .serving)
      (parked : t.stream.phase = .parkedEmpty ∨ ∃ w, t.stream.phase = .parkedWatermark w) :
      Step l .orphaned (l.setStream t { t.stream with phase := .ended })
  | forget {t} (ht : l.task = some t) (live : t.stage = .serving)
      (ended : t.stream.phase = .ended) :
      Step l .forget { l with task := some { t with stage := .forgotten } }
  | finish {t} (ht : l.task = some t) (behind : t.stage = .forgotten) :
      Step l .finish
        { l with task := some { t with stage := .done }, down := l.down ++ [.ended] }
  | deliver {frame rest} (h : l.down = frame :: rest) : Step l .deliver (l.deliver frame rest)

/-- The states of a subscription whose moves all meet a condition. -/
inductive Reaches (Meets : Link → Move → Prop) (l₀ : Link) : Link → Prop
  | start : Reaches Meets l₀ l₀
  | step {l l' : Link} {move : Move} : Reaches Meets l₀ l → Step l move l' → Meets l move →
      Reaches Meets l₀ l'

end Link

end Lug.Ts
