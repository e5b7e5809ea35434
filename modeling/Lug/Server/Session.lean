import Lug.Server.Stream

/-!
`lug_server::session`: one connection's requests, its stream table and its stream
tasks, and everything it sends, in order. What a request finds in the registry,
and what the log actors and the watermarks do to a stream, is left open: any
answer may come at any time.
-/

namespace Lug.Server

/-- `lug_proto::Request`, as far as a connection's streams are concerned. Every
other request is answered by one frame and opens nothing. -/
inductive Request
  | subscribe (id : ℕ) (from_ : ℕ) (mode : Mode) (credit : UInt32)
  | credit (id : ℕ) (grant : UInt32)
  | cancel (id : ℕ)
  | other (id : ℕ)

/-- `lug_proto::Response` without its id. -/
inductive Body
  | ok
  | ended
  | error (failure : Failure)
  | pushed (frame : Frame)
  | welcome
  /-- `Pong`, `Logs`, `Ack`, or the `View` of a read. -/
  | answer

structure Response where
  id : ℕ
  body : Body

/-- Whether a frame ends the exchange its id names. -/
def Body.isFinal : Body → Bool
  | .ended | .error _ => true
  | .ok | .pushed _ | .welcome | .answer => false

def Body.push : Frame → Body
  | .error failure => .error failure
  | frame => .pushed frame

/-- What a connection can be seen to do. -/
inductive Event
  | received (request : Request)
  /-- A subscription was entered into the stream table. -/
  | accepted (id : ℕ)
  | sent (response : Response)

/-- Where the task of a stream stands: entered but not spawned yet, in `serve`,
behind `forget`, behind its `End`. -/
inductive Stage
  | accepted
  | serving
  | forgotten
  | done
  deriving DecidableEq

structure Task where
  id : ℕ
  /-- `Flow::granted`. -/
  granted : ℕ
  stream : Stream
  stage : Stage

/-- What `dispatch` still has to do for the request it took. -/
inductive Dispatch
  | idle
  | replying (response : Response)
  | accepting (task : ℕ)

/-- `session::Session`. The stream table maps an id to the task whose flow it
feeds; a task that is in no entry has had its sender dropped. -/
structure Session where
  /-- Whether it speaks HTTP, where the streams are steered from elsewhere. -/
  token : Bool
  streams : List (ℕ × ℕ)
  tasks : List Task
  dispatch : Dispatch
  /-- The replies `pump` awaits, by id. -/
  pending : List ℕ
  trace : List Event

def noStream (id : ℕ) : Failure := ⟨.badId, "no stream " ++ toString id⟩

def notReducible : Failure := ⟨.notReducible, "log keeps no view"⟩

namespace Session

def new (token : Bool) : Session := ⟨token, [], [], .idle, [], []⟩

def send (s : Session) (r : Response) : Session := { s with trace := s.trace ++ [.sent r] }

def setTask (s : Session) (k : ℕ) (t : Task) : Session := { s with tasks := s.tasks.set k t }

/-- `Session::grant`. -/
def grant (s : Session) (id : ℕ) (credit : UInt32) : Except Failure Session :=
  match s.streams.lookup id with
  | none => .error (noStream id)
  | some k => .ok (s.tasks[k]?.elim s fun t =>
      s.setTask k { t with granted := min (t.granted + credit.toNat) versionMax })

/-- `Session::forget`, also what `Session::cancel` does to the table. -/
def forget (s : Session) (id : ℕ) : Session :=
  { s with streams := s.streams.filter (·.1 ≠ id) }

/-- `Session::cancel`. Dropping the flow sender is the cancel signal. -/
def cancel (s : Session) (id : ℕ) : Except Failure Session :=
  match s.streams.lookup id with
  | none => .error (noStream id)
  | some _ => .ok (s.forget id)

def reply (s : Session) (id : ℕ) (body : Body) : Session :=
  { s with dispatch := .replying ⟨id, body⟩ }

/-- A subscription is entered into the table. -/
def accept (s : Session) (id : ℕ) (stream : Stream) (credit : UInt32) : Session :=
  { s with
    streams := s.streams ++ [(id, s.tasks.length)]
    tasks := s.tasks ++ [⟨id, credit.toNat, stream, .accepted⟩]
    dispatch := .accepting s.tasks.length
    trace := s.trace ++ [.accepted id] }

/-- `Session::dispatch` up to its first `await`. `found` is what the registry says
of the log, whether it is reducible if it may be had at all; `answered` is the
answer to any other request, unless `pump` has to await it. -/
def take (s : Session) (found : Except Failure Bool) (answered : Option Body) :
    Request → Session
  | .subscribe id from_ mode credit =>
      match found with
      | .error e => s.reply id (.error e)
      | .ok reducible =>
          if mode = .reducible ∧ reducible = false then s.reply id (.error notReducible)
          else if (s.streams.lookup id).isSome then
            s.reply id (.error ⟨.badId, "stream " ++ toString id ++ " is open"⟩)
          else s.accept id (Stream.new from_ mode) credit
  | .credit id credit =>
      match s.grant id credit with
      | .ok s => s.reply id .ok
      | .error e => s.reply id (.error e)
  -- The stream task sends the End as it unwinds, so a cancel that found a
  -- stream says nothing more here.
  | .cancel id =>
      match s.cancel id with
      | .ok s => s
      | .error e => s.reply id (.error e)
  | .other id =>
      match answered with
      | some body => s.reply id body
      | none => { s with pending := s.pending ++ [id] }

def receive (s : Session) (found : Except Failure Bool) (answered : Option Body)
    (r : Request) : Session :=
  { s with trace := s.trace ++ [Event.received r] }.take found answered r

/-- The frame a stream has in its hands is sent when it takes its next step. -/
def sendInHand (s : Session) (t : Task) : Session :=
  match t.stream.phase with
  | .sending frame _ _ => s.send ⟨t.id, .push frame⟩
  | _ => s

/-- Who takes the next step. -/
inductive Move
  | receive (request : Request)
  | reply
  | spawn
  | pump
  | steer
  | serve (task : ℕ)
  | viewed (task : ℕ) (answer : Except Failure (ℕ × Json))
  | caughtUp (task : ℕ) (answer : Except Failure CatchUp)
  | leave (task : ℕ)
  | forget (task : ℕ)
  | finish (task : ℕ)

/-- One step of the connection's dispatch loop, its pump, or one of its stream
tasks, while the connection lives. -/
inductive Step (s : Session) : Move → Session → Prop
  | receive {r found answered} (idle : s.dispatch = .idle) :
      Step s (.receive r) (s.receive found answered r)
  | reply {r} (h : s.dispatch = .replying r) :
      Step s .reply ({ s with dispatch := .idle }.send r)
  /-- Acknowledge before pushing anything. Over SSE the Welcome already did. -/
  | spawn {k t} (h : s.dispatch = .accepting k) (ht : s.tasks[k]? = some t) :
      Step s .spawn
        (let s := { s with dispatch := .idle }.setTask k { t with stage := .serving }
        if s.token then s else s.send ⟨t.id, .ok⟩)
  | pump {id rest} (h : s.pending = id :: rest) (body : Body) :
      Step s .pump ({ s with pending := rest }.send ⟨id, body⟩)
  | steerCredit {id credit s'} (token : s.token = true) (h : s.grant id credit = .ok s') :
      Step s .steer s'
  | steerCancel {id s'} (token : s.token = true) (h : s.cancel id = .ok s') : Step s .steer s'
  | serve {k t} (ht : s.tasks[k]? = some t) (live : t.stage = .serving) (limits : Limits)
      (shared : Shared) :
      Step s (.serve k)
        ((s.sendInHand t).setTask k
          { t with stream := t.stream.step limits shared t.granted })
  | viewed {k t} (ht : s.tasks[k]? = some t) (live : t.stage = .serving)
      (asked : t.stream.phase = .opening) (r : Except Failure (ℕ × Json)) :
      Step s (.viewed k r) (s.setTask k { t with stream := t.stream.viewed r })
  | caughtUp {k t after limit} (ht : s.tasks[k]? = some t) (live : t.stage = .serving)
      (asked : t.stream.phase = .awaiting after limit) (r : Except Failure CatchUp) :
      Step s (.caughtUp k r) (s.setTask k { t with stream := t.stream.caughtUp r })
  /-- The flow it waits on is gone. -/
  | cancelled {k t} (ht : s.tasks[k]? = some t) (live : t.stage = .serving)
      (gone : ∀ e ∈ s.streams, e.2 ≠ k)
      (parked : (∃ g, t.stream.phase = .parkedCredit g) ∨
        ∃ w, t.stream.phase = .parkedWatermark w) :
      Step s (.leave k) (s.setTask k { t with stream := { t.stream with phase := .ended } })
  /-- The watermark it waits on is gone. -/
  | orphaned {k t} (ht : s.tasks[k]? = some t) (live : t.stage = .serving)
      (parked : t.stream.phase = .parkedEmpty ∨ ∃ w, t.stream.phase = .parkedWatermark w) :
      Step s (.leave k) (s.setTask k { t with stream := { t.stream with phase := .ended } })
  | forget {k t} (ht : s.tasks[k]? = some t) (live : t.stage = .serving)
      (ended : t.stream.phase = .ended) :
      Step s (.forget k) ((s.forget t.id).setTask k { t with stage := .forgotten })
  | finish {k t} (ht : s.tasks[k]? = some t) (behind : t.stage = .forgotten) :
      Step s (.finish k) ((s.setTask k { t with stage := .done }).send ⟨t.id, .ended⟩)

/-! ### Exchanges -/

/-- What an event does to the frames sent under an id since a subscription on it
was accepted, `none` if the id was last used for something else. -/
def track (id : ℕ) (frames : Option (List Response)) : Event → Option (List Response)
  | .received (.subscribe i _ _ _) | .received (.other i) => if i = id then none else frames
  | .received (.credit _ _) | .received (.cancel _) => frames
  | .accepted i => if i = id then some [] else frames
  | .sent r => if r.id = id then frames.map (· ++ [r]) else frames

def exchange (s : Session) (id : ℕ) : Option (List Response) := s.trace.foldl (track id) none

/-- How many tasks still owe this id an `End`. -/
def openOn (s : Session) (id : ℕ) : ℕ :=
  s.tasks.countP fun t => t.id = id ∧ t.stage ≠ .done

/-- No frame of these ends an exchange. -/
def Quiet (rs : List Response) : Prop := ∀ r ∈ rs, r.body.isFinal = false

/-- What a session allows of the next move for the exchanges to stay apart: an id
is not used again before its stream is done, a stream is steered only while it is
in the table, its acknowledgement goes out before its final frame, and the actor
serves what a stream asks of it. -/
def Orderly (s : Session) : Move → Prop
  | .receive (.subscribe id _ _ _) | .receive (.other id) => s.openOn id = 0 ∧ id ∉ s.pending
  | .receive (.credit id _) | .receive (.cancel id) =>
      s.exchange id = none ∨ (s.streams.lookup id).isSome
  | .reply => ∀ r, s.dispatch = .replying r → ∀ rs, s.exchange r.id = some rs → Quiet rs
  | .viewed _ answer => ∃ view, answer = .ok view
  | .caughtUp _ answer => ∃ found, answer = .ok found
  | _ => True

/-- The states of a connection whose moves all satisfy `ok`. -/
inductive Reaches (ok : Session → Move → Prop) (token : Bool) : Session → Prop
  | start : Reaches ok token (new token)
  | step {s s' m} (h : Reaches ok token s) (hm : ok s m) (hs : Step s m s') : Reaches ok token s'

/-- Of the frames an accepted subscription was answered, only the last is final,
and once its task is done it is there. A task that has left `serve` gets there. -/
def OneFinal (s : Session) : Prop :=
  (∀ id rs, s.exchange id = some rs →
    Quiet rs.dropLast ∧ (s.openOn id = 0 → ∃ r, rs.getLast? = some r ∧ r.body.isFinal = true)) ∧
  ∀ k t, s.tasks[k]? = some t → t.stage = .serving → t.stream.phase = .ended →
    ∃ s₁ s₂, Step s (.forget k) s₁ ∧ Step s₁ (.finish k) s₂ ∧
      s₂.trace = s.trace ++ [.sent ⟨t.id, .ended⟩]

/-! ### What every move keeps -/

/-- What the exchange of an id may hold while this many tasks are open on it. -/
def Fits (id n : ℕ) : Option (List Response) → Prop
  | none => n = 0
  | some rs => (n = 1 ∧ Quiet rs) ∨ (n = 0 ∧ ∃ rs', rs = rs' ++ [⟨id, .ended⟩] ∧ Quiet rs')

structure Inv (s : Session) : Prop where
  fits : ∀ id, Fits id (s.openOn id) (s.exchange id)
  pending : ∀ id ∈ s.pending, s.exchange id = none
  replying : ∀ r, s.dispatch = .replying r → s.exchange r.id = none ∨ r.body.isFinal = false
  accepting : ∀ k t, s.dispatch = .accepting k → s.tasks[k]? = some t → t.stage = .accepted
  calm : ∀ t ∈ s.tasks, ∀ frame cursor last, t.stream.phase = .sending frame cursor last →
    (Body.push frame).isFinal = false

variable {s : Session}

theorem quiet_nil : Quiet [] := List.forall_mem_nil _

theorem Quiet.concat {rs : List Response} {r : Response} (h : Quiet rs)
    (hr : r.body.isFinal = false) : Quiet (rs ++ [r]) := by
  intro x hx
  cases List.mem_append.mp hx with
  | inl hold => exact h x hold
  | inr hnew =>
      obtain rfl := List.mem_singleton.mp hnew
      exact hr

theorem not_quiet_ended (rs : List Response) (id : ℕ) : ¬ Quiet (rs ++ [⟨id, .ended⟩]) := by
  intro h
  exact absurd (h _ (List.mem_append_right _ (List.mem_singleton.mpr rfl))) Bool.noConfusion

theorem exchange_send (s : Session) (r : Response) (id : ℕ) :
    (s.send r).exchange id =
      if r.id = id then (s.exchange id).map (· ++ [r]) else s.exchange id := by
  rw [exchange, send, List.foldl_append]
  rfl

theorem openOn_pos {k : ℕ} {t : Task} (ht : s.tasks[k]? = some t) (h : t.stage ≠ .done) :
    s.openOn t.id ≠ 0 := by
  have hpos : 0 < s.openOn t.id :=
    List.countP_pos_iff.mpr ⟨t, List.mem_of_getElem? ht, by simp [h]⟩
  omega

/-- A task that owes an `End` owes it to an exchange with no final frame yet. -/
theorem Inv.quiet (h : Inv s) {k : ℕ} {t : Task} (ht : s.tasks[k]? = some t)
    (hopen : t.stage ≠ .done) :
    s.openOn t.id = 1 ∧ ∃ rs, s.exchange t.id = some rs ∧ Quiet rs := by
  have hpos := openOn_pos ht hopen
  have hfits := h.fits t.id
  cases hx : s.exchange t.id with
  | none =>
      rw [hx] at hfits
      exact absurd hfits hpos
  | some rs =>
      rw [hx] at hfits
      cases hfits with
      | inl hquiet => exact ⟨hquiet.1, rs, rfl, hquiet.2⟩
      | inr hended => exact absurd hended.1 hpos

theorem Inv.send (h : Inv s) {r : Response}
    (hr : ∀ rs, s.exchange r.id = some rs → Quiet (rs ++ [r])) : Inv (s.send r) := by
  have hnone : ∀ id, s.exchange id = none → (s.send r).exchange id = none := by
    intro id hid
    rw [exchange_send, hid]
    split <;> rfl
  refine ⟨fun id => ?_, fun id hid => hnone id (h.pending id hid), fun r' hr' => ?_, h.accepting,
    h.calm⟩
  · have hfits := h.fits id
    rw [exchange_send]
    split
    case isTrue heq =>
        subst heq
        cases hx : s.exchange r.id with
        | none =>
            rw [hx] at hfits
            exact hfits
        | some rs =>
            rw [hx] at hfits
            have hquiet := hr rs hx
            cases hfits with
            | inl hone => exact .inl ⟨hone.1, hquiet⟩
            | inr hended =>
                obtain ⟨-, rs', rfl, -⟩ := hended
                exact absurd (fun x hx => hquiet x (List.mem_append_left _ hx))
                  (not_quiet_ended rs' r.id)
    case isFalse => exact hfits
  · exact (h.replying r' hr').imp_left (hnone r'.id)

theorem Inv.send_none (h : Inv s) {r : Response} (hr : s.exchange r.id = none) :
    Inv (s.send r) := by
  refine h.send fun rs hrs => ?_
  rw [hr] at hrs
  cases hrs

/-- A frame of a task that is still open. -/
theorem Inv.send_open (h : Inv s) {k : ℕ} {t : Task} (ht : s.tasks[k]? = some t)
    (hopen : t.stage ≠ .done) {body : Body} (hbody : body.isFinal = false) :
    Inv (s.send ⟨t.id, body⟩) := by
  obtain ⟨-, rs, hrs, hquiet⟩ := h.quiet ht hopen
  refine h.send fun rs' hrs' => ?_
  rw [hrs] at hrs'
  cases hrs'
  exact hquiet.concat hbody

theorem openOn_setTask {k : ℕ} {t : Task} (t' : Task) (ht : s.tasks[k]? = some t) (id : ℕ) :
    (s.setTask k t').openOn id + (if t.id = id ∧ t.stage ≠ .done then 1 else 0) =
      s.openOn id + (if t'.id = id ∧ t'.stage ≠ .done then 1 else 0) := by
  obtain ⟨hk, hget⟩ := List.getElem?_eq_some_iff.mp ht
  have hle : (if t.id = id ∧ t.stage ≠ .done then 1 else 0) ≤ s.openOn id := by
    split
    case isTrue h =>
        obtain ⟨rfl, hopen⟩ := h
        have hpos := openOn_pos ht hopen
        omega
    case isFalse => omega
  simp only [setTask, openOn, List.countP_set hk, hget, decide_eq_true_eq] at hle ⊢
  omega

/-- A task goes on, under its id and as open as it was. -/
theorem Inv.setTask (h : Inv s) {k : ℕ} {t t' : Task} (ht : s.tasks[k]? = some t)
    (hid : t'.id = t.id) (hdone : t'.stage = .done ↔ t.stage = .done)
    (haccepting : s.dispatch = .accepting k → t'.stage = .accepted)
    (hcalm : ∀ frame cursor last, t'.stream.phase = .sending frame cursor last →
      (Body.push frame).isFinal = false) : Inv (s.setTask k t') := by
  refine ⟨fun id => ?_, h.pending, h.replying, fun j u hj hu => ?_, fun u hu => ?_⟩
  · have hcount := openOn_setTask t' ht id
    simp only [hid, ne_eq, hdone] at hcount
    rw [Nat.add_right_cancel hcount]
    exact h.fits id
  · by_cases heq : j = k
    · subst heq
      rw [Session.setTask, List.getElem?_set_self (List.getElem?_eq_some_iff.mp ht).1] at hu
      cases hu
      exact haccepting hj
    · rw [Session.setTask, List.getElem?_set_ne (Ne.symm heq)] at hu
      exact h.accepting j u hj hu
  · cases List.mem_or_eq_of_mem_set hu with
    | inl hold => exact h.calm u hold
    | inr hnew =>
        subst hnew
        exact hcalm

theorem Inv.grant (h : Inv s) {s' : Session} {id : ℕ} {credit : UInt32}
    (hs : s.grant id credit = .ok s') : Inv s' := by
  rw [Session.grant] at hs
  split at hs <;> cases hs
  case h_2 k _ =>
      cases ht : s.tasks[k]? with
      | none => exact h
      | some t => exact h.setTask ht rfl Iff.rfl (fun hk => h.accepting _ t hk ht) (h.calm t (List.mem_of_getElem? ht))

theorem Inv.cancel (h : Inv s) {s' : Session} {id : ℕ} (hs : s.cancel id = .ok s') : Inv s' := by
  rw [Session.cancel] at hs
  split at hs <;> cases hs
  exact ⟨h.fits, h.pending, h.replying, h.accepting, h.calm⟩

theorem grant_error {id : ℕ} {credit : UInt32} {e : Failure} (h : s.grant id credit = .error e) :
    s.streams.lookup id = none := by
  rw [Session.grant] at h
  split at h <;> cases h
  assumption

theorem cancel_error {id : ℕ} {e : Failure} (h : s.cancel id = .error e) :
    s.streams.lookup id = none := by
  rw [Session.cancel] at h
  split at h <;> cases h
  assumption

/-- `dispatch` goes on to something that has no reply of its own, or one that the
exchange of its id allows. -/
theorem Inv.reply (h : Inv s) {id : ℕ} {body : Body}
    (hbody : s.exchange id = none ∨ body.isFinal = false) : Inv (s.reply id body) := by
  refine ⟨h.fits, h.pending, fun r hr => ?_, fun k t hk => ?_, h.calm⟩
  · cases hr
    exact hbody
  · cases hk

theorem exchange_received (s : Session) (r : Request) (id : ℕ) :
    exchange { s with trace := s.trace ++ [Event.received r] } id =
      track id (s.exchange id) (.received r) := by
  rw [exchange, List.foldl_append]
  rfl

theorem track_none (id : ℕ) (r : Request) : track id none (.received r) = none := by
  cases r <;> first | rfl | exact ite_self none

theorem Inv.received (h : Inv s) {r : Request} (hr : s.Orderly (.receive r)) :
    Inv { s with trace := s.trace ++ [Event.received r] } := by
  have hnone : ∀ id, s.exchange id = none →
      exchange { s with trace := s.trace ++ [Event.received r] } id = none := by
    intro id hid
    rw [exchange_received, hid, track_none]
  refine ⟨fun id => ?_, fun id hid => hnone id (h.pending id hid),
    fun r' hr' => (h.replying r' hr').imp_left (hnone r'.id), h.accepting, h.calm⟩
  rw [exchange_received]
  cases r with
  | subscribe i from_ mode credit =>
      by_cases heq : i = id
      · rw [track, if_pos heq]
        exact heq ▸ hr.1
      · rw [track, if_neg heq]
        exact h.fits id
  | other i =>
      by_cases heq : i = id
      · rw [track, if_pos heq]
        exact heq ▸ hr.1
      · rw [track, if_neg heq]
        exact h.fits id
  | credit i credit => exact h.fits id
  | cancel i => exact h.fits id

theorem exchange_accept (s : Session) (id : ℕ) (stream : Stream) (credit : UInt32) (i : ℕ) :
    (s.accept id stream credit).exchange i = if id = i then some [] else s.exchange i := by
  rw [exchange, accept, List.foldl_append]
  rfl

theorem openOn_accept (s : Session) (id : ℕ) (stream : Stream) (credit : UInt32) (i : ℕ) :
    (s.accept id stream credit).openOn i = s.openOn i + if id = i then 1 else 0 := by
  simp [openOn, accept, List.countP_append, List.countP_singleton]

theorem Inv.accept (h : Inv s) {id : ℕ} {stream : Stream} {credit : UInt32}
    (hfree : s.openOn id = 0) (hid : id ∉ s.pending)
    (hcalm : ∀ frame cursor last, stream.phase = .sending frame cursor last →
      (Body.push frame).isFinal = false) : Inv (s.accept id stream credit) := by
  refine ⟨fun i => ?_, fun i hi => ?_, fun r hr => ?_, fun k t hk ht => ?_, fun t ht => ?_⟩
  · rw [exchange_accept, openOn_accept]
    by_cases heq : id = i
    · rw [if_pos heq, if_pos heq, ← heq, hfree]
      exact .inl ⟨rfl, quiet_nil⟩
    · rw [if_neg heq, if_neg heq]
      exact h.fits i
  · rw [exchange_accept, if_neg (fun heq : id = i => hid (heq ▸ hi))]
    exact h.pending i hi
  · cases hr
  · cases hk
    rw [Session.accept, List.getElem?_concat_length] at ht
    cases ht
    rfl
  · cases List.mem_append.mp ht with
    | inl hold => exact h.calm t hold
    | inr hnew =>
        obtain rfl := List.mem_singleton.mp hnew
        exact hcalm

theorem new_calm (from_ : ℕ) (mode : Mode) {frame : Frame} {cursor : ℕ} {last : Bool}
    (h : (Stream.new from_ mode).phase = .sending frame cursor last) :
    (Body.push frame).isFinal = false := by
  cases mode <;> cases h

theorem Inv.receive (h : Inv s) {r : Request} (hr : s.Orderly (.receive r))
    (found : Except Failure Bool) (answered : Option Body) :
    Inv (s.receive found answered r) := by
  have hs := h.received hr
  have hx := exchange_received s r
  rw [Session.receive]
  generalize ht : ({ s with trace := s.trace ++ [Event.received r] } : Session) = t at hs hx
  have hstreams : t.streams = s.streams := by rw [← ht]
  cases r with
  | subscribe id from_ mode credit =>
      have hnone : t.exchange id = none := by rw [hx, track, if_pos rfl]
      have hfree : t.openOn id = 0 ∧ id ∉ t.pending := by rw [← ht]; exact hr
      simp only [take]
      cases found with
      | error e => exact hs.reply (.inl hnone)
      | ok reducible =>
          simp only
          split_ifs
          · exact hs.reply (.inl hnone)
          · exact hs.reply (.inl hnone)
          · exact hs.accept hfree.1 hfree.2 fun _ _ _ => new_calm from_ mode
  | credit id credit =>
      simp only [take]
      cases hg : t.grant id credit with
      | ok t' => exact (hs.grant hg).reply (.inr rfl)
      | error e =>
          refine hs.reply (.inl ((hx id).trans (hr.resolve_right ?_)))
          rw [← hstreams, grant_error hg]
          exact Bool.noConfusion
  | cancel id =>
      simp only [take]
      cases hc : t.cancel id with
      | ok t' => exact hs.cancel hc
      | error e =>
          refine hs.reply (.inl ((hx id).trans (hr.resolve_right ?_)))
          rw [← hstreams, cancel_error hc]
          exact Bool.noConfusion
  | other id =>
      have hnone : t.exchange id = none := by rw [hx, track, if_pos rfl]
      simp only [take]
      cases answered with
      | some body => exact hs.reply (.inl hnone)
      | none =>
          refine ⟨hs.fits, fun i hi => ?_, hs.replying, hs.accepting, hs.calm⟩
          cases List.mem_append.mp hi with
          | inl hold => exact hs.pending i hold
          | inr hnew =>
              obtain rfl := List.mem_singleton.mp hnew
              exact hnone

theorem step_calm {t : Stream} (limits : Limits) (shared : Shared) (granted : ℕ)
    (ht : ∀ frame cursor last, t.phase = .sending frame cursor last →
      (Body.push frame).isFinal = false) {frame : Frame} {cursor : ℕ} {last : Bool}
    (h : (t.step limits shared granted).phase = .sending frame cursor last) :
    (Body.push frame).isFinal = false := by
  rw [Stream.step] at h
  split at h
  case h_3 =>
      dsimp only at h
      split at h <;> cases h
      rfl
  case h_7 =>
      split at h <;> cases h
  all_goals first | exact ht _ _ _ h | (split at h <;> cases h) | cases h

theorem Inv.sendInHand (h : Inv s) {k : ℕ} {t : Task} (ht : s.tasks[k]? = some t)
    (live : t.stage = .serving) : Inv (s.sendInHand t) := by
  rw [Session.sendInHand]
  split
  case h_1 frame cursor last hphase =>
      exact h.send_open ht (by rw [live]; exact Stage.noConfusion)
        (h.calm t (List.mem_of_getElem? ht) _ _ _ hphase)
  case h_2 => exact h

theorem sendInHand_tasks (s : Session) (t : Task) : (s.sendInHand t).tasks = s.tasks := by
  rw [sendInHand]
  split <;> rfl

/-- The last frame of a task closes the exchange of its id. -/
theorem Inv.finish (h : Inv s) {k : ℕ} {t : Task} (ht : s.tasks[k]? = some t)
    (behind : t.stage = .forgotten) :
    Inv ((s.setTask k { t with stage := .done }).send ⟨t.id, .ended⟩) := by
  have hopen : t.stage ≠ .done := by
    rw [behind]
    exact Stage.noConfusion
  obtain ⟨hone, rs, hrs, hquiet⟩ := h.quiet ht hopen
  have hcount : ∀ id, ((s.setTask k { t with stage := .done }).send ⟨t.id, .ended⟩).openOn id +
      (if t.id = id then 1 else 0) = s.openOn id := by
    intro id
    have hset := openOn_setTask { t with stage := .done } ht id
    simp only [ne_eq, hopen, not_false_eq_true, and_true, not_true_eq_false, and_false,
      if_false, Nat.add_zero] at hset
    exact hset
  have hx : ∀ id, ((s.setTask k { t with stage := .done }).send ⟨t.id, .ended⟩).exchange id =
      if t.id = id then (s.exchange id).map (· ++ [⟨t.id, .ended⟩]) else s.exchange id :=
    fun id => exchange_send _ _ id
  refine ⟨fun id => ?_, fun id hid => ?_, fun r hr => ?_, fun j u hj hu => ?_, fun u hu => ?_⟩
  · have hn := hcount id
    rw [hx]
    by_cases heq : t.id = id
    · subst heq
      rw [if_pos rfl] at hn ⊢
      rw [hrs]
      exact .inr ⟨by omega, rs, rfl, hquiet⟩
    · rw [if_neg heq] at hn ⊢
      exact (Nat.add_zero _).symm.trans hn ▸ h.fits id
  · rw [hx, h.pending id hid]
    exact ite_self none
  · rw [hx]
    refine (h.replying r hr).imp_left fun hnone => ?_
    rw [hnone]
    exact ite_self none
  · by_cases heq : j = k
    · have hstage := h.accepting k t (heq ▸ hj) ht
      rw [behind] at hstage
      cases hstage
    · refine h.accepting j u hj ?_
      rw [← hu]
      exact (List.getElem?_set_ne (Ne.symm heq)).symm
  · cases List.mem_or_eq_of_mem_set hu with
    | inl hold => exact h.calm u hold
    | inr hnew =>
        subst hnew
        exact h.calm t (List.mem_of_getElem? ht)

/-- A task in `serve` goes on. -/
theorem Inv.serving (h : Inv s) {k : ℕ} {t t' : Task} (ht : s.tasks[k]? = some t)
    (live : t.stage = .serving) (hid : t'.id = t.id) (hstage : t'.stage ≠ .done)
    (hcalm : ∀ frame cursor last, t'.stream.phase = .sending frame cursor last →
      (Body.push frame).isFinal = false) : Inv (s.setTask k t') := by
  refine h.setTask ht hid ?_ (fun hk => ?_) hcalm
  · rw [live]
    exact ⟨fun hdone => absurd hdone hstage, Stage.noConfusion⟩
  · have haccepted := h.accepting k t hk ht
    rw [live] at haccepted
    cases haccepted

theorem Inv.idle (h : Inv s) : Inv { s with dispatch := .idle } := by
  refine ⟨h.fits, h.pending, fun r hr => ?_, fun k t hk => ?_, h.calm⟩
  · cases hr
  · cases hk

theorem Task.ne_done {t : Task} {stage : Stage} (h : t.stage = stage) (hs : stage ≠ .done) :
    t.stage ≠ .done := fun hdone => hs (h.symm.trans hdone)

/-- What one move keeps. -/
theorem Inv.step {m : Move} {s' : Session} (h : Inv s) (hm : s.Orderly m) (hs : Step s m s') :
    Inv s' := by
  cases hs with
  | receive idle => exact h.receive hm _ _
  | @reply r hr =>
      refine h.idle.send fun rs hrs => ?_
      cases h.replying r hr with
      | inl hnone =>
          have hcontra := hrs.symm.trans hnone
          cases hcontra
      | inr hbody => exact (hm r hr rs hrs).concat hbody
  | @spawn k t hk ht =>
      have hopen := Task.ne_done (h.accepting k t hk ht) (by decide)
      have hspawned : Inv ({ s with dispatch := .idle }.setTask k { t with stage := .serving }) :=
        h.idle.setTask ht rfl ⟨Stage.noConfusion, fun hdone => absurd hdone hopen⟩
          (fun hk => by cases hk) (h.calm t (List.mem_of_getElem? ht))
      dsimp only
      split
      · exact hspawned
      · refine hspawned.send_open (k := k) (t := { t with stage := .serving }) ?_ ?_ rfl
        · exact List.getElem?_set_self (List.getElem?_eq_some_iff.mp ht).1
        · exact Stage.noConfusion
  | @pump id rest hp body =>
      have hrest : Inv { s with pending := rest } :=
        ⟨h.fits, fun i hi => h.pending i (hp ▸ List.mem_cons_of_mem _ hi), h.replying, h.accepting,
          h.calm⟩
      exact hrest.send_none (h.pending id (hp ▸ List.mem_cons_self))
  | steerCredit _ hg => exact h.grant hg
  | steerCancel _ hc => exact h.cancel hc
  | @serve k t ht live limits shared =>
      have ht' : (s.sendInHand t).tasks[k]? = some t := by
        rw [sendInHand_tasks]
        exact ht
      exact (h.sendInHand ht live).serving ht' live rfl (Task.ne_done live (by decide))
        fun _ _ _ => step_calm limits shared t.granted (h.calm t (List.mem_of_getElem? ht))
  | @viewed k t ht live asked answer =>
      obtain ⟨view, rfl⟩ := hm
      refine h.serving ht live rfl (Task.ne_done live (by decide)) fun _ _ _ hphase => ?_
      cases hphase
      rfl
  | @caughtUp k t _ _ ht live asked answer =>
      obtain ⟨found, rfl⟩ := hm
      refine h.serving ht live rfl (Task.ne_done live (by decide)) fun _ _ _ hphase => ?_
      match found, hphase with
      | .records [], hphase => cases hphase
      | .records (_ :: _), hphase =>
          cases hphase
          rfl
      | .gap _, hphase =>
          cases hphase
          rfl
  | cancelled ht live =>
      exact h.serving ht live rfl (Task.ne_done live (by decide)) fun _ _ _ h => by cases h
  | orphaned ht live =>
      exact h.serving ht live rfl (Task.ne_done live (by decide)) fun _ _ _ h => by cases h
  | @forget k t ht live ended =>
      exact serving (s := s.forget t.id) ⟨h.fits, h.pending, h.replying, h.accepting, h.calm⟩ ht
        live rfl Stage.noConfusion (h.calm t (List.mem_of_getElem? ht))
  | finish ht behind => exact h.finish ht behind

theorem inv_new (token : Bool) : Inv (new token) :=
  ⟨fun _ => rfl, List.forall_mem_nil _, fun _ h => (nomatch h), fun _ _ h => (nomatch h),
    List.forall_mem_nil _⟩

theorem Reaches.inv {token : Bool} (h : Reaches Orderly token s) : Inv s := by
  induction h with
  | start => exact inv_new token
  | step _ hm hs ih => exact ih.step hm hs

theorem Inv.dropLast (h : Inv s) {id : ℕ} {rs : List Response} (hrs : s.exchange id = some rs) :
    Quiet rs.dropLast ∧
      (s.openOn id = 0 → ∃ r, rs.getLast? = some r ∧ r.body.isFinal = true) := by
  have hfits := h.fits id
  rw [hrs] at hfits
  cases hfits with
  | inl hone =>
      exact ⟨fun r hr => hone.2 r (List.dropLast_subset rs hr), fun hzero => by omega⟩
  | inr hended =>
      obtain ⟨-, rs', rfl, hquiet⟩ := hended
      rw [List.dropLast_concat, List.getLast?_concat]
      exact ⟨hquiet, fun _ => ⟨_, rfl, rfl⟩⟩

/-- A task that has left `serve` gets to its `End`. -/
theorem closes {k : ℕ} {t : Task} (ht : s.tasks[k]? = some t) (live : t.stage = .serving)
    (ended : t.stream.phase = .ended) :
    ∃ s₁ s₂, Step s (.forget k) s₁ ∧ Step s₁ (.finish k) s₂ ∧
      s₂.trace = s.trace ++ [.sent ⟨t.id, .ended⟩] := by
  have hlt := (List.getElem?_eq_some_iff.mp ht).1
  refine ⟨_, _, .forget ht live ended, .finish (t := { t with stage := .forgotten }) ?_ rfl, rfl⟩
  exact List.getElem?_set_self hlt

/-- Every exchange of an orderly connection has one final frame. -/
theorem one_final_of_orderly {token : Bool} (h : Reaches Orderly token s) : OneFinal s :=
  ⟨fun _ _ hrs => h.inv.dropLast hrs, fun _ _ => closes⟩

/-- A subscription that is cancelled before it had any credit. -/
theorem one_final_of_cancelled : ∃ s, Reaches Orderly false s ∧
    s.exchange 1 = some [⟨1, .ok⟩, ⟨1, .ended⟩] ∧ OneFinal s := by
  have h₀ : Reaches Orderly false (new false) := .start
  have h₁ := h₀.step (m := .receive (.subscribe 1 0 .records 0)) ⟨rfl, by decide⟩
    (@Step.receive _ _ (.ok true) none rfl)
  have h₂ := h₁.step (m := .spawn) trivial (.spawn rfl rfl)
  have h₃ := h₂.step (m := .serve 0) trivial
    (.serve rfl rfl ⟨256, 0⟩ ⟨⟨1, [], by decide, by decide⟩, 0, 0, ⟨0, 0, 0⟩⟩)
  have h₄ := h₃.step (m := .receive (.cancel 1)) (.inr rfl)
    (@Step.receive _ _ (.ok true) none rfl)
  have h₅ := h₄.step (m := .leave 0) trivial
    (.cancelled rfl rfl (by decide) (.inl ⟨0, rfl⟩))
  have h₆ := h₅.step (m := .forget 0) trivial (.forget rfl rfl rfl)
  have h₇ := h₆.step (m := .finish 0) trivial (.finish rfl rfl)
  exact ⟨_, h₇, rfl, one_final_of_orderly h₇⟩

/-- A view that cannot be had is answered by an error, and then by an `End`. -/
theorem error_then_end :
    ¬ ∀ (token : Bool) (s : Session), Reaches (fun _ _ => True) token s → OneFinal s := by
  intro h
  have h₀ : Reaches (fun _ _ => True) false (new false) := .start
  have h₁ := h₀.step (m := .receive (.subscribe 1 0 .reducible 0)) trivial
    (@Step.receive _ _ (.ok true) none rfl)
  have h₂ := h₁.step (m := .spawn) trivial (.spawn rfl rfl)
  have h₃ := h₂.step trivial
    (.viewed (k := 0) rfl rfl rfl (.error ⟨.internal, "log actor stopped"⟩))
  have h₄ := h₃.step (m := .serve 0) trivial
    (.serve rfl rfl ⟨256, 0⟩ ⟨⟨1, [], by decide, by decide⟩, 0, 0, ⟨0, 0, 0⟩⟩)
  have h₅ := h₄.step (m := .forget 0) trivial (.forget rfl rfl rfl)
  have h₆ := h₅.step (m := .finish 0) trivial (.finish rfl rfl)
  have hquiet := ((h false _ h₆).1 1 _ rfl).1
  exact absurd (hquiet ⟨1, .error ⟨.internal, "log actor stopped"⟩⟩
    (List.mem_cons_of_mem _ List.mem_cons_self)) Bool.noConfusion

end Session

end Lug.Server
