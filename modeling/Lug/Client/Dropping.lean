import Lug.Client.Conn
import Lug.Client.Overrun

/-!
What becomes of a stream of the server when its subscription is dropped: a `Cancel` goes
into the command queue of the connection, if the subscription has not ended for its
consumer and there is room in the queue at that instant.
-/

namespace Lug.Client

open Lug.Server

/-- `lug_proto::Request`, as far as `drop` looks into it. -/
inductive Ask
  | cancel
  | other

/-- A connection and the queue in front of it. `promised` are the places in the queue that
belong to senders which have not filled them yet: a permit, or one that went to a sender
that waits for it. -/
structure Wired (P : Type) where
  conn : Conn P Ask
  capacity : ℕ
  queue : List (Conn.Command Ask)
  promised : ℕ

namespace Wired

variable {P : Type} {w w' : Wired P}

/-- There is a place in the queue that is nobody's. -/
def Room (w : Wired P) : Prop := w.queue.length + w.promised < w.capacity

instance (w : Wired P) : Decidable w.Room := inferInstanceAs (Decidable (_ < _))

def push (w : Wired P) (cmd : Conn.Command Ask) : Wired P := { w with queue := w.queue ++ [cmd] }

/-- `Sender::try_send`. -/
def trySend (w : Wired P) (cmd : Conn.Command Ask) : Wired P :=
  if w.conn.running ∧ w.Room then w.push cmd else w

/-- What happens at a connection that stays alive, and the command its task receives if it does. -/
inductive Turn (cap : ℕ) (w : Wired P) : Option (Conn.Command Ask) → Wired P → Prop
  | send (cmd : Conn.Command Ask) (room : w.Room) : Turn cap w none (w.push cmd)
  | reserve (room : w.Room) : Turn cap w none { w with promised := w.promised + 1 }
  | fulfil (cmd : Conn.Command Ask) (h : 0 < w.promised) :
      Turn cap w none { w.push cmd with promised := w.promised - 1 }
  | release (h : 0 < w.promised) : Turn cap w none { w with promised := w.promised - 1 }
  | receive {cmd rest conn} (h : w.queue = cmd :: rest)
      (accepts : w.conn.step cap (.command (some cmd)) = some conn) :
      Turn cap w (some cmd) { w with conn, queue := rest }
  | serve {e : Conn.Event P Ask} {conn} (other : ∀ cmd, e ≠ .command cmd)
      (h : w.conn.step cap e = some conn) (alive : conn.running = true) :
      Turn cap w none { w with conn }

/-- A run, with the commands the task received. -/
inductive Runs (cap : ℕ) (w : Wired P) : List (Conn.Command Ask) → Wired P → Prop
  | refl : Runs cap w [] w
  | turn {received w₁ cmd w'} (h : Runs cap w received w₁) (ht : Turn cap w₁ cmd w') :
      Runs cap w (received ++ cmd.toList) w'

/-- The queue is received in its order, and nothing is lost from it. -/
theorem Turn.queue {cap : ℕ} {cmd : Option (Conn.Command Ask)} (h : Turn cap w cmd w') :
    ∃ more, cmd.toList ++ w'.queue = w.queue ++ more := by
  cases h with
  | send cmd | fulfil cmd => exact ⟨[cmd], rfl⟩
  | reserve | release | serve => exact ⟨[], (List.append_nil _).symm⟩
  | receive hq =>
      refine ⟨[], ?_⟩
      rw [hq, List.append_nil]
      rfl

theorem Runs.queue {cap : ℕ} {received : List (Conn.Command Ask)} (h : Runs cap w received w') :
    ∃ more, received ++ w'.queue = w.queue ++ more := by
  induction h with
  | refl => exact ⟨[], (List.append_nil _).symm⟩
  | turn _ ht ih =>
      obtain ⟨more, hmore⟩ := ih
      obtain ⟨last, hlast⟩ := ht.queue
      refine ⟨more ++ last, ?_⟩
      rw [List.append_assoc, hlast, ← List.append_assoc, hmore, List.append_assoc]

/-- A command is handed to the task: whatever happens, it waits in the queue or was
received, and it was received once the task has received all that waits by now. -/
def Hands (cap : ℕ) (w : Wired P) (cmd : Conn.Command Ask) : Prop :=
  ∀ received w', Runs cap w received w' →
    (cmd ∈ received ∨ cmd ∈ w'.queue) ∧ (w.queue.length ≤ received.length → cmd ∈ received)

theorem hands_iff {cap : ℕ} {cmd : Conn.Command Ask} : w.Hands cap cmd ↔ cmd ∈ w.queue := by
  constructor
  · intro h
    exact (h [] w .refl).1.resolve_left List.not_mem_nil
  · intro h received w' hruns
    obtain ⟨more, hmore⟩ := hruns.queue
    have hmem : cmd ∈ received ++ w'.queue := by
      rw [hmore]
      exact List.mem_append_left _ h
    refine ⟨List.mem_append.mp hmem, fun hlength => ?_⟩
    have hprefix : w.queue <+: received :=
      List.prefix_of_prefix_length_le ⟨more, rfl⟩ ⟨w'.queue, hmore⟩ hlength
    exact hprefix.subset h

end Wired

namespace Frames

/-- `Drop` of `Frames`. A place in the queue that the subscription waits for itself, to
grant credit, is promised to it until after its drop. -/
def drop {P : Type} (f : Frames) (id : ℕ) (w : Wired P) : Wired P :=
  let w := if f.done then w else w.trySend (.fire ⟨id, .cancel⟩)
  w.trySend (.forget id)

end Frames

/-! ### When a subscription is done -/

namespace Poll

/-- The consumer is told that nothing more comes. -/
def last : Poll → Bool
  | .none | .error _ => true
  | .pending | .frame _ => false

end Poll

namespace Frames

theorem done_pollFrom {f : Frames} (h : f.done = false) (ready : ℕ → Bool)
    (rx : List (Except Error Body)) :
    (f.pollFrom ready rx).2.done = (f.pollFrom ready rx).1.last := by
  induction rx generalizing f ready with
  | nil =>
      rw [pollFrom_nil]
      split
      · exact (same_maybeGrant (ready 0) f).1.trans h
      · rfl
  | cons item rx ih =>
      have hgrant := (same_maybeGrant (ready 0) f).1.trans h
      match item with
      | .ok .ok | .ok .welcome => exact ih hgrant _
      | .error _ | .ok .ended => rfl
      | .ok (.pushed (.records sent)) => exact ((same_maybeGrant (ready 1) _).1).trans hgrant
      | .ok .answer | .ok (.error _) | .ok (.pushed (.view _ _)) | .ok (.pushed (.gap _ _))
      | .ok (.pushed (.error _)) => exact hgrant

/-- A poll that tells the consumer of the end is what makes a subscription done. -/
theorem done_pollNext (f : Frames) (ready : ℕ → Bool) :
    (f.pollNext ready).2.done = (f.pollNext ready).1.last := by
  rw [pollNext]
  split
  case isTrue hdone => exact hdone
  case isFalse hdone => exact done_pollFrom (Bool.eq_false_iff.mpr hdone) ready f.rx

theorem done_deliver (f : Frames) (body : Body) : (f.deliver body).done = f.done := by
  rw [deliver]
  split_ifs <;> rfl

theorem done_fail (f : Frames) : f.fail.done = f.done := by
  rw [fail]
  split_ifs <;> rfl

end Frames

namespace Link

variable {l l' : Link}

theorem Step.done (h : Step l l') : l'.frames.done = l.frames.done ∨
    ∃ ready, l'.frames = (l.frames.pollNext ready).2 := by
  cases h with
  | poll ready => exact .inr ⟨ready, rfl⟩
  | deliver => exact .inl (Frames.done_deliver _ _)
  | lost => exact .inl (Frames.done_fail _)
  | _ => exact .inl rfl

/-- The consumer of a subscription that is done was told of its end, be it the end of the
stream, an error of the server, the connection or `Overrun`. -/
theorem Reaches.told {id from_ : ℕ} {mode : Mode} {window : UInt32}
    (h : Reaches (start id from_ mode window) l) (hdone : l.frames.done = true) :
    ∃ l₁ ready, Reaches (start id from_ mode window) l₁ ∧
      (l₁.frames.pollNext ready).1.last = true := by
  induction h with
  | refl => cases hdone
  | @step l₁ l₂ hreach hs ih =>
      cases hs.done with
      | inl hsame => exact ih (hsame ▸ hdone)
      | inr hpoll =>
          obtain ⟨ready, hframes⟩ := hpoll
          refine ⟨l₁, ready, hreach, ?_⟩
          rw [← Frames.done_pollNext, ← hframes]
          exact hdone

end Link

/-! ### What a drop hands over -/

namespace Wired

variable {P : Type} {w : Wired P}

theorem mem_trySend {cmd cmd' : Conn.Command Ask} : cmd ∈ (w.trySend cmd').queue ↔
    cmd ∈ w.queue ∨ cmd = cmd' ∧ w.conn.running = true ∧ w.Room := by
  rw [trySend]
  split_ifs with hroom
  · simp only [push, List.mem_append, List.mem_singleton, hroom, and_true]
  · simp only [hroom, and_false, or_false]

end Wired

/-- A drop hands a `Cancel` to the task of a connection that is alive if and only if the
subscription has not ended for its consumer and the queue has room at that instant. -/
theorem cancel_handed_iff {P : Type} (f : Frames) (id : ℕ) (w : Wired P) (cap : ℕ)
    (alive : w.conn.running = true) (fresh : Conn.Command.fire ⟨id, Ask.cancel⟩ ∉ w.queue) :
    (f.drop id w).Hands cap (.fire ⟨id, .cancel⟩) ↔ f.done = false ∧ w.Room := by
  have hforget : ∀ v : Wired P,
      Conn.Command.fire ⟨id, Ask.cancel⟩ ∈ (v.trySend (.forget id)).queue ↔
      Conn.Command.fire ⟨id, Ask.cancel⟩ ∈ v.queue := by
    intro v
    rw [Wired.mem_trySend]
    exact or_iff_left fun h => nomatch h.1
  rw [Wired.hands_iff, Frames.drop, hforget]
  cases f.done with
  | true => exact iff_of_false fresh fun h => nomatch h.1
  | false =>
      simp only [Bool.false_eq_true, if_false, Wired.mem_trySend, alive, true_and]
      exact or_iff_right fresh

/-- A connection that does nothing, with this much room in its queue. -/
def idle (capacity : ℕ) : Wired Unit :=
  ⟨{ Conn.new with running := true }, capacity, [], 0⟩

theorem cancel_handed_iff_idle :
    ((Frames.opened 4).drop 7 (idle 2)).Hands 2 (.fire ⟨7, .cancel⟩) :=
  (cancel_handed_iff (Frames.opened 4) 7 (idle 2) 2 rfl List.not_mem_nil).mpr ⟨rfl, by decide⟩

/-- A window of one record is overrun by its own acknowledgement: the subscription is done
while its stream is served on, and its drop says nothing of it. Nor does one that finds the
queue full. -/
theorem dropped_without_cancel :
    (¬ ∀ (id from_ : ℕ) (mode : Mode) (window : UInt32) (l : Link) (w : Wired Unit),
      Link.Reaches (Link.start id from_ mode window) l → l.task.stage = .serving →
        w.conn.running = true → w.Room →
          (l.frames.drop id w).Hands 1 (.fire ⟨id, .cancel⟩)) ∧
    ¬ ∀ (id from_ : ℕ) (mode : Mode) (window : UInt32) (l : Link) (w : Wired Unit),
      Link.Reaches (Link.start id from_ mode window) l → l.task.stage = .serving →
        w.conn.running = true → l.frames.done = false →
          (l.frames.drop id w).Hands 1 (.fire ⟨id, .cancel⟩) := by
  constructor
  · intro h
    have h₀ : Link.Reaches (.start 7 0 .records 1) (.start 7 0 .records 1) := .refl
    have h₁ := h₀.step (.serve rfl ⟨256, 0⟩ Link.oneRecord)
    have h₂ := h₁.step (.serve rfl ⟨256, 0⟩ Link.oneRecord)
    have h₃ := h₂.step (.serve rfl ⟨256, 0⟩ Link.oneRecord)
    have h₄ := h₃.step (.serve rfl ⟨256, 0⟩ Link.oneRecord)
    have h₅ := (h₄.step (.deliver rfl)).step (.deliver rfl)
    have h₆ := h₅.step (.poll fun _ => true)
    have hhands := Wired.hands_iff.mp (h 7 0 .records 1 _ (idle 1) h₆ rfl rfl (by decide))
    cases hhands with
    | tail _ hmem => cases hmem
  · intro h
    have hhands := Wired.hands_iff.mp
      (h 7 0 .records 1 (.start 7 0 .records 1) (idle 0) .refl rfl rfl rfl)
    cases hhands

end Lug.Client
