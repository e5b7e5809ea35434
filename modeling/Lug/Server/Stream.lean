import Lug.Server.Commit

/-!
`lug_server::stream`: one subscription, a cursor, a credit balance and a wait on
the watermark; and the system it is part of. The stream reads what the actor
publishes without asking, and asks the actor only to catch up, so the actor is
cut here into the steps another task can see between: the log has the records,
then the ring, then the watermark, then the checkpoint, then the floor.
-/

namespace Lug

open Reducible

/-- `lug_proto::Mode`. -/
inductive Mode
  | records
  | reducible
  deriving DecidableEq, Repr

/-- `lug_proto::Record`, as a subscriber receives it. -/
structure Pushed where
  version : ℕ
  patch : Json

def Entry.pushed (e : Entry) : Pushed := ⟨e.version, e.patch⟩

/-- The frames a stream task sends, its final `End` apart. -/
inductive Frame
  | view (version : ℕ) (value : Json)
  | records (records : List Pushed)
  | gap (from_ to_ : ℕ)
  | error (failure : Failure)

/-- The part of `config::Limits` a stream reads. -/
structure Limits where
  push : ℕ
  pushBytes : ℕ

/-- Where a stream task stands between two things another task can see. -/
inductive Phase
  /-- It asked the actor for the view of its preamble. -/
  | opening
  /-- The top of the loop. -/
  | start
  /-- Its credit is used up; it waits for the flow to change. -/
  | parkedCredit (granted : ℕ)
  | credited (granted : ℕ)
  /-- Its cursor has reached this watermark; it waits for either to change. -/
  | parkedWatermark (watermark : ℕ)
  | reading (granted : ℕ)
  /-- It asked the actor for `limit` records after `after`. -/
  | awaiting (after limit : ℕ)
  /-- There was nothing to serve below the watermark it saw. -/
  | parkedEmpty
  /-- This frame is in its hands; the cursor moves to `cursor` with it. -/
  | sending (frame : Frame) (cursor : ℕ) (last : Bool)
  | ended

/-- `stream::Stream`, with the frames it has sent. -/
structure Stream where
  cursor : ℕ
  used : ℕ
  phase : Phase
  sent : List Frame

namespace Stream

def new (from_ : ℕ) : Mode → Stream
  | .records => ⟨from_, 0, .start, []⟩
  | .reducible => ⟨from_, 0, .opening, []⟩

/-- Records to push: they are charged before they are sent. -/
def push (s : Stream) (entries : List Entry) : Stream :=
  { s with
    used := s.used + entries.length
    phase := .sending (.records (entries.map Entry.pushed))
      (entries.getLast?.elim s.cursor Entry.version) false }

/-- What `serve` does up to the next point where another task may come between.
A parked task may be woken at any time. -/
def step (limits : Limits) (shared : Shared) (granted : ℕ) (s : Stream) : Stream :=
  match s.phase with
  | .start =>
      if granted ≤ s.used then { s with phase := .parkedCredit granted }
      else { s with phase := .credited granted }
  | .credited granted =>
      if shared.watermark ≤ s.cursor then { s with phase := .parkedWatermark shared.watermark }
      else { s with phase := .reading granted }
  | .reading granted =>
      let allowance := min (granted - s.used) limits.push
      match shared.ring.readAfter s.cursor allowance limits.pushBytes with
      | .records (entry :: entries) => s.push (entry :: entries)
      -- Below the ring: storage serves the catch-up, or reports the hole if
      -- the records were reclaimed.
      | _ => { s with phase := .awaiting s.cursor (max allowance 1) }
  | .parkedCredit _ | .parkedWatermark _ | .parkedEmpty => { s with phase := .start }
  | .sending frame cursor last =>
      { s with cursor, sent := s.sent ++ [frame], phase := if last then .ended else .start }
  | .opening | .awaiting _ _ | .ended => s

/-- The actor's answer to the catch-up. -/
def caughtUp (s : Stream) : Except Failure CatchUp → Stream
  | .ok (.records []) => { s with phase := .parkedEmpty }
  | .ok (.records entries) => s.push entries
  | .ok (.gap to_) => { s with phase := .sending (.gap s.cursor to_) to_ false }
  | .error e => { s with phase := .sending (.error e) s.cursor true }

/-- The actor's answer to the view of the preamble. The view already carries
everything up to its version. -/
def viewed (s : Stream) : Except Failure (ℕ × Json) → Stream
  | .ok (version, value) =>
      { s with phase := .sending (.view version value) (max s.cursor version) false }
  | .error e => { s with phase := .sending (.error e) s.cursor true }

end Stream

/-! ### The actor, cut where a stream can look -/

/-- What the actor still has to publish of the batch it appended. -/
inductive Publishing
  | idle
  | appended (entries : List Entry)
  | pushed
  | announced
  | checkpointed

variable {D S P V ι : Type} [TextCodec] [Versioned V] [Serde P] [Reducible D P V] [Storage S V]

namespace Actor

/-- One step of the actor, from one thing a stream can see to the next. -/
inductive Moves (ι : Type) : Actor D S × Publishing → Actor D S × Publishing → Prop
  | append {a : Actor D S} {jobs : List (Job P ι)} {views log} (metrics : Metrics)
      (decoded : ∀ job ∈ jobs, job.Decoded)
      (h : a.log.append (jobs.flatMap Job.patches) (maxRank (jobs.map Job.durability)) =
        (.ok views, log)) :
      Moves ι (a, .idle) ({ a with log, shared := { a.shared with metrics } },
        .appended (deal log.synced ((jobs.map Job.taken).zip
          (jobs.map fun job => job.patches.length)) (mintedVersions a.log.watermark views)).1)
  | fail {a : Actor D S} {jobs : List (Job P ι)} {e log}
      (decoded : ∀ job ∈ jobs, job.Decoded)
      (h : a.log.append (jobs.flatMap Job.patches) (maxRank (jobs.map Job.durability)) =
        (.error e, log)) :
      Moves ι (a, .idle) ({ a with log }, .idle)
  | nothing {a : Actor D S} : Moves ι (a, .appended []) (a, .idle)
  | push {a : Actor D S} {entries : List Entry} (h : entries ≠ []) :
      Moves ι (a, .appended entries)
        ({ a with shared := { a.shared with ring := a.shared.ring.push entries } }, .pushed)
  | announce {a : Actor D S} :
      Moves ι (a, .pushed)
        ({ a with shared := { a.shared with watermark := a.log.watermark } }, .announced)
  | checkpoint {a : Actor D S} : Moves ι (a, .announced) (a.autoCheckpoint, .checkpointed)
  | floor {a : Actor D S} :
      Moves ι (a, .checkpointed)
        ({ a with shared := { a.shared with oldest := a.log.oldest } }, .idle)
  | answer {a : Actor D S} (command : Command ι) :
      Moves ι (a, .idle) ((a.answer command).2, .idle)

open Relation

omit [TextCodec] [Versioned V] [Serde P] in
theorem publish_eq (a : Actor D S) {entries : List Entry} (h : entries ≠ []) :
    a.publish entries =
      let a := { a with shared := { a.shared with ring := a.shared.ring.push entries } }
      let a := { a with shared := { a.shared with watermark := a.log.watermark } }
      let a := a.autoCheckpoint
      { a with shared := { a.shared with oldest := a.log.oldest } } := by
  cases entries with
  | nil => exact absurd rfl h
  | cons entry entries => rfl

theorem publish_moves (a : Actor D S) (entries : List Entry) :
    ReflTransGen (Moves ι) (a, .appended entries) (a.publish entries, .idle) := by
  by_cases h : entries = []
  · subst h
    exact .single .nothing
  · rw [publish_eq a h]
    exact (((ReflTransGen.single (.push h)).tail .announce).tail .checkpoint).tail .floor

theorem commitWith_moves (a : Actor D S) {jobs : List (Job P ι)}
    (hjobs : ∀ job ∈ jobs, job.Decoded)
    (isolate : Actor D S → List (Job P ι) → List ℕ → List P →
      LogError (Reducible.Err D) (Storage.Err S) → List (ι × Reply) × Actor D S)
    (h : ∀ log e, ReflTransGen (Moves ι) ({ a with log }, .idle)
      ((isolate { a with log } (jobs.map Job.taken) (jobs.map fun job => job.patches.length)
        (jobs.flatMap Job.patches) e).2, .idle)) :
    ReflTransGen (Moves ι) (a, .idle) ((commitWith isolate a jobs).2, .idle) := by
  by_cases hempty : jobs.isEmpty
  · rw [commitWith, if_pos hempty]
  · rw [commitWith, if_neg hempty]
    rcases happend : a.log.append (jobs.flatMap Job.patches) (maxRank (jobs.map Job.durability))
      with ⟨e | views, log⟩
    · simp only [happend]
      exact (ReflTransGen.single (.fail hjobs happend)).trans (h log e)
    · simp only [happend]
      exact (ReflTransGen.single (.append _ hjobs happend)).trans (publish_moves _ _)

theorem replay_moves (a : Actor D S) {jobs : List (Job P ι)}
    (hjobs : ∀ job ∈ jobs, job.Decoded) :
    ReflTransGen (Moves ι) (a, .idle) ((a.replay jobs).2, .idle) := by
  induction jobs generalizing a with
  | nil => exact .refl
  | cons job jobs ih =>
      have hone : ∀ j ∈ [job], j.Decoded := by
        intro j hj
        exact hjobs j (List.mem_cons.mpr (.inl (List.mem_singleton.mp hj)))
      have hfirst := commitWith_moves a hone (fun a jobs _ _ e => refuse a jobs e)
        (fun _ _ => .refl)
      exact hfirst.trans (ih _ fun j hj => hjobs j (List.mem_cons_of_mem _ hj))

/-- A group commit is a sequence of these steps. -/
theorem commit_moves (a : Actor D S) {jobs : List (Job P ι)}
    (hjobs : ∀ job ∈ jobs, job.Decoded) :
    ReflTransGen (Moves ι) (a, .idle) ((a.commit jobs).2, .idle) := by
  refine commitWith_moves a hjobs isolate fun log e => ?_
  rw [isolate]
  split
  · exact .refl
  · rw [giveBack_taken]
    exact replay_moves _ hjobs

/-- And so is everything the actor does with a queue. -/
theorem drainFrom_moves (a : Actor D S) {batch : List (Job P ι)} {queue : List (Command ι)}
    (hbatch : ∀ job ∈ batch, job.Decoded) :
    ReflTransGen (Moves ι) (a, .idle) ((a.drainFrom batch queue).2, .idle) := by
  induction queue generalizing a batch with
  | nil => exact commit_moves a hbatch
  | cons command queue ih =>
      have hread : ∀ command : Command ι, ReflTransGen (Moves ι) (a, .idle)
          ((drainFrom ((a.commit batch).2.answer command).2 [] queue).2, .idle) :=
        fun command => ((commit_moves a hbatch).tail (.answer command)).trans (ih _ decoded_nil)
      cases command with
      | append raw durability reply =>
          rw [drainFrom]
          cases hraw : (decode raw : Except String (List P)) with
          | error e => exact ih a hbatch
          | ok decoded =>
              refine ih a fun job hjob => ?_
              cases List.mem_append.mp hjob with
              | inl hold => exact hbatch job hold
              | inr hnew =>
                  obtain rfl := List.mem_singleton.mp hnew
                  exact hraw
      | view at_ reply => exact hread (.view at_ reply)
      | catchUp after limit reply => exact hread (.catchUp after limit reply)
      | checkpoint reply => exact hread (.checkpoint reply)

end Actor

/-! ### The system -/

/-- The actor, the credit its client granted, and one stream task. -/
structure System (D S : Type) where
  actor : Actor D S
  publishing : Publishing
  granted : ℕ
  stream : Stream

namespace System

/-- One step of any party, in any order. `clear` is asked of a state in which the
actor answers the stream's catch-up. -/
inductive Step (ι : Type) (limits : Limits) (clear : System D S → Prop) :
    System D S → System D S → Prop
  | actor {s : System D S} {a p} (h : Actor.Moves ι (s.actor, s.publishing) (a, p)) :
      Step ι limits clear s { s with actor := a, publishing := p }
  | grant {s : System D S} (credit : UInt32) :
      Step ι limits clear s { s with granted := min (s.granted + credit.toNat) versionMax }
  | stream {s : System D S} :
      Step ι limits clear s
        { s with stream := s.stream.step limits s.actor.shared s.granted }
  | view {s : System D S} (idle : s.publishing = .idle) (asked : s.stream.phase = .opening) :
      Step ι limits clear s { s with stream := s.stream.viewed (s.actor.view none) }
  | catchUp {s : System D S} {after limit : ℕ} (idle : s.publishing = .idle)
      (asked : s.stream.phase = .awaiting after limit) (h : clear s) :
      Step ι limits clear s
        { s with stream := s.stream.caughtUp (s.actor.catchUp after limit) }
  /-- The connection goes away. -/
  | hangUp {s : System D S} :
      Step ι limits clear s { s with stream := { s.stream with phase := .ended } }

end System

end Lug
