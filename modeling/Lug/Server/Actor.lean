import Lug.Core.Log
import Lug.Server.Ring

/-!
`lug_server::actor`: the only place a `Log` is touched. Replies go to senders of
an arbitrary type `ι`; every function returns the replies it sent, in order,
beside the actor it leaves behind.
-/

namespace Lug

open Reducible

/-- `lug_proto::Code`. -/
inductive Code
  | rejected
  | noSuchLog
  | logExists
  | notReducible
  | outOfRange
  | badId
  | unauthorized
  | malformed
  | storage
  | backpressure
  | internal
  deriving DecidableEq, Repr

structure Failure where
  code : Code
  message : String
  deriving DecidableEq, Repr

structure Ack where
  versions : List ℕ
  synced : ℕ
  deriving DecidableEq, Repr

/-- What a subscriber below the ring gets back. -/
inductive CatchUp
  | records (entries : List Entry)
  /-- Everything in `(after, to]` was reclaimed; resume at `to`. -/
  | gap (to_ : ℕ)

inductive Command (ι : Type)
  | append (patches : List Json) (durability : Durability) (reply : ι)
  | view (at_ : Option ℕ) (reply : ι)
  | catchUp (after limit : ℕ) (reply : ι)
  | checkpoint (reply : ι)

/-- What goes through the one-shot channel of a command. -/
inductive Reply
  | append (result : Except Failure Ack)
  | view (result : Except Failure (ℕ × Json))
  | catchUp (result : Except Failure CatchUp)
  | checkpoint (result : Except Failure Unit)

def Command.patchCount {ι : Type} : Command ι → ℕ
  | .append patches _ _ => patches.length
  | _ => 0

structure Metrics where
  patches : ℕ
  batches : ℕ
  syncs : ℕ

def Metrics.record (m : Metrics) (patches : ℕ) (synced : Bool) : Metrics :=
  ⟨m.patches + patches, m.batches + 1, if synced then m.syncs + 1 else m.syncs⟩

/-- Everything the actor publishes outward. -/
structure Shared where
  ring : Ring
  watermark : ℕ
  oldest : ℕ
  metrics : Metrics

structure Actor (D S : Type) where
  log : Log D S
  shared : Shared
  batch : ℕ
  checkpointEvery : ℕ
  checkpointed : ℕ

structure Job (P ι : Type) where
  raw : List Json
  patches : List P
  durability : Durability
  reply : ι

/-- A request whose patches were taken out of it. -/
def Job.taken {P ι : Type} (job : Job P ι) : Job P ι := { job with patches := [] }

def rank : Durability → ℕ
  | .memory => 0
  | .written => 1
  | .durable => 2

/-- The highest durability any of the requests asks for. -/
def maxRank (asked : List Durability) : Durability :=
  asked.foldl (fun best d => if rank best ≤ rank d then d else best) .memory

def decode {P : Type} [Serde P] (raw : List Json) : Except String (List P) :=
  raw.mapM Serde.fromValue

def codeFor {ED ES : Type} : LogError ED ES → Code
  | .data _ => .rejected
  | .storage _ => .storage
  | .codec _ => .rejected
  | .version _ _ => .internal

/-- The versions a batch minted, one slot a patch. A patch that changed nothing
mints no version, and the view it returns repeats the previous one. -/
def mintedVersions {V : Type} [Versioned V] : ℕ → List V → List (Option ℕ)
  | _, [] => []
  | last, view :: views =>
      let version := Versioned.version view
      (if last < version then some version else none) ::
        mintedVersions (max last version) views

/-- The entries of one request: its patches as they arrived, at the versions they
minted. -/
def kept (raw : List Json) (minted : List (Option ℕ)) : List Entry :=
  (raw.zip minted).filterMap fun (patch, minted) =>
    minted.map fun version => Entry.mk version patch (estimate patch)

@[simp] theorem kept_cons_some (j : Json) (raw : List Json) (v : ℕ) (minted : List (Option ℕ)) :
    kept (j :: raw) (some v :: minted) = ⟨v, j, estimate j⟩ :: kept raw minted := rfl

@[simp] theorem kept_cons_none (j : Json) (raw : List Json) (minted : List (Option ℕ)) :
    kept (j :: raw) (none :: minted) = kept raw minted := rfl

/-- The acknowledgement loop of `Actor::commit`: each request takes the slots of
its own patches. -/
def deal {P ι : Type} (synced : ℕ) :
    List (Job P ι × ℕ) → List (Option ℕ) → List Entry × List (ι × Ack)
  | [], _ => ([], [])
  | (job, count) :: jobs, minted =>
      let mine := kept job.raw (minted.take count)
      let (entries, acks) := deal synced jobs (minted.drop count)
      (mine ++ entries, (job.reply, ⟨mine.map Entry.version, synced⟩) :: acks)

/-- `Actor::isolate` gives the patches of a failed run back to their requests. -/
def giveBack {P ι : Type} : List (Job P ι) → List ℕ → List P → List (Job P ι)
  | job :: jobs, count :: counts, rest =>
      { job with patches := rest.take count } :: giveBack jobs counts (rest.drop count)
  | jobs, _, _ => jobs

variable {D S P V ι : Type} [TextCodec] [Versioned V] [Serde P] [Reducible D P V] [Storage S V]

namespace Actor

/-- `Actor::new`. -/
def new (log : Log D S) (shared : Shared) (batch checkpointEvery : ℕ) : Actor D S where
  log := log
  shared := { shared with watermark := log.watermark, oldest := log.oldest }
  batch := max batch 1
  checkpointEvery := checkpointEvery
  checkpointed := log.watermark

def failure (e : LogError (Reducible.Err D) (Storage.Err S)) : Failure :=
  ⟨codeFor e, e.display (Reducible.display (D := D)) (Storage.display (S := S))⟩

/-- The checkpoint an actor takes by itself. -/
def autoCheckpoint (a : Actor D S) : Actor D S :=
  if 0 < a.checkpointEvery ∧ a.checkpointEvery ≤ a.log.watermark - a.checkpointed then
    match a.log.checkpoint with
    | (.ok (), log) => { a with log, checkpointed := log.watermark }
    | (.error _, log) => { a with log }
  else a

/-- `Actor::publish`. The floor is read after the checkpoint, because that is
what reclaims segments. -/
def publish (a : Actor D S) (entries : List Entry) : Actor D S :=
  if entries.isEmpty then a else
  let shared := { a.shared with ring := a.shared.ring.push entries, watermark := a.log.watermark }
  let a := { a with shared }.autoCheckpoint
  { a with shared := { a.shared with oldest := a.log.oldest } }

/-- `Actor::commit`, with what it does about a failed run as an argument:
`Actor::isolate` calls it again, one request at a time. -/
def commitWith
    (isolate : Actor D S → List (Job P ι) → List ℕ → List P →
      LogError (Reducible.Err D) (Storage.Err S) → List (ι × Reply) × Actor D S)
    (a : Actor D S) (jobs : List (Job P ι)) : List (ι × Reply) × Actor D S :=
  if jobs.isEmpty then ([], a) else
  let durability := maxRank (jobs.map Job.durability)
  let counts := jobs.map fun job => job.patches.length
  let patches := jobs.flatMap Job.patches
  let jobs := jobs.map Job.taken
  let base := a.log.watermark
  match a.log.append patches durability with
  | (.error e, log) => isolate { a with log } jobs counts patches e
  | (.ok views, log) =>
      let metrics := a.shared.metrics.record patches.length (durability = .durable)
      let a := { a with log, shared := { a.shared with metrics } }
      let (entries, acks) := deal a.log.synced (jobs.zip counts) (mintedVersions base views)
      (acks.map fun (reply, ack) => (reply, .append (.ok ack)), a.publish entries)

/-- A run of one request that failed is that request's failure. -/
def refuse (a : Actor D S) (jobs : List (Job P ι))
    (e : LogError (Reducible.Err D) (Storage.Err S)) : List (ι × Reply) × Actor D S :=
  (jobs.map fun job => (job.reply, .append (.error (failure (D := D) (S := S) e))), a)

/-- Replay a failed run one request at a time. -/
def replay (a : Actor D S) : List (Job P ι) → List (ι × Reply) × Actor D S
  | [] => ([], a)
  | job :: jobs =>
      let (out, a) := commitWith (fun a jobs _ _ e => refuse a jobs e) a [job]
      let (rest, a) := replay a jobs
      (out ++ rest, a)

/-- `Actor::isolate`. -/
def isolate (a : Actor D S) (jobs : List (Job P ι)) (counts : List ℕ) (patches : List P)
    (e : LogError (Reducible.Err D) (Storage.Err S)) : List (ι × Reply) × Actor D S :=
  if jobs.length = 1 then refuse a jobs e
  else a.replay (giveBack jobs counts patches)

/-- `Actor::commit`. -/
def commit (a : Actor D S) (jobs : List (Job P ι)) : List (ι × Reply) × Actor D S :=
  commitWith isolate a jobs

/-- `Actor::view`. -/
def view (a : Actor D S) : Option ℕ → Except Failure (ℕ × Json)
  | some version =>
      match a.log.viewAt version with
      | none => .error ⟨.outOfRange, "version " ++ toString version ++ " is not retained"⟩
      | some view => .ok (Versioned.version view.view, Versioned.state view.view)
  | none => .ok (Versioned.version a.log.view.view, Versioned.state a.log.view.view)

/-- Read the patches of stored records back as the JSON a subscriber gets. -/
def entriesOf : List Record → Except String (List Entry)
  | [] => .ok []
  | record :: records =>
      match TextCodec.fromSlice record.patch with
      | .error e => .error e
      | .ok patch =>
          match entriesOf records with
          | .error e => .error e
          | .ok entries => .ok (⟨record.version, patch, record.patch.length⟩ :: entries)

/-- `Actor::catch_up`. -/
def catchUp (a : Actor D S) (after limit : ℕ) : Except Failure CatchUp :=
  -- Below retention is a gap, not a failure.
  let oldest := a.log.oldest
  if succ64 after < oldest then .ok (.gap (oldest - 1)) else
  match a.log.readAfter after limit with
  | .error e => .error ⟨.storage, (failure (D := D) (S := S) e).message⟩
  | .ok [] =>
      if a.log.watermark ≤ after then .ok (.records [])
      -- Nothing on disk and nothing in the ring below the cursor.
      else .ok (.gap ((a.shared.ring.oldest.getD (a.log.watermark + 1)) - 1))
  | .ok (first :: records) =>
      if first.version = succ64 after then
        match entriesOf (first :: records) with
        | .error e => .error ⟨.internal, e⟩
        | .ok entries => .ok (.records entries)
      -- Storage skipped ahead: the versions between were reclaimed.
      else .ok (.gap (first.version - 1))

/-- `Actor::answer`. Appends never get here: they are batched. -/
def answer (a : Actor D S) : Command ι → List (ι × Reply) × Actor D S
  | .view at_ reply => ([(reply, .view (a.view at_))], a)
  | .catchUp after limit reply => ([(reply, .catchUp (a.catchUp after limit))], a)
  | .checkpoint reply =>
      match a.log.checkpoint with
      | (.ok (), log) =>
          ([(reply, .checkpoint (.ok ()))], { a with log, checkpointed := log.watermark })
      | (.error e, log) =>
          ([(reply, .checkpoint (.error ⟨.storage, (failure (D := D) (S := S) e).message⟩))],
            { a with log })
  | .append _ _ _ => ([], a)

/-- `Actor::drain`, with the requests batched so far. A read must observe the
appends queued ahead of it. -/
def drainFrom (a : Actor D S) (batch : List (Job P ι)) :
    List (Command ι) → List (ι × Reply) × Actor D S
  | [] => a.commit batch
  | .append patches durability reply :: queue =>
      match decode patches with
      | .ok decoded => drainFrom a (batch ++ [⟨patches, decoded, durability, reply⟩]) queue
      | .error e =>
          let (out, a) := drainFrom a batch queue
          ((reply, .append (.error ⟨.rejected, e⟩)) :: out, a)
  | command :: queue =>
      let (committed, a) := a.commit batch
      let (answered, a) := a.answer command
      let (out, a) := drainFrom a [] queue
      (committed ++ answered ++ out, a)

def drain (a : Actor D S) (queue : List (Command ι)) :
    List (ι × Reply) × Actor D S :=
  drainFrom a [] queue

/-- The rest of `Actor::run` with a queue of commands in hand. A command comes
with whether it was already waiting when the actor looked; the actor stops
looking once the queue holds `batch` patches. -/
def runFrom (a : Actor D S) (queue : List (Command ι)) (patches : ℕ) :
    List (Bool × Command ι) → List (ι × Reply) × Actor D S
  | [] => a.drain queue
  | (waiting, command) :: commands =>
      if waiting ∧ patches < a.batch then
        runFrom a (queue ++ [command]) (patches + command.patchCount) commands
      else
        let (out, a) := a.drain queue
        let (rest, a) := runFrom a [command] command.patchCount commands
        (out ++ rest, a)

/-- `Actor::run` on everything that ever arrives in its inbox. -/
def run (a : Actor D S) :
    List (Bool × Command ι) → List (ι × Reply) × Actor D S
  | [] => ([], a)
  | (_, first) :: commands => runFrom a [first] first.patchCount commands

end Actor

end Lug
