import Lug.Core.Storage

/-!
`lug_core::Log`: a `Reducible` made durable by a `Storage`, function by function
as `log.rs` has it.
-/

namespace Lug

open Reducible Storage

/-- How far an append must get before it is acknowledged. -/
inductive Durability
  | memory
  | written
  | durable
  deriving DecidableEq, Repr

/-- `lug_core::Error`. -/
inductive LogError (ED ES : Type)
  | data (e : ED)
  | storage (e : ES)
  | codec (e : String)
  | version (expected actual : ℕ)

def LogError.display {ED ES : Type} (data : ED → String) (storage : ES → String) :
    LogError ED ES → String
  | .data e => "data structure rejected the patch: " ++ data e
  | .storage e => "storage failed: " ++ storage e
  | .codec e => "codec failed: " ++ e
  | .version expected actual =>
      "version " ++ toString actual ++ " is not the expected " ++ toString expected

structure Log (D S : Type) where
  data : D
  storage : S
  watermark : ℕ
  synced : ℕ

/-- A view plus the durability frontier it was observed under. -/
structure LogView (V : Type) where
  view : V
  synced : ℕ

variable {D S P V : Type} [Versioned V] [Serde P] [Reducible D P V] [Storage S V]

namespace Log

/-- The loop of `Log::open`: fold the records above the checkpoint. -/
def replay : D → List Record → Except (LogError (Reducible.Err D) (Storage.Err S)) D
  | data, [] => .ok data
  | data, record :: tail =>
      -- Covered by the checkpoint; storage may not have reclaimed it yet.
      if record.version ≤ version data then replay data tail
      else match Serde.fromSlice (P := P) record.patch with
      | .error e => .error (.codec e)
      | .ok patch =>
          match stagePatch data (stage data) patch with
          | .error e => .error (.data e)
          | .ok staged =>
              match commit data staged with
              | (.error e, _) => .error (.data e)
              | (.ok view, data) =>
                  let minted := view.elim 0 Versioned.version
                  if minted ≠ record.version then .error (.version record.version minted)
                  else replay data tail

/-- `Log::open`. -/
def «open» (zero : D) (storage : S) :
    Except (LogError (Reducible.Err D) (Storage.Err S)) (Log D S) :=
  match Storage.load storage with
  | (.error e, _) => .error (.storage e)
  | (.ok recovered, storage) =>
      let resumed : Except (LogError (Reducible.Err D) (Storage.Err S)) D :=
        match recovered.header with
        | some view => (Reducible.resume view).mapError .data
        | none => .ok zero
      match resumed with
      | .error e => .error e
      | .ok data =>
          match replay (S := S) data recovered.tail with
          | .error e => .error e
          | .ok data =>
              .ok { data, storage, watermark := version data, synced := version data }

def view (l : Log D S) : LogView V := { view := Reducible.view l.data, synced := l.synced }

def viewAt (l : Log D S) (at_ : ℕ) : Option (LogView V) :=
  if at_ ≤ l.watermark then
    (Reducible.viewAt l.data at_).map fun view => { view, synced := l.synced }
  else none

def readAfter (l : Log D S) (after : ℕ) (limit : ℕ) :
    Except (LogError (Reducible.Err D) (Storage.Err S)) (List Record) :=
  (Storage.readAfter l.storage after limit).mapError .storage

def oldest (l : Log D S) : ℕ := Storage.oldest l.storage

/-- The loop of `Log::append`: encode, stage and commit one patch after the
other, collecting the records and the views. A patch that is refused unwinds the
structure to `base`; one that cannot be encoded returns as it is. -/
def fold (base : ℕ) :
    D → List P → List Record → List V →
      Except (LogError (Reducible.Err D) (Storage.Err S)) (List Record × List V) × D
  | data, [], records, views => (.ok (records, views), data)
  | data, patch :: patches, records, views =>
      match Serde.toVec patch with
      | .error e => (.error (.codec e), data)
      | .ok encoded =>
          match stagePatch data (stage data) patch with
          | .error e => (.error (.data e), (truncate data base).2)
          | .ok staged =>
              match commit data staged with
              | (.ok (some view), data) =>
                  fold base data patches
                    (records ++ [{ version := Versioned.version view, patch := encoded }])
                    (views ++ [view])
              -- An identity patch mints no version and leaves no record.
              | (.ok none, data) =>
                  fold base data patches records (views ++ [Reducible.view data])
              | (.error e, data) => (.error (.data e), (truncate data base).2)

/-- `Log::append`. -/
def append (l : Log D S) (patches : List P) (durability : Durability) :
    Except (LogError (Reducible.Err D) (Storage.Err S)) (List V) × Log D S :=
  if patches.isEmpty then (.ok [], l) else
  match fold (S := S) l.watermark l.data patches [] [] with
  | (.error e, data) => (.error e, { l with data })
  | (.ok (records, views), data) =>
      match records.getLast? with
      | none => (.ok views, { l with data })
      | some last =>
          match Storage.append l.storage records with
          | (.error e, storage) =>
              (.error (.storage e), { l with data := (truncate data l.watermark).2, storage })
          | (.ok (), storage) =>
              -- Storage holds them now, so the watermark moves whether or not
              -- the flush below works.
              let l := { l with data, storage, watermark := last.version }
              if durability = .durable then
                match Storage.sync l.storage with
                | (.error e, storage) => (.error (.storage e), { l with storage })
                | (.ok (), storage) => (.ok views, { l with storage, synced := last.version })
              else (.ok views, l)

/-- `Log::checkpoint`. -/
def checkpoint (l : Log D S) :
    Except (LogError (Reducible.Err D) (Storage.Err S)) Unit × Log D S :=
  match Storage.writeHeader l.storage (Reducible.view l.data) with
  | (.error e, storage) => (.error (.storage e), { l with storage })
  | (.ok (), storage) =>
      match Storage.sync storage with
      | (.error e, storage) => (.error (.storage e), { l with storage })
      | (.ok (), storage) => (.ok (), { l with storage, synced := l.watermark })

/-- `Log::sync`. -/
def sync (l : Log D S) :
    Except (LogError (Reducible.Err D) (Storage.Err S)) Unit × Log D S :=
  match Storage.sync l.storage with
  | (.error e, storage) => (.error (.storage e), { l with storage })
  | (.ok (), storage) => (.ok (), { l with storage, synced := l.watermark })

end Log

end Lug
