import Lug.Core.Reducible
import Mathlib.Data.List.Basic

/-!
`lug_core::Storage`: what persists a log, and the contract its documentation
states. The contract speaks about a `Ledger`, the history a store stands for.
-/

namespace Lug

/-- One encoded patch at the version it minted. -/
structure Record where
  version : ℕ
  patch : Bytes
  deriving DecidableEq, Repr

/-- What a cold start found on disk. -/
structure Recovered (V : Type) where
  header : Option V
  tail : List Record

/-- `lug_core::Storage`. Every operation that may fail returns the store it
leaves behind as well. -/
class Storage (S : Type) (V : outParam Type) where
  Err : Type
  display : Err → String
  append : S → List Record → Except Err Unit × S
  writeHeader : S → V → Except Err Unit × S
  sync : S → Except Err Unit × S
  load : S → Except Err (Recovered V) × S
  readAfter : S → ℕ → ℕ → Except Err (List Record)
  oldest : S → ℕ

/-- The history of a store: every record an append took, in order, and the last
checkpoint. -/
structure Ledger (V : Type) where
  taken : List Record
  header : Option V

namespace Ledger

variable {V : Type}

def push (L : Ledger V) (records : List Record) : Ledger V :=
  { L with taken := L.taken ++ records }

def checkpoint (L : Ledger V) (view : V) : Ledger V := { L with header := some view }

/-- The highest version recorded or covered by the header. -/
def top [Versioned V] (L : Ledger V) : ℕ :=
  max (L.taken.getLast?.elim 0 Record.version) (L.header.elim 0 Versioned.version)

@[simp] theorem push_taken (L : Ledger V) (records : List Record) :
    (L.push records).taken = L.taken ++ records := rfl

@[simp] theorem push_header (L : Ledger V) (records : List Record) :
    (L.push records).header = L.header := rfl

@[simp] theorem checkpoint_taken (L : Ledger V) (view : V) :
    (L.checkpoint view).taken = L.taken := rfl

@[simp] theorem checkpoint_header (L : Ledger V) (view : V) :
    (L.checkpoint view).header = some view := rfl

@[simp] theorem push_nil (L : Ledger V) : L.push [] = L := by
  simp [push]

theorem push_push (L : Ledger V) (a b : List Record) :
    (L.push a).push b = L.push (a ++ b) := by
  simp [push]

end Ledger

/-- What a cold start may find of a history: the header up to its version and
document, and every record but some that the header covers. -/
structure Recovered.Resumes {V : Type} [Versioned V] (found : Recovered V)
    (L : Ledger V) : Prop where
  header : found.header.map (fun v => (Versioned.version v, Versioned.state v)) =
    L.header.map (fun v => (Versioned.version v, Versioned.state v))
  tail : ∃ covered, L.taken = covered ++ found.tail ∧
    ∀ r ∈ covered, ∃ v, L.header = some v ∧ r.version ≤ Versioned.version v

open Storage

/-- The contract of `Storage`. `Holds s L` says that the store `s` stands for the
history `L`, as far as `load`, `read_after` and `oldest` can tell. -/
class StorageContract (S : Type) {V : outParam Type} [Versioned V] [Storage S V] where
  Holds : S → Ledger V → Prop
  /-- On `Ok`, every record is recoverable. -/
  append_ok {s : S} {L : Ledger V} {records : List Record} : Holds s L →
    (append s records).1 = .ok () → Holds (append s records).2 (L.push records)
  /-- On `Err`, the store is left exactly as it was. -/
  append_error {s : S} {L : Ledger V} {records : List Record} {e} : Holds s L →
    (append s records).1 = .error e → Holds (append s records).2 L
  sync_holds {s : S} {L : Ledger V} : Holds s L → Holds (sync s).2 L
  writeHeader_ok {s : S} {L : Ledger V} {view : V} : Holds s L →
    (writeHeader s view).1 = .ok () → Holds (writeHeader s view).2 (L.checkpoint view)
  /-- A checkpoint that fails leaves the old header or the new one. -/
  writeHeader_error {s : S} {L : Ledger V} {view : V} {e} : Holds s L →
    (writeHeader s view).1 = .error e →
      Holds (writeHeader s view).2 L ∨ Holds (writeHeader s view).2 (L.checkpoint view)
  /-- Records in `(after, after + limit]`, unless they were reclaimed. -/
  readAfter_ok {s : S} {L : Ledger V} {after : ℕ} {limit : ℕ} {records} : Holds s L →
    oldest s ≤ after + 1 → readAfter s after limit = .ok records →
      records = (L.taken.filter (after < ·.version)).take limit
  /-- A cold start gets the last checkpoint, as far as its serialized form tells
  it apart, and at least the records above it. -/
  load_ok {s : S} {L : Ledger V} {found : Recovered V} : Holds s L →
    (load s).1 = .ok found → Holds (load s).2 L ∧ found.Resumes L
  /-- `oldest` never moves back, and never past the version to be written next. -/
  oldest_append {s : S} {L : Ledger V} {records} : Holds s L →
    oldest s ≤ oldest (append s records).2
  oldest_sync {s : S} {L : Ledger V} : Holds s L → oldest s ≤ oldest (sync s).2
  oldest_writeHeader {s : S} {L : Ledger V} {view : V} : Holds s L →
    oldest s ≤ oldest (writeHeader s view).2
  oldest_le {s : S} {L : Ledger V} : Holds s L → oldest s ≤ L.top + 1
  /-- The oldest version still readable is there, unless nothing is. -/
  oldest_mem {s : S} {L : Ledger V} : Holds s L → oldest s ≤ L.top →
    ∃ r ∈ L.taken, r.version = oldest s
  /-- Whatever is read was recorded, and anything below the oldest version has
  been reclaimed. -/
  readAfter_mem {s : S} {L : Ledger V} {after limit : ℕ} {records} : Holds s L →
    readAfter s after limit = .ok records →
      ∀ r ∈ records, r ∈ L.taken ∧ oldest s ≤ r.version

end Lug
