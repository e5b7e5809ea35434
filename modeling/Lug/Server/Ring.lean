import Mathlib.Algebra.GroupWithZero.Nat
import Lug.Core.Json
import Lug.Core.Reducible
import Lug.Lib.Consecutive

/-!
`lug_server::ring`: recent records, shared by every subscriber of one log.
-/

namespace Lug

open Runs

/-- A record as subscribers see it. -/
structure Entry where
  version : ℕ
  patch : Json
  bytes : ℕ

/-- `a + 1` on `u64`. -/
def succ64 (a : ℕ) : ℕ := (a + 1) % 2 ^ 64

mutual

/-- Encoded size of a JSON value, without encoding it. -/
def estimate : Json → ℕ
  | .null => 4
  | .bool b => if b then 4 else 5
  | .number _ => 8
  | .string s => s.utf8ByteSize + 2
  | .array items => 2 + estimateItems items
  | .object fields => 2 + estimateFields fields

def estimateItems : List Json → ℕ
  | [] => 0
  | item :: items => estimate item + 1 + estimateItems items

def estimateFields : List (String × Json) → ℕ
  | [] => 0
  | (key, value) :: fields => key.utf8ByteSize + 4 + estimate value + estimateFields fields

end

/-- The fan-out buffer. -/
structure Ring where
  capacity : ℕ
  entries : List Entry
  pos : 0 < capacity
  bounded : entries.length ≤ capacity

/-- `ring::Read`. -/
inductive Read
  | records (entries : List Entry)
  /-- The cursor is below the oldest entry still held; storage must serve it. -/
  | tooOld

namespace Ring

def new (capacity : ℕ) : Ring := ⟨max capacity 1, [], by omega, by simp⟩

/-- One turn of the loop of `Ring::push`. -/
def pushOne (r : Ring) (entry : Entry) : Ring where
  capacity := r.capacity
  entries := (if r.entries.length = r.capacity then r.entries.tail else r.entries) ++ [entry]
  pos := r.pos
  bounded := by
    have hpos := r.pos
    have hbounded := r.bounded
    split <;> simp <;> omega

def push (r : Ring) (batch : List Entry) : Ring := batch.foldl pushOne r

def oldest (r : Ring) : Option ℕ := r.entries.head?.map Entry.version

/-- The loop of `Ring::read_after`: take entries until their bytes reach the
limit, the one that reaches it included. -/
def takeBytes (maxBytes : ℕ) : ℕ → List Entry → List Entry
  | _, [] => []
  | bytes, entry :: entries =>
      entry :: if maxBytes ≤ bytes + entry.bytes then []
        else takeBytes maxBytes (bytes + entry.bytes) entries

/-- Records in `(after, after + limit]`, stopping early at `maxBytes`. -/
def readAfter (r : Ring) (after limit maxBytes : ℕ) : Read :=
  match r.entries.head? with
  | none => .records []
  | some front =>
      if succ64 after < front.version then .tooOld
      else
        let skip := succ64 after - front.version
        .records (takeBytes maxBytes 0 ((r.entries.drop skip).take limit))

@[simp] theorem new_entries (capacity : ℕ) : (new capacity).entries = [] := rfl

theorem pushOne_entries (r : Ring) (entry : Entry) :
    (r.pushOne entry).entries = (r.entries ++ [entry]).rtake r.capacity := by
  have hpos := r.pos
  have hbounded := r.bounded
  simp only [pushOne, List.rtake, List.length_append, List.length_singleton]
  split
  · rename_i hfull
    rw [show r.entries.length + 1 - r.capacity = 1 by omega,
      List.drop_append_of_le_length (by omega), List.drop_one]
  · rw [show r.entries.length + 1 - r.capacity = 0 by omega, List.drop_zero]

@[simp] theorem push_capacity (r : Ring) (batch : List Entry) :
    (r.push batch).capacity = r.capacity := by
  induction batch generalizing r with
  | nil => rfl
  | cons entry batch ih => exact ih (r.pushOne entry)

/-- A push keeps the newest entries, as many as fit. -/
theorem push_entries (r : Ring) (batch : List Entry) :
    (r.push batch).entries = (r.entries ++ batch).rtake r.capacity := by
  induction batch generalizing r with
  | nil =>
      have hbounded := r.bounded
      rw [List.append_nil, List.rtake, show r.entries.length - r.capacity = 0 by omega,
        List.drop_zero]
      rfl
  | cons entry batch ih =>
      have hpush : r.push (entry :: batch) = (r.pushOne entry).push batch := rfl
      have hcapacity : (r.pushOne entry).capacity = r.capacity := rfl
      rw [hpush, ih, hcapacity, pushOne_entries, rtake_rtake_append, List.append_assoc,
        List.singleton_append]

theorem takeBytes_isPrefix (maxBytes bytes : ℕ) (entries : List Entry) :
    takeBytes maxBytes bytes entries <+: entries := by
  induction entries generalizing bytes with
  | nil => exact List.prefix_rfl
  | cons entry entries ih =>
      rw [takeBytes, List.prefix_cons_inj]
      split
      · exact List.nil_prefix
      · exact ih _

theorem takeBytes_eq_nil {maxBytes bytes : ℕ} {entries : List Entry} :
    takeBytes maxBytes bytes entries = [] ↔ entries = [] := by
  cases entries with
  | nil => simp [takeBytes]
  | cons entry entries => simp [takeBytes]

theorem readAfter_length {r : Ring} {after limit maxBytes : ℕ} {es : List Entry}
    (h : r.readAfter after limit maxBytes = .records es) : es.length ≤ limit := by
  unfold readAfter at h
  split at h
  · cases h
    exact Nat.zero_le limit
  · split at h <;> cases h
    exact (takeBytes_isPrefix _ _ _).length_le.trans (List.length_take_le _ _)

/-- On a ring without holes, a read that returns anything starts right after the
cursor, skips nothing, and returns what the ring holds. -/
theorem readAfter_consecutive {r : Ring} {n after limit maxBytes : ℕ} {es : List Entry}
    (hr : Consecutive Entry.version n r.entries) (hafter : after ≤ versionMax)
    (hn : 0 < n) (h : r.readAfter after limit maxBytes = .records es) (hne : es ≠ []) :
    Consecutive Entry.version (after + 1) es ∧ es.length ≤ limit ∧ ∀ e ∈ es, e ∈ r.entries := by
  unfold readAfter at h
  rcases hhead : r.entries.head? with _ | front
  · simp only [hhead] at h
    cases h
    exact absurd rfl hne
  · have hfront : front.version = n := hr.head_eq hhead
    simp only [hhead] at h
    split at h
    · cases h
    · rename_i hge
      cases h
      have hsucc : succ64 after = after + 1 := by
        -- The counter does not wrap: zero lies below every entry.
        simp only [succ64, versionMax] at hge hafter ⊢
        omega
      rw [hsucc, hfront] at hge ⊢
      have hcut := takeBytes_isPrefix maxBytes 0 ((r.entries.drop (after + 1 - n)).take limit)
      have hrun := (hr.drop (after + 1 - n)).take limit
      rw [show n + (after + 1 - n) = after + 1 by omega] at hrun
      refine ⟨hrun.of_prefix hcut, ?_, fun e he => ?_⟩
      · exact hcut.length_le.trans (List.length_take_le _ _)
      · exact List.mem_of_mem_drop (List.mem_of_mem_take (hcut.subset he))

end Ring

end Lug
