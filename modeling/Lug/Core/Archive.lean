import Lug.Core.Storage
import Lug.Lib.Consecutive
import Mathlib.Data.List.TakeWhile

/-!
A storage that obeys its contract and fails when it is told to, as the storage
of the log tests does: it keeps every record, refuses one out of order, reads
nothing back below its last checkpoint, and, where it is faulty, fails appends
and flushes as planned.
-/

namespace Lug

open Storage Runs

structure Archive (V : Type) (faulty : Bool) where
  records : List Record
  header : Option V
  /-- Whether each append from here on fails; past the end of the plan none does. -/
  failAppends : List Bool
  failSyncs : List Bool

namespace Archive

variable {V : Type} {faulty : Bool} [Versioned V]

def empty : Archive V faulty := ⟨[], none, [], []⟩

def ledger (s : Archive V faulty) : Ledger V := ⟨s.records, s.header⟩

def floor (s : Archive V faulty) : ℕ := s.header.elim 0 Versioned.version + 1

def append (s : Archive V faulty) (records : List Record) : Except String Unit × Archive V faulty :=
  let next := { s with failAppends := s.failAppends.tail }
  if faulty = true ∧ s.failAppends.head? = some true then (.error "storage is refusing writes", next)
  else if records.map Record.version = List.range' (s.ledger.top + 1) records.length then
    (.ok (), { next with records := s.records ++ records })
  else (.error "append out of order", next)

def writeHeader (s : Archive V faulty) (view : V) : Except String Unit × Archive V faulty :=
  if Versioned.version view + 1 < s.floor then (.error "checkpoint moves back", s)
  else (.ok (), { s with header := some view })

def sync (s : Archive V faulty) : Except String Unit × Archive V faulty :=
  let next := { s with failSyncs := s.failSyncs.tail }
  if faulty = true ∧ s.failSyncs.head? = some true then (.error "storage is refusing flushes", next)
  else (.ok (), next)

def load (s : Archive V faulty) : Except String (Recovered V) × Archive V faulty :=
  let tail := match s.header with
    | none => s.records
    | some view => s.records.dropWhile (·.version ≤ Versioned.version view)
  (.ok { header := s.header, tail }, s)

def readAfter (s : Archive V faulty) (after limit : ℕ) : Except String (List Record) :=
  if after + 1 < s.floor then .error "reclaimed"
  else .ok ((s.records.filter (after < ·.version)).take limit)

instance : Storage (Archive V faulty) V where
  Err := String
  display e := e
  append := append
  writeHeader := writeHeader
  sync := sync
  load := load
  readAfter := readAfter
  oldest := floor

/-- The archive is its own history, with nothing missing above its floor. -/
def Holds (s : Archive V faulty) (L : Ledger V) : Prop :=
  L = s.ledger ∧ ∀ v, s.floor ≤ v → v ≤ s.ledger.top → ∃ r ∈ s.records, r.version = v

theorem header_le_top (s : Archive V faulty) : s.floor ≤ s.ledger.top + 1 := by
  simp [floor, ledger, Ledger.top]

theorem holds_append_ok {s : Archive V faulty} {L : Ledger V} {records : List Record}
    (h : Holds s L) (hok : (append s records).1 = .ok ()) :
    Holds (append s records).2 (L.push records) := by
  obtain ⟨rfl, hmem⟩ := h
  unfold append at hok ⊢
  split_ifs at hok ⊢ with hfail horder
  refine ⟨rfl, fun v hfloor hv => ?_⟩
  by_cases hold : v ≤ s.ledger.top
  · obtain ⟨r, hr, hversion⟩ := hmem v hfloor hold
    exact ⟨r, List.mem_append_left _ hr, hversion⟩
  · -- The version is one of the new ones, and these are all there.
    have hlast : v < s.ledger.top + 1 + records.length := by
      rcases hrecords : records.getLast? with _ | last
      · rw [List.getLast?_eq_none_iff] at hrecords
        subst hrecords
        simp only [ledger, List.append_nil] at hv hold
        exact absurd hv hold
      · have hversion : last.version + 1 = s.ledger.top + 1 + records.length :=
          (consecutive_iff_map.mpr horder).last_eq hrecords
        have htop : (Ledger.mk (s.records ++ records) s.header).top =
            max last.version (s.header.elim 0 Versioned.version) := by
          simp [Ledger.top, hrecords]
        have hheader : s.header.elim 0 Versioned.version ≤ s.ledger.top := le_max_right _ _
        simp only [ledger, htop] at hv hheader
        simp only [ledger] at hversion ⊢
        omega
    have hrange : v ∈ records.map Record.version := by
      rw [horder, List.mem_range'_1]
      omega
    obtain ⟨r, hr, hversion⟩ := List.mem_map.mp hrange
    exact ⟨r, List.mem_append_right _ hr, hversion⟩

theorem holds_writeHeader_ok {s : Archive V faulty} {L : Ledger V} {view : V}
    (h : Holds s L) (hok : (writeHeader s view).1 = .ok ()) :
    Holds (writeHeader s view).2 (L.checkpoint view) := by
  obtain ⟨rfl, hmem⟩ := h
  unfold writeHeader at hok ⊢
  split_ifs at hok ⊢ with hback
  refine ⟨rfl, fun v hfloor hv => hmem v ?_ ?_⟩
  · simp only [floor, Option.elim_some] at hfloor hback ⊢
    omega
  · simp only [floor, ledger, Ledger.top, Option.elim_some] at hfloor hv ⊢
    omega

instance : StorageContract (Archive V faulty) where
  Holds := Holds
  append_ok := holds_append_ok
  append_error {s L records e} h herr := by
    obtain ⟨rfl, hmem⟩ := h
    change (append s records).1 = _ at herr
    change Holds (append s records).2 _
    unfold append at herr ⊢
    split_ifs at herr ⊢ with hfail horder
    · exact ⟨rfl, hmem⟩
    · exact ⟨rfl, hmem⟩
  sync_holds {s L} h := by
    obtain ⟨rfl, hmem⟩ := h
    change Holds (sync s).2 _
    unfold sync
    split_ifs <;> exact ⟨rfl, hmem⟩
  writeHeader_ok := holds_writeHeader_ok
  writeHeader_error {s L view e} h herr := by
    change (writeHeader s view).1 = _ at herr
    change Holds (writeHeader s view).2 _ ∨ _
    unfold writeHeader at herr ⊢
    split_ifs at herr ⊢ with hback
    exact .inl h
  readAfter_ok {s L after limit records} h hle hread := by
    obtain ⟨rfl, _⟩ := h
    change readAfter s after limit = _ at hread
    change s.floor ≤ after + 1 at hle
    rw [readAfter, if_neg (by omega)] at hread
    cases hread
    rfl
  load_ok {s L found} h hload := by
    obtain ⟨rfl, hmem⟩ := h
    change (load s).1 = _ at hload
    cases hload
    refine ⟨⟨rfl, hmem⟩, rfl, ?_⟩
    cases hh : s.header with
    | none => exact ⟨[], by simp [ledger], by simp⟩
    | some view =>
        refine ⟨s.records.takeWhile (·.version ≤ Versioned.version view),
          (List.takeWhile_append_dropWhile).symm, fun r hr => ⟨view, hh, ?_⟩⟩
        simpa using List.mem_takeWhile_imp hr
  oldest_append {s L records} h := by
    change s.floor ≤ (append s records).2.floor
    unfold append
    split_ifs <;> exact le_rfl
  oldest_sync {s L} h := by
    change s.floor ≤ (sync s).2.floor
    unfold sync
    split_ifs <;> exact le_rfl
  oldest_writeHeader {s L view} h := by
    change s.floor ≤ (writeHeader s view).2.floor
    unfold writeHeader
    split_ifs with hback
    · exact le_rfl
    · simpa [floor] using hback
  oldest_le {s L} h := by
    obtain ⟨rfl, _⟩ := h
    exact header_le_top s
  oldest_mem {s L} h hle := by
    obtain ⟨rfl, hmem⟩ := h
    exact hmem _ le_rfl hle
  readAfter_mem {s L after limit records} h hread r hr := by
    obtain ⟨rfl, -⟩ := h
    change readAfter s after limit = _ at hread
    unfold readAfter at hread
    split_ifs at hread with hbelow
    cases hread
    have hmem := List.mem_of_mem_take hr
    rw [List.mem_filter, decide_eq_true_eq] at hmem
    refine ⟨hmem.1, ?_⟩
    change s.floor ≤ r.version
    omega

theorem holds_new (failAppends failSyncs : List Bool) :
    StorageContract.Holds (⟨[], none, failAppends, failSyncs⟩ : Archive V faulty)
      ⟨[], none⟩ := by
  refine ⟨rfl, fun v hfloor hv => ?_⟩
  simp only [floor, ledger, Ledger.top, Option.elim_none, List.getLast?_nil, max_self]
    at hfloor hv
  omega

end Archive

end Lug
