import Mathlib.Data.List.Basic
import Mathlib.Data.List.Nodup
import Mathlib.Data.List.Perm.Basic

/-!
Maps that keep the order in which their keys came: a key that is set again keeps its place,
and one that is new comes last.
-/

/-- Entries of distinct keys. -/
structure Table (K V : Type*) where
  entries : List (K × V)
  nodup : (entries.map Prod.fst).Nodup

namespace Table

variable {K V : Type*}

def empty : Table K V := ⟨[], List.nodup_nil⟩

def values (t : Table K V) : List V := t.entries.map Prod.snd

@[simp] theorem entries_empty : (empty : Table K V).entries = [] := rfl

@[simp] theorem values_empty : (empty : Table K V).values = [] := rfl

variable [DecidableEq K]

def get? (t : Table K V) (k : K) : Option V := t.entries.lookup k

def has (t : Table K V) (k : K) : Bool := (t.get? k).isSome

def erase (t : Table K V) (k : K) : Table K V where
  entries := t.entries.filter (·.1 ≠ k)
  nodup := t.nodup.sublist (List.filter_sublist.map Prod.fst)

@[simp] theorem erase_empty (k : K) : (empty : Table K V).erase k = empty := rfl

@[simp] theorem get?_empty (k : K) : (empty : Table K V).get? k = none := rfl

/-- The entries with one for `k`. -/
def placed (k : K) (v : V) : List (K × V) → List (K × V)
  | [] => [(k, v)]
  | e :: entries => if e.1 = k then (k, v) :: entries else e :: placed k v entries

theorem mem_placed {k : K} {v : V} {e : K × V} {entries : List (K × V)}
    (h : e ∈ placed k v entries) : e = (k, v) ∨ e ∈ entries := by
  induction entries with
  | nil => exact .inl (List.mem_singleton.mp h)
  | cons e' entries ih =>
      rw [placed] at h
      split_ifs at h
      · exact (List.mem_cons.mp h).imp_right (List.mem_cons_of_mem _)
      · rcases List.mem_cons.mp h with rfl | h
        · exact .inr List.mem_cons_self
        · exact (ih h).imp_right (List.mem_cons_of_mem _)

theorem nodup_placed (k : K) (v : V) {entries : List (K × V)}
    (h : (entries.map Prod.fst).Nodup) : ((placed k v entries).map Prod.fst).Nodup := by
  induction entries with
  | nil => exact List.nodup_singleton k
  | cons e entries ih =>
      rw [placed]
      split_ifs with hk
      · simpa [hk] using h
      · obtain ⟨hfresh, hrest⟩ := List.nodup_cons.mp h
        refine List.nodup_cons.mpr ⟨fun hmem => ?_, ih hrest⟩
        obtain ⟨e', he', hkey⟩ := List.mem_map.mp hmem
        rcases mem_placed he' with rfl | he'
        · exact hk hkey.symm
        · exact hfresh (hkey ▸ List.mem_map_of_mem he')

def set (t : Table K V) (k : K) (v : V) : Table K V where
  entries := placed k v t.entries
  nodup := nodup_placed k v t.nodup

variable {t : Table K V} {k : K} {v : V}

theorem mem_of_get? (h : t.get? k = some v) : (k, v) ∈ t.entries := by
  obtain ⟨before, behind, hentries, -⟩ := List.lookup_eq_some_iff.mp h
  rw [hentries]
  exact List.mem_append_right _ List.mem_cons_self

theorem get?_eq_none : t.get? k = none ↔ ∀ e ∈ t.entries, e.1 ≠ k := by
  rw [get?, List.lookup_eq_none_iff]
  simp only [bne_iff_ne, ne_comm]

@[simp] theorem mem_erase {e : K × V} : e ∈ (t.erase k).entries ↔ e ∈ t.entries ∧ e.1 ≠ k := by
  simp [erase]

theorem erase_new (h : t.get? k = none) : t.erase k = t := by
  have hkeep : t.entries.filter (·.1 ≠ k) = t.entries :=
    List.filter_eq_self.mpr fun e he => decide_eq_true (get?_eq_none.mp h e he)
  cases t
  simpa [erase] using hkeep

/-- What is taken out was there once. -/
theorem perm_erase (h : t.get? k = some v) : t.entries.Perm ((k, v) :: (t.erase k).entries) := by
  obtain ⟨before, behind, hentries, -⟩ := List.lookup_eq_some_iff.mp h
  have hnodup := t.nodup
  rw [hentries, List.map_append, List.map_cons, List.nodup_middle, List.nodup_cons] at hnodup
  have hothers : ∀ e ∈ before ++ behind, decide (e.1 ≠ k) = true := by
    intro e he
    rw [decide_eq_true_eq]
    intro hk
    have hmem : e.1 ∈ (before ++ behind).map Prod.fst := List.mem_map_of_mem he
    rw [hk, List.map_append] at hmem
    exact hnodup.1 hmem
  have hrest : (t.erase k).entries = before ++ behind := by
    show t.entries.filter (·.1 ≠ k) = _
    rw [hentries, List.filter_append, List.filter_cons_of_neg (by simp), ← List.filter_append]
    exact List.filter_eq_self.mpr hothers
  rw [hrest, hentries]
  exact List.perm_middle

theorem perm_placed (k : K) (v : V) {entries : List (K × V)} (h : (entries.map Prod.fst).Nodup) :
    (placed k v entries).Perm ((k, v) :: entries.filter (·.1 ≠ k)) := by
  induction entries with
  | nil => exact .refl _
  | cons e entries ih =>
      obtain ⟨hfresh, hrest⟩ := List.nodup_cons.mp h
      rw [placed]
      split_ifs with hk
      · have hothers : entries.filter (·.1 ≠ k) = entries := by
          refine List.filter_eq_self.mpr fun e' he' => decide_eq_true fun hk' => hfresh ?_
          rw [hk, ← hk']
          exact List.mem_map_of_mem he'
        rw [List.filter_cons_of_neg (by simp [hk]), hothers]
      · rw [List.filter_cons_of_pos (by simp [hk])]
        exact ((ih hrest).cons e).trans (List.Perm.swap ..)

/-- What is set takes the place of what stood under its key. -/
theorem perm_set (t : Table K V) (k : K) (v : V) :
    (t.set k v).entries.Perm ((k, v) :: (t.erase k).entries) := perm_placed k v t.nodup

theorem values_perm_erase (h : t.get? k = some v) : t.values.Perm (v :: (t.erase k).values) :=
  (perm_erase h).map Prod.snd

theorem values_perm_set (t : Table K V) (k : K) (v : V) :
    (t.set k v).values.Perm (v :: (t.erase k).values) := (perm_set t k v).map Prod.snd

theorem values_erase_sublist (t : Table K V) (k : K) : (t.erase k).values.Sublist t.values :=
  List.filter_sublist.map Prod.snd

theorem perm_set_new (h : t.get? k = none) (v : V) :
    (t.set k v).entries.Perm ((k, v) :: t.entries) := by
  have hset := perm_set t k v
  rwa [erase_new h] at hset

theorem values_set_new (h : t.get? k = none) (v : V) : (t.set k v).values.Perm (v :: t.values) :=
  (perm_set_new h v).map Prod.snd

theorem mem_set {e : K × V} (h : e ∈ (t.set k v).entries) : e = (k, v) ∨ e ∈ t.entries :=
  mem_placed h

end Table
