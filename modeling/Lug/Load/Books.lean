import Lug.Load.Check

/-!
The books of a ledger: what its logs carry is what its payloads were observed at, and a
payload that is acknowledged was observed. Every call that returns Ok keeps them so.
-/

namespace Lug.Load

open SortedMap

namespace Ledger

/-- The log has the payload at this version. -/
def Carries (l : Ledger) (log version sequence : ℕ) : Prop :=
  ∃ versions, l.canonical[log]? = some versions ∧ versions.lookup version = some sequence

/-- The payload, which was issued to this log, was observed at this version. -/
def Observes (l : Ledger) (log version sequence : ℕ) : Prop :=
  ∃ issued, l.issued[sequence]? = some issued ∧ issued.log = log ∧ issued.observed = some version

def Acked (l : Ledger) (sequence version : ℕ) : Prop :=
  ∃ issued, l.issued[sequence]? = some issued ∧ issued.ack = some version

structure Books (l : Ledger) : Prop where
  sorted : ∀ versions ∈ l.canonical, Sorted versions
  positive : ∀ {log version sequence}, l.Carries log version sequence → version ≠ 0
  agree : ∀ log version sequence, l.Carries log version sequence ↔ l.Observes log version sequence
  observed : ∀ {sequence version}, l.Acked sequence version → ∃ log, l.Observes log version sequence

end Ledger

theorem getElem?_set_of_some {α : Type} {xs : List α} {i : ℕ} {a : α} (h : xs[i]? = some a)
    (b : α) (j : ℕ) : (xs.set i b)[j]? = if j = i then some b else xs[j]? := by
  obtain ⟨hlt, -⟩ := List.getElem?_eq_some_iff.mp h
  rw [List.getElem?_set]
  split_ifs with heq hne hne
  · rfl
  · exact absurd heq.symm hne
  · exact absurd hne.symm heq
  · rfl

/-- A field that is set to what it was. -/
theorem map_set_of_some {α β : Type} {f : α → β} {xs : List α} {i : ℕ} {a b : α}
    (h : xs[i]? = some a) (hf : f b = f a) : (xs.set i b).map f = xs.map f := by
  ext1 j
  rw [List.getElem?_map, getElem?_set_of_some h, List.getElem?_map]
  split_ifs with hj
  · rw [hj, h, Option.map_some, Option.map_some, hf]
  · rfl

theorem getElem?_concat {α : Type} {xs : List α} {a b : α} {i : ℕ} :
    (xs ++ [a])[i]? = some b ↔ xs[i]? = some b ∨ i = xs.length ∧ a = b := by
  rw [List.getElem?_append]
  split_ifs with hlt
  · constructor
    · exact .inl
    · rintro (h | ⟨rfl, -⟩)
      · exact h
      · omega
  · have hnone : xs[i]? = none := List.getElem?_eq_none (Nat.not_lt.mp hlt)
    rw [hnone, List.getElem?_singleton]
    constructor
    · intro h
      split_ifs at h with hzero
      exact .inr ⟨by omega, Option.some.inj h⟩
    · rintro (h | ⟨rfl, rfl⟩)
      · cases h
      · rw [if_pos (Nat.sub_self _)]

namespace Ledger

section Bind

variable {l l' : Ledger} {log version sequence : ℕ}

/-- Binding adds what it binds, and nothing else. -/
theorem Binds.carries (h : l.Binds log version sequence l') {log' version' sequence' : ℕ} :
    l'.Carries log' version' sequence' ↔ l.Carries log' version' sequence' ∨
      log' = log ∧ version' = version ∧ sequence' = sequence := by
  obtain ⟨versions, issued, hversions, -, -, hsame, -, rfl⟩ := h.bound
  simp only [Carries, getElem?_set_of_some hversions]
  by_cases hlog : log' = log
  · subst hlog
    rw [if_pos rfl, hversions]
    by_cases hversion : version' = version
    · subst hversion
      constructor
      · rintro ⟨_, hinsert, hlookup⟩
        cases hinsert
        rw [lookup_insert_self] at hlookup
        exact .inr ⟨rfl, rfl, (Option.some.inj hlookup).symm⟩
      · rintro (⟨_, hold, hlookup⟩ | ⟨-, -, rfl⟩)
        · cases hold
          rw [hsame _ hlookup]
          exact ⟨_, rfl, lookup_insert_self⟩
        · exact ⟨_, rfl, lookup_insert_self⟩
    · constructor
      · rintro ⟨_, hinsert, hlookup⟩
        cases hinsert
        rw [lookup_insert_of_ne hversion] at hlookup
        exact .inl ⟨_, rfl, hlookup⟩
      · rintro (⟨_, hold, hlookup⟩ | ⟨-, heq, -⟩)
        · cases hold
          exact ⟨_, rfl, (lookup_insert_of_ne hversion).trans hlookup⟩
        · exact absurd heq hversion
  · rw [if_neg hlog]
    exact (or_iff_left fun h => hlog h.1).symm

theorem Binds.observes (h : l.Binds log version sequence l') {log' version' sequence' : ℕ} :
    l'.Observes log' version' sequence' ↔ l.Observes log' version' sequence' ∨
      log' = log ∧ version' = version ∧ sequence' = sequence := by
  obtain ⟨versions, issued, -, hissued, hlog, -, hsame, rfl⟩ := h.bound
  simp only [Observes, getElem?_set_of_some hissued]
  by_cases hsequence : sequence' = sequence
  · subst hsequence
    rw [if_pos rfl, hissued]
    constructor
    · rintro ⟨_, hset, rfl, hobserved⟩
      cases hset
      exact .inr ⟨hlog, (Option.some.inj hobserved).symm, rfl⟩
    · rintro (⟨_, hold, rfl, hobserved⟩ | ⟨rfl, rfl, -⟩)
      · cases hold
        exact ⟨_, rfl, rfl, by rw [hsame _ hobserved]⟩
      · exact ⟨_, rfl, hlog, rfl⟩
  · rw [if_neg hsequence]
    exact (or_iff_left fun h => hsequence h.2.2).symm

theorem Binds.acked (h : l.Binds log version sequence l') {sequence' version' : ℕ} :
    l'.Acked sequence' version' ↔ l.Acked sequence' version' := by
  obtain ⟨versions, issued, -, hissued, -, -, -, rfl⟩ := h.bound
  simp only [Acked, getElem?_set_of_some hissued]
  by_cases hsequence : sequence' = sequence
  · subst hsequence
    rw [if_pos rfl, hissued]
    constructor
    · rintro ⟨_, hset, hacked⟩
      cases hset
      exact ⟨_, rfl, hacked⟩
    · rintro ⟨_, hold, hacked⟩
      cases hold
      exact ⟨_, rfl, hacked⟩
  · rw [if_neg hsequence]

/-- What binding leaves alone. -/
theorem Binds.frame (h : l.Binds log version sequence l') :
    l'.issued.map Issued.log = l.issued.map Issued.log ∧ l'.streams = l.streams ∧
      l'.patchSize = l.patchSize ∧ l'.ackCount = l.ackCount := by
  obtain ⟨versions, issued, -, hissued, -, -, -, rfl⟩ := h.bound
  exact ⟨map_set_of_some hissued rfl, rfl, rfl, rfl⟩

theorem Books.bind (hbooks : l.Books) (h : l.Binds log version sequence l') : l'.Books where
  sorted := by
    obtain ⟨versions, issued, hversions, -, -, -, -, rfl⟩ := h.bound
    intro versions' hmem
    obtain hold | rfl := List.mem_or_eq_of_mem_set hmem
    · exact hbooks.sorted _ hold
    · exact sorted_insert (hbooks.sorted _ (List.mem_of_getElem? hversions))
  positive hcarries := by
    obtain hold | ⟨-, rfl, -⟩ := h.carries.mp hcarries
    · exact hbooks.positive hold
    · exact h.positive
  agree log' version' sequence' := by rw [h.carries, h.observes, hbooks.agree]
  observed hacked := by
    obtain ⟨log', hobserves⟩ := hbooks.observed (h.acked.mp hacked)
    exact ⟨log', h.observes.mpr (.inl hobserves)⟩

end Bind

section Issue

variable {l : Ledger} {log : ℕ} {intended : Instant}

theorem observes_issue {log' version sequence : ℕ} :
    (l.issue log intended).2.Observes log' version sequence ↔ l.Observes log' version sequence := by
  constructor
  · rintro ⟨issued, hissued, hlog, hobserved⟩
    obtain hold | ⟨-, rfl⟩ := getElem?_concat.mp hissued
    · exact ⟨issued, hold, hlog, hobserved⟩
    · cases hobserved
  · rintro ⟨issued, hissued, hlog, hobserved⟩
    exact ⟨issued, getElem?_concat.mpr (.inl hissued), hlog, hobserved⟩

theorem acked_issue {sequence version : ℕ} :
    (l.issue log intended).2.Acked sequence version ↔ l.Acked sequence version := by
  constructor
  · rintro ⟨issued, hissued, hacked⟩
    obtain hold | ⟨-, rfl⟩ := getElem?_concat.mp hissued
    · exact ⟨issued, hold, hacked⟩
    · cases hacked
  · rintro ⟨issued, hissued, hacked⟩
    exact ⟨issued, getElem?_concat.mpr (.inl hissued), hacked⟩

theorem Books.issue (h : l.Books) : (l.issue log intended).2.Books where
  sorted := h.sorted
  positive hcarries := h.positive hcarries
  agree log' version sequence := by rw [observes_issue, ← h.agree]; rfl
  observed hacked := by
    obtain ⟨log', hobserves⟩ := h.observed (acked_issue.mp hacked)
    exact ⟨log', observes_issue.mpr hobserves⟩

end Issue

section Ack

variable {l : Ledger} {sequence version : ℕ} {issued : Issued}

/-- A payload that had not been acknowledged is, and nothing else changes. -/
def acknowledge (l : Ledger) (sequence version : ℕ) (issued : Issued) : Ledger :=
  { l with
    issued := l.issued.set sequence { issued with ack := some version },
    ackCount := l.ackCount + 1 }

variable (hissued : l.issued[sequence]? = some issued)

include hissued

theorem observes_acknowledge {log' version' sequence' : ℕ} :
    (l.acknowledge sequence version issued).Observes log' version' sequence' ↔
      l.Observes log' version' sequence' := by
  simp only [Observes, acknowledge, getElem?_set_of_some hissued]
  by_cases hsequence : sequence' = sequence
  · subst hsequence
    rw [if_pos rfl, hissued]
    constructor
    · rintro ⟨_, hset, hrest⟩
      cases hset
      exact ⟨_, rfl, hrest⟩
    · rintro ⟨_, hold, hrest⟩
      cases hold
      exact ⟨_, rfl, hrest⟩
  · rw [if_neg hsequence]

theorem acked_acknowledge (hnone : issued.ack = none) {sequence' version' : ℕ} :
    (l.acknowledge sequence version issued).Acked sequence' version' ↔
      l.Acked sequence' version' ∨ sequence' = sequence ∧ version' = version := by
  simp only [Acked, acknowledge, getElem?_set_of_some hissued]
  by_cases hsequence : sequence' = sequence
  · subst hsequence
    rw [if_pos rfl, hissued]
    constructor
    · rintro ⟨_, hset, hacked⟩
      cases hset
      exact .inr ⟨rfl, (Option.some.inj hacked).symm⟩
    · rintro (⟨_, hold, hacked⟩ | ⟨-, rfl⟩)
      · cases hold
        cases hnone.symm.trans hacked
      · exact ⟨_, rfl, rfl⟩
  · rw [if_neg hsequence]
    exact (or_iff_left fun h => hsequence h.1).symm

theorem logs_acknowledge : (l.acknowledge sequence version issued).issued.map Issued.log =
    l.issued.map Issued.log := map_set_of_some hissued rfl

theorem Books.acknowledge (h : l.Books) (hnone : issued.ack = none) {log : ℕ}
    (hobserves : l.Observes log version sequence) :
    (l.acknowledge sequence version issued).Books where
  sorted := h.sorted
  positive hcarries := h.positive hcarries
  agree log' version' sequence' := by rw [observes_acknowledge hissued, ← h.agree]; rfl
  observed hacked := by
    obtain hold | ⟨rfl, rfl⟩ := (acked_acknowledge hissued hnone).mp hacked
    · obtain ⟨log', hobserves'⟩ := h.observed hold
      exact ⟨log', (observes_acknowledge hissued).mpr hobserves'⟩
    · exact ⟨log, (observes_acknowledge hissued).mpr hobserves⟩

end Ack

end Ledger

end Lug.Load
