import Lug.Core.Frontier
import Lug.Cavlc.Reopen

/-!
What an append acknowledged as `Durable` vouches for. A batch that mints a version
flushes everything up to it; one that mints none returns before the flush, so its
views are as durable as the log already was.
-/

namespace Lug

open Reducible ReducibleContract

variable {D S P V : Type} [Versioned V] [Serde P] [Reducible D P V] [Storage S V]

namespace Log

/-- The view is behind the frontier the log reports, and nothing up to it waits for
a flush. -/
structure Covers (l : Log D (Watched S)) (v : V) : Prop where
  synced : Versioned.version v ≤ l.synced
  flushed : l.Flushed (Versioned.version v)

/-- If the batch is acknowledged as `Durable`, every view it returns is. -/
def Honours (l : Log D (Watched S)) (ps : List P) : Prop :=
  ∀ vs, (l.append ps .durable).1 = .ok vs → ∀ v ∈ vs, (l.append ps .durable).2.Covers v

/-- Every patch of the batch encodes, and none of them changes the structure. -/
def Idle (d : D) (ps : List P) : Prop :=
  ∀ p ∈ ps, (∃ b, Serde.toVec p = .ok b) ∧ (apply d p).1 = .ok none

/-- Where the batch is idle, the log has nothing left to flush. -/
def Settled (l : Log D (Watched S)) (ps : List P) : Prop :=
  Idle l.data ps → version l.data ≤ l.synced ∧ l.Flushed (version l.data)

/-- The views an operation acknowledges as durable. -/
def durableViews (l : Log D (Watched S)) : Operation P → List V
  | .append ps .durable =>
      match (l.append ps .durable).1 with
      | .ok vs => vs
      | .error _ => []
  | _ => []

/-- The views a run of operations acknowledged as durable. -/
def acknowledged (l : Log D (Watched S)) : List (Operation P) → List V
  | [] => []
  | op :: ops => l.durableViews op ++ (l.step op).acknowledged ops

/-- Every non-empty batch the run appends as `Durable` finds the log settled. -/
def Keeps (l : Log D (Watched S)) : List (Operation P) → Prop
  | [] => True
  | op :: ops => (∀ ps, op = .append ps .durable → ps ≠ [] → l.Settled ps) ∧ (l.step op).Keeps ops

variable [ReducibleContract D]

namespace Folds

variable {d d' : D} {ps : List P} {rs : List Record} {vs : List V}

omit [Storage S V]

/-- No view of a batch is newer than the structure behind it. -/
theorem views_le (h : Folds d ps rs vs d') : ∀ v ∈ vs, Versioned.version v ≤ version d' := by
  induction h with
  | nil => simp
  | mint encoded applied rest ih =>
      intro v hv
      cases hv with
      | head =>
          have hstep := rest.versions.2
          have hview := (apply_mint (congrArg Prod.fst applied)).1
          rw [applied] at hview
          rw [hstep, version, hview]
          omega
      | tail _ hv => exact ih v hv
  | identity encoded applied rest ih =>
      intro v hv
      cases hv with
      | head =>
          have hstep := rest.versions.2
          rw [hstep, version]
          omega
      | tail _ hv => exact ih v hv

theorem idle (h : Folds d ps [] vs d') : Idle d ps := by
  generalize hrs : ([] : List Record) = rs at h
  induction h with
  | nil => simp [Idle]
  | mint => cases hrs
  | @identity d d₁ d₂ p ps b rs vs encoded applied rest ih =>
      have hsame : Same d₁ d := by
        simpa [applied] using apply_identity (d := d) (p := p) (by rw [applied])
      intro q hq
      cases hq with
      | head => exact ⟨⟨b, encoded⟩, by rw [applied]⟩
      | tail _ hq =>
          obtain ⟨hencoded, happlied⟩ := ih hrs q hq
          exact ⟨hencoded, by rw [← same_apply hsame q, happlied]⟩

end Folds

omit [Storage S V] in
/-- An idle batch folds without a record. -/
theorem Idle.folds {d : D} {ps : List P} (h : Idle d ps) : ∃ vs d', Folds d ps [] vs d' := by
  induction ps generalizing d with
  | nil => exact ⟨[], d, .nil d⟩
  | cons p ps ih =>
      obtain ⟨⟨b, encoded⟩, happly⟩ := h p List.mem_cons_self
      have hsame := apply_identity happly
      have hrest : Idle (apply d p).2 ps := by
        intro q hq
        obtain ⟨hencoded, happlied⟩ := h q (List.mem_cons_of_mem _ hq)
        exact ⟨hencoded, by rw [same_apply hsame q, happlied]⟩
      obtain ⟨vs, d', hfolds⟩ := ih hrest
      exact ⟨_, d', .identity encoded (Prod.ext happly rfl) hfolds⟩

/-- What an acknowledged batch did, if it was to be durable. -/
theorem durable_cases {l : Log D (Watched S)} {ps : List P} {vs : List V}
    (h : (l.append ps .durable).1 = .ok vs) :
    (∃ d, Folds l.data ps [] vs d ∧ (l.append ps .durable).2 = { l with data := d }) ∨
      (∃ rs d, Folds l.data ps rs vs d ∧ rs ≠ [] ∧
        (l.append ps .durable).2.synced = version d ∧
        (l.append ps .durable).2.storage.pending = []) := by
  have hcases := append_cases l ps .durable
  rw [h] at hcases
  generalize (l.append ps .durable).2 = l' at hcases ⊢
  cases hcases with
  | identity hf => exact .inl ⟨_, hf, rfl⟩
  | written _ _ _ hd => exact absurd rfl hd
  | @flushed rs last _ d s s' hf hlast hs hd hs' =>
      refine .inr ⟨rs, d, hf, ?_, hf.last_version hlast, Watched.sync_ok hs'⟩
      rintro rfl
      cases hlast

/-- The batch is honoured exactly where the log was settled. -/
theorem honours_iff (l : Log D (Watched S)) {ps : List P} (hps : ps ≠ []) :
    l.Honours ps ↔ l.Settled ps := by
  constructor
  · intro hhonours hidle
    obtain ⟨vs, d, hfolds⟩ := hidle.folds
    have hversion : version d = version l.data := hfolds.versions.2
    have happend : l.append ps .durable = (.ok vs, { l with data := d }) := by
      have hfold : fold (S := Watched S) l.watermark l.data ps [] [] = (.ok ([], vs), d) :=
        fold_eq_ok_iff.mpr hfolds
      simp [append, hfold, hps]
    -- The last patch of the batch shows the version the log stood at.
    have hlength := hfolds.views_length
    obtain ⟨v, hv, hshown⟩ : ∃ v ∈ vs, Versioned.version v = version l.data := by
      cases hfolds with
      | nil => exact absurd rfl hps
      | identity encoded applied rest =>
          refine ⟨_, List.mem_cons_self, ?_⟩
          exact rest.versions.2.symm.trans hversion
    have hcovers := hhonours vs (by rw [happend]) v hv
    rw [happend, ← hshown] at *
    exact ⟨hcovers.synced, hcovers.flushed⟩
  · intro hsettled vs hok v hv
    rcases durable_cases hok with ⟨d, hfolds, hstate⟩ | ⟨rs, d, hfolds, -, hsynced, hpending⟩
    · obtain ⟨hsynced, hflushed⟩ := hsettled hfolds.idle
      have hle := hfolds.views_le v hv
      have hversion : version d = version l.data := hfolds.versions.2
      rw [hversion] at hle
      rw [hstate]
      exact ⟨hle.trans hsynced, fun r hr => hle.trans_lt (hflushed r hr)⟩
    · refine ⟨(hfolds.views_le v hv).trans hsynced.ge, fun r hr => ?_⟩
      rw [hpending] at hr
      cases hr

omit [ReducibleContract D] in
theorem honours_nil (l : Log D (Watched S)) : l.Honours ([] : List P) := by
  intro vs hok v hv
  cases hok
  cases hv

/-- A view that is covered stays so. -/
theorem Covers.step {l : Log D (Watched S)} {v : V} (h : l.Covers v) (hl : l.Anchored)
    (op : Operation P) : (l.step op).Covers v where
  synced := h.synced.trans (hl.advances op).synced_le
  flushed := (hl.advances op).flushed h.synced h.flushed

theorem Covers.run {l : Log D (Watched S)} {v : V} (h : l.Covers v) (hl : l.Anchored)
    (ops : List (Operation P)) : (l.run ops).Covers v := by
  induction ops generalizing l with
  | nil => exact h
  | cons op ops ih => exact ih (h.step hl op) (hl.step op)

theorem covers_durableViews {l : Log D (Watched S)} {op : Operation P}
    (h : ∀ ps, op = .append ps .durable → ps ≠ [] → l.Settled ps) :
    ∀ v ∈ l.durableViews op, (l.step op).Covers v := by
  intro v hv
  unfold durableViews at hv
  split at hv
  · rename_i ps
    have hhonours : l.Honours ps := by
      by_cases hps : ps = []
      · rw [hps]
        exact l.honours_nil
      · exact (l.honours_iff hps).mpr (h ps rfl hps)
    split at hv
    · rename_i vs hok
      exact hhonours vs hok v hv
    · cases hv
  · cases hv

theorem Anchored.acknowledged {l : Log D (Watched S)} (hl : l.Anchored) {ops : List (Operation P)}
    (h : l.Keeps ops) : ∀ v ∈ l.acknowledged ops, (l.run ops).Covers v := by
  induction ops generalizing l with
  | nil => simp [Log.acknowledged]
  | cons op ops ih =>
      intro v hv
      cases List.mem_append.mp hv with
      | inl hnow => exact (covers_durableViews h.1 v hnow).run (hl.step op) ops
      | inr hlater => exact ih (hl.step op) h.2 v hlater

/-- In every state a log reaches, a batch is honoured exactly where the log is settled;
and where all batches of a run found it so, everything the run acknowledged as durable
is covered at its end. -/
theorem durable_iff_settled {zero : D} {s : Watched S} {l : Log D (Watched S)}
    (h : Log.open zero s = .ok l) (ops : List (Operation P)) :
    (∀ ps : List P, ps ≠ [] → ((l.run ops).Honours ps ↔ (l.run ops).Settled ps)) ∧
      (l.Keeps ops → ∀ v ∈ l.acknowledged ops, (l.run ops).Covers v) :=
  ⟨fun _ hps => (l.run ops).honours_iff hps, (anchored_of_open h).acknowledged⟩

end Log

section Sample

open Cavlc

attribute [local instance] codec

/-- A patch without operations. -/
def nothing : OrderedPatch where
  patch := .mk [] [] []
  ordered := Patch.ordered_nil

/-- The log over a store that an empty archive opens. -/
def unwatched : Log Store (Watched (Archive Snapshot false)) :=
  ⟨.new 0, ⟨Archive.empty, []⟩, 0, 0⟩

theorem open_unwatched : Log.open (Store.new 0) unwatched.storage = .ok unwatched := rfl

theorem apply_nothing (v : Value) (h : v.asObject.isSome) : nothing.apply v = .ok none := by
  obtain ⟨map, hmap⟩ := Option.isSome_iff_exists.mp h
  have happly : nothing.patch.apply v.kind = .ok none := by
    have hobject : v.kind.asObject = some map := hmap
    show Patch.applyAt [] (.mk [] [] []) v.kind = _
    simp only [Patch.applyAt, hobject]
    rfl
  unfold OrderedPatch.apply
  split
  · rename_i e he
    rw [happly] at he
    cases he
  · rfl
  · rename_i k hk
    rw [happly] at hk
    cases hk

theorem idle_nothing (s : Store) (h : s.snapshot.root.asObject.isSome) :
    Log.Idle s [nothing] := by
  intro p hp
  rw [List.mem_singleton.mp hp]
  refine ⟨⟨_, rfl⟩, ?_⟩
  rw [Store.apply_eq, apply_nothing _ h]

/-- The witness of `Log.durable_iff_settled`: behind a flush, a patch without operations is
as durable as the version it names. -/
theorem flushed_honours_nothing :
    (unwatched.run [.append [creates] .durable]).Honours [nothing] := by
  refine ((Log.durable_iff_settled open_unwatched _).1 _ (List.cons_ne_nil _ _)).mpr fun _ => ?_
  exact ⟨le_rfl, fun r hr => nomatch hr⟩

/-- Version 1 reached memory only. A patch without operations, appended as `Durable`, is
acknowledged with that version, which nothing ever flushed. -/
theorem nothing_not_honoured : Log.open (Store.new 0) unwatched.storage = .ok unwatched ∧
    ¬ (unwatched.run [.append [creates] .memory]).Honours [nothing] := by
  refine ⟨open_unwatched, fun hhonours => ?_⟩
  have hsettled := (Log.honours_iff _ (List.cons_ne_nil _ _)).mp hhonours
  have hversion := (hsettled (idle_nothing _ rfl)).1
  have hbehind : (1 : ℕ) ≤ 0 := hversion
  omega

end Sample

end Lug
