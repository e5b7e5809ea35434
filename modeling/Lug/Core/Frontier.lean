import Lug.Core.Recovery

/-!
What `Log::synced` may be trusted with. The storage is watched from outside: of
every record it takes, whether a flush or a checkpoint succeeded behind it. The
log is driven by its operations, dropped, and opened again on the same storage.
-/

namespace Lug

open Reducible ReducibleContract Runs

/-- A storage, and the records it took that nothing has flushed yet. -/
structure Watched (S : Type) where
  store : S
  pending : List Record

namespace Watched

variable {S V : Type} [Storage S V]

/-- Only a `sync` or a checkpoint that succeeds makes anything durable. -/
instance : Storage (Watched S) V where
  Err := Storage.Err S
  display := Storage.display (S := S)
  append s records :=
    match Storage.append s.store records with
    | (.ok (), store) => (.ok (), ⟨store, s.pending ++ records⟩)
    | (.error e, store) => (.error e, ⟨store, s.pending⟩)
  writeHeader s view :=
    match Storage.writeHeader s.store view with
    | (.ok (), store) => (.ok (), ⟨store, []⟩)
    | (.error e, store) => (.error e, ⟨store, s.pending⟩)
  sync s :=
    match Storage.sync s.store with
    | (.ok (), store) => (.ok (), ⟨store, []⟩)
    | (.error e, store) => (.error e, ⟨store, s.pending⟩)
  load s := ((Storage.load s.store).1, ⟨(Storage.load s.store).2, s.pending⟩)
  readAfter s := Storage.readAfter s.store
  oldest s := Storage.oldest s.store

variable {s t : Watched S} {e : Storage.Err (Watched S)}

theorem append_ok {records : List Record} (h : Storage.append s records = (.ok (), t)) :
    t.pending = s.pending ++ records := by
  simp only [Storage.append] at h
  split at h <;> cases h
  rfl

theorem append_error {records : List Record} (h : Storage.append s records = (.error e, t)) :
    t.pending = s.pending := by
  simp only [Storage.append] at h
  split at h <;> cases h
  rfl

theorem writeHeader_ok {view : V} (h : Storage.writeHeader s view = (.ok (), t)) :
    t.pending = [] := by
  simp only [Storage.writeHeader] at h
  split at h <;> cases h
  rfl

theorem writeHeader_error {view : V} (h : Storage.writeHeader s view = (.error e, t)) :
    t.pending = s.pending := by
  simp only [Storage.writeHeader] at h
  split at h <;> cases h
  rfl

theorem sync_ok (h : Storage.sync s = (.ok (), t)) : t.pending = [] := by
  simp only [Storage.sync] at h
  split at h <;> cases h
  rfl

theorem sync_error (h : Storage.sync s = (.error e, t)) : t.pending = s.pending := by
  simp only [Storage.sync] at h
  split at h <;> cases h
  rfl

end Watched

/-- What a process holds: a storage it has not opened yet, or the log over it. -/
inductive Session (D S : Type)
  | closed (s : Watched S)
  | opened (l : Log D (Watched S))

variable {D S P V : Type} [Versioned V] [Serde P] [Reducible D P V] [Storage S V]

namespace Session

/-- One step of a process or of the one after it. `kept` is asked of a storage
that a log is opened on. -/
inductive Step (kept : Watched S → Prop) : Session D S → Session D S → Prop
  | opens {s : Watched S} {zero : D} {l : Log D (Watched S)} (h : Log.open zero s = .ok l)
      (hs : kept s) : Step kept (.closed s) (.opened l)
  | fails {s : Watched S} {zero : D} {e} (h : Log.open zero s = .error e) :
      Step kept (.closed s) (.closed (Storage.load s).2)
  | operates {l : Log D (Watched S)} (op : Operation P) :
      Step kept (.opened l) (.opened (l.step op))
  | restarts {l : Log D (Watched S)} : Step kept (.opened l) (.closed l.storage)

open Relation

/-- Any number of steps, restarts included. -/
def Run (kept : Watched S → Prop) : Session D S → Session D S → Prop :=
  ReflTransGen (Step kept)

end Session

namespace Log

/-- No record at or below this version waits for a flush. -/
def Flushed (l : Log D (Watched S)) (synced : ℕ) : Prop :=
  ∀ r ∈ l.storage.pending, synced < r.version

variable [ReducibleContract D]

/-- The structure is what some patches make of one at this version. -/
def Above (d : D) (version : ℕ) : Prop :=
  ∃ (base e : D) (ps : List P) (rs : List Record) (vs : List V),
    Reducible.version base = version ∧ Folds base ps rs vs e ∧ Same d e

theorem above_self (d : D) : Above d (Reducible.version d) :=
  ⟨d, d, [], [], [], rfl, .nil d, same_refl d⟩

theorem Above.le {d : D} {v : ℕ} (h : Above d v) : v ≤ Reducible.version d := by
  obtain ⟨base, e, ps, rs, vs, rfl, hfolds, hsame⟩ := h
  have hversion := hfolds.versions.2
  rw [same_version hsame]
  omega

theorem Above.folds {d d' : D} {v : ℕ} {ps : List P} {rs : List Record} {vs : List V}
    (h : Above d v) (hf : Folds d ps rs vs d') : Above d' v := by
  obtain ⟨base, e, ps₀, rs₀, vs₀, hbase, hfolds, hsame⟩ := h
  obtain ⟨e', hfolds', hsame'⟩ := hf.same hsame
  exact ⟨base, e', _, _, _, hbase, hfolds.append hfolds', hsame'⟩

theorem Above.congr {d d' : D} {v : ℕ} (h : Above d v) (hs : Same d' d) : Above d' v := by
  obtain ⟨base, e, ps, rs, vs, hbase, hfolds, hsame⟩ := h
  exact ⟨base, e, ps, rs, vs, hbase, hfolds, same_trans hs hsame⟩

theorem Above.truncate {d : D} {v : ℕ} (h : Above d v) : Above (Reducible.truncate d v).2 v := by
  obtain ⟨base, e, ps, rs, vs, rfl, hfolds, hsame⟩ := h
  exact (above_self base).congr (same_trans (same_truncate hsame _) hfolds.unwind)

/-- Whatever is minted next lies above the watermark, and so above the frontier. -/
structure Anchored (l : Log D (Watched S)) : Prop where
  above : Above l.data l.watermark
  synced : l.synced ≤ l.watermark

namespace Anchored

variable {l : Log D (Watched S)}

omit [Storage S V] in
/-- Records a batch of the log left lie above its frontier. -/
theorem fresh {ps : List P} {rs : List Record} {vs : List V} {d : D} (h : l.Anchored)
    (hf : Folds l.data ps rs vs d) : ∀ r ∈ rs, l.synced < r.version := by
  intro r hr
  have hbounds := hf.versions.1.bounds hr
  have habove := h.above.le
  have hsynced := h.synced
  omega

omit [Storage S V] in
theorem taken {ps : List P} {rs : List Record} {vs : List V} {d : D} {last : Record}
    (h : l.Anchored) (hf : Folds l.data ps rs vs d) (hlast : rs.getLast? = some last) :
    Above d last.version ∧ l.synced ≤ last.version := by
  rw [hf.last_version hlast]
  have hend := hf.versions.2
  have habove := h.above.le
  have hsynced := h.synced
  exact ⟨above_self d, by omega⟩

theorem append (h : l.Anchored) (ps : List P) (durability : Durability) :
    (l.append ps durability).2.Anchored := by
  have hcases := append_cases l ps durability
  generalize (l.append ps durability).1 = o at hcases
  generalize (l.append ps durability).2 = l' at hcases
  cases hcases with
  | stopped _ hstops =>
      refine ⟨?_, h.synced⟩
      have hreached := h.above.folds hstops.folds
      rcases hstops.cause with ⟨_, _, _, hd⟩ | ⟨_, _, _, happly, _, hd⟩
      · rwa [hd]
      · rw [hd]
        exact (hreached.congr (apply_error happly)).truncate
  | identity hf => exact ⟨h.above.folds hf, h.synced⟩
  | refused hf hlast hs => exact ⟨(h.above.folds hf).truncate, h.synced⟩
  | written hf hlast hs => exact ⟨(h.taken hf hlast).1, (h.taken hf hlast).2⟩
  | unflushed hf hlast hs _ hs' => exact ⟨(h.taken hf hlast).1, (h.taken hf hlast).2⟩
  | flushed hf hlast hs _ hs' => exact ⟨(h.taken hf hlast).1, le_rfl⟩

theorem checkpoint (h : l.Anchored) : l.checkpoint.2.Anchored := by
  unfold Log.checkpoint
  rcases Storage.writeHeader l.storage (Reducible.view l.data) with ⟨e | ⟨⟩, s⟩
  · exact ⟨h.above, h.synced⟩
  · rcases hs : Storage.sync s with ⟨e | ⟨⟩, s'⟩
    · simp only [hs]
      exact ⟨h.above, h.synced⟩
    · simp only [hs]
      exact ⟨h.above, le_rfl⟩

theorem sync (h : l.Anchored) : l.sync.2.Anchored := by
  unfold Log.sync
  rcases Storage.sync l.storage with ⟨e | ⟨⟩, s⟩
  · exact ⟨h.above, h.synced⟩
  · exact ⟨h.above, le_rfl⟩

theorem step (h : l.Anchored) (op : Operation P) : (l.step op).Anchored := by
  cases op with
  | append ps durability => exact h.append ps durability
  | checkpoint => exact h.checkpoint
  | sync => exact h.sync

end Anchored

/-- What one operation does to the frontier and to what waits below it: nothing, or
everything was flushed and the frontier moved on. -/
inductive Advances (l l' : Log D (Watched S)) : Prop
  | stays (synced : l'.synced = l.synced)
      (flushed : ∀ u ≤ l.synced, l.Flushed u → l'.Flushed u)
  | flushes (synced : l.synced ≤ l'.synced) (pending : l'.storage.pending = [])

omit [Storage S V] [Versioned V] [Serde P] [Reducible D P V] [ReducibleContract D] in
theorem Advances.synced_le {l l' : Log D (Watched S)} (h : l.Advances l') :
    l.synced ≤ l'.synced := by
  cases h with
  | stays synced => exact synced.ge
  | flushes synced => exact synced

omit [Storage S V] [Versioned V] [Serde P] [Reducible D P V] [ReducibleContract D] in
theorem Advances.flushed {l l' : Log D (Watched S)} (h : l.Advances l') {u : ℕ}
    (hu : u ≤ l.synced) (hflushed : l.Flushed u) : l'.Flushed u := by
  cases h with
  | stays _ flushed => exact flushed u hu hflushed
  | flushes _ pending =>
      intro r hr
      rw [pending] at hr
      cases hr

namespace Anchored

variable {l : Log D (Watched S)}

theorem append_advances (h : l.Anchored) (ps : List P) (durability : Durability) :
    l.Advances (l.append ps durability).2 := by
  have hcases := append_cases l ps durability
  generalize (l.append ps durability).1 = o at hcases
  generalize (l.append ps durability).2 = l' at hcases
  cases hcases with
  | stopped | identity => exact .stays rfl fun u _ hflushed => hflushed
  | refused hf hlast hs =>
      refine .stays rfl fun u _ hflushed r hr => ?_
      rw [Watched.append_error hs] at hr
      exact hflushed r hr
  | written hf hlast hs =>
      refine .stays rfl fun u hu hflushed r hr => ?_
      rw [Watched.append_ok hs, List.mem_append] at hr
      exact hr.elim (hflushed r) fun hnew => hu.trans_lt (h.fresh hf r hnew)
  | unflushed hf hlast hs _ hs' =>
      refine .stays rfl fun u hu hflushed r hr => ?_
      rw [Watched.sync_error hs', Watched.append_ok hs, List.mem_append] at hr
      exact hr.elim (hflushed r) fun hnew => hu.trans_lt (h.fresh hf r hnew)
  | flushed hf hlast hs _ hs' => exact .flushes (h.taken hf hlast).2 (Watched.sync_ok hs')

theorem checkpoint_advances (h : l.Anchored) : l.Advances l.checkpoint.2 := by
  unfold Log.checkpoint
  rcases hw : Storage.writeHeader l.storage (Reducible.view l.data) with ⟨e | ⟨⟩, s⟩
  · refine .stays rfl fun u _ hflushed r hr => ?_
    rw [Watched.writeHeader_error hw] at hr
    exact hflushed r hr
  · rcases hs : Storage.sync s with ⟨e | ⟨⟩, s'⟩
    · simp only [hs]
      exact .flushes le_rfl ((Watched.sync_error hs).trans (Watched.writeHeader_ok hw))
    · simp only [hs]
      exact .flushes h.synced (Watched.sync_ok hs)

theorem sync_advances (h : l.Anchored) : l.Advances l.sync.2 := by
  unfold Log.sync
  rcases hs : Storage.sync l.storage with ⟨e | ⟨⟩, s⟩
  · refine .stays rfl fun u _ hflushed r hr => ?_
    rw [Watched.sync_error hs] at hr
    exact hflushed r hr
  · exact .flushes h.synced (Watched.sync_ok hs)

theorem advances (h : l.Anchored) (op : Operation P) : l.Advances (l.step op) := by
  cases op with
  | append ps durability => exact h.append_advances ps durability
  | checkpoint => exact h.checkpoint_advances
  | sync => exact h.sync_advances

end Anchored

/-- The invariant: whatever is minted next lies above the watermark, and so above
the frontier. -/
structure Backed (l : Log D (Watched S)) : Prop where
  above : Above l.data l.watermark
  synced : l.synced ≤ l.watermark
  flushed : l.Flushed l.synced

namespace Backed

variable {l : Log D (Watched S)}

omit [Storage S V] in
theorem anchored (h : l.Backed) : l.Anchored := ⟨h.above, h.synced⟩

theorem step (h : l.Backed) (op : Operation P) : (l.step op).Backed := by
  have hstep := h.anchored.step op
  refine ⟨hstep.above, hstep.synced, ?_⟩
  cases h.anchored.advances op with
  | stays synced flushed =>
      rw [synced]
      exact flushed _ le_rfl h.flushed
  | flushes _ pending =>
      intro r hr
      rw [pending] at hr
      cases hr

end Backed

/-- What was opened is anchored, whatever its storage still has to flush. -/
theorem anchored_of_open {zero : D} {s : Watched S} {l : Log D (Watched S)}
    (h : Log.open zero s = .ok l) : l.Anchored := by
  obtain ⟨hversion, hsynced, -⟩ := open_data h
  refine ⟨?_, hsynced.le⟩
  rw [← hversion]
  exact above_self l.data

/-- A log opened where nothing waits for a flush. -/
theorem backed_of_open {zero : D} {s : Watched S} {l : Log D (Watched S)}
    (h : Log.open zero s = .ok l) (hs : s.pending = []) : l.Backed := by
  have hanchored := anchored_of_open h
  refine ⟨hanchored.above, hanchored.synced, fun r hr => ?_⟩
  have hkept : (Storage.load s).2.pending = s.pending := rfl
  rw [(open_data h).2.2, hkept, hs] at hr
  cases hr

end Log

namespace Session

variable [ReducibleContract D]

/-- What is opened is backed, whatever the processes before it did. -/
def Inv : Session D S → Prop
  | closed _ => True
  | opened l => l.Backed

theorem Step.inv {s t : Session D S} (h : Step (fun s => s.pending = []) s t) (hs : s.Inv) :
    t.Inv := by
  cases h with
  | opens h hkept => exact Log.backed_of_open h hkept
  | fails => trivial
  | operates op => exact Log.Backed.step hs op
  | restarts => trivial

theorem Run.inv {s t : Session D S} (h : Run (fun s => s.pending = []) s t) (hs : s.Inv) :
    t.Inv := by
  induction h with
  | refl => exact hs
  | tail _ hstep ih => exact hstep.inv ih

end Session

end Lug
