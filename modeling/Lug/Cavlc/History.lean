import Lug.Cavlc.Store

/-!
What a store keeps of its past: the snapshots and the log tell the same story,
and replaying the log tells it once more.
-/

namespace Lug.Cavlc

open Runs

/-! ### Replaying a log -/

/-- The patches of one record, none of which may leave the document as it was. -/
def Batch.replay : List OrderedPatch → Batch → Except Error Batch
  | [], batch => .ok batch
  | patch :: rest, batch =>
      match batch.apply patch with
      | .error e => .error e
      | .ok next =>
          if next.patches.length = batch.patches.length then
            .error (.invalidPatch "identity patch in batch log")
          else replay rest next

namespace Store

/-- One record of `replay`. -/
def replayRecord (s : Store) (record : Commit) : Except Error Store :=
  if versionMax ≤ s.snapshot.version then .error .versionOverflow
  else if record.version ≠ s.snapshot.version + 1 then
    .error (.invalidVersion (s.snapshot.version + 1) record.version)
  else if record.patches.isEmpty then .error (.invalidPatch "empty batch in log")
  else
    match Batch.replay record.patches s.beginBatch with
    | .error e => .error e
    | .ok batch =>
        match s.applyBatch batch with
        | (.error e, _) => .error e
        | (.ok _, next) => .ok next

def replayRecords : List Commit → Store → Except Error Store
  | [], s => .ok s
  | record :: rest, s =>
      match s.replayRecord record with
      | .error e => .error e
      | .ok next => replayRecords rest next

/-- `replay`; the owner is a fresh allocation. -/
def replay (owner : ℕ) (initial : Value) (records : List Commit) : Except Error Store :=
  match fromValue owner initial with
  | .error e => .error e
  | .ok s => replayRecords records s

/-- `patches_between`; the half-open range of versions (after, through]. -/
def patchesBetween (s : Store) (after through : ℕ) : Option (List Commit) :=
  if after > through ∨ after < s.base then none
  else if s.log.length < through - s.base then none
  else some ((s.log.take (through - s.base)).drop (after - s.base))

/-- `Store::apply`: a batch of one patch. -/
def apply (s : Store) (patch : OrderedPatch) : Except Error ApplyResult × Store :=
  match s.beginBatch.apply patch with
  | .error e => (.error e, s)
  | .ok batch => s.applyBatch batch

end Store

/-! ### Commits between snapshots -/

/-- The patches lead from one document to the other, each of them a step. -/
def Leads : List OrderedPatch → Value → Value → Prop
  | [], v, w => v = w
  | p :: rest, v, w => ∃ u, p.apply v = .ok (some u) ∧ Leads rest u w

theorem leads_append {ps qs : List OrderedPatch} {u v w : Value} (hp : Leads ps u v)
    (hq : Leads qs v w) : Leads (ps ++ qs) u w := by
  induction ps generalizing u with
  | nil =>
      obtain rfl : u = v := hp
      exact hq
  | cons p ps ih =>
      obtain ⟨t, happly, hrest⟩ := hp
      exact ⟨t, happly, ih hrest⟩

/-- The commit turns one snapshot into the next. -/
structure Commit.Turns (c : Commit) (s t : Snapshot) : Prop where
  named : c.version = s.version + 1
  reached : t.version = c.version
  counted : c.version ≤ versionMax
  nonempty : c.patches ≠ []
  leads : Leads c.patches s.root t.root

/-- The log leads from the first snapshot through the ones behind it. -/
def Told : Snapshot → List Commit → List Snapshot → Prop
  | _, [], [] => True
  | s, c :: log, t :: later => c.Turns s t ∧ Told t log later
  | _, _, _ => False

namespace Told

variable {s t : Snapshot} {c : Commit} {log : List Commit} {later : List Snapshot}

theorem length_eq (h : Told s log later) : later.length = log.length := by
  induction log generalizing s later with
  | nil =>
      cases later with
      | nil => rfl
      | cons t later => cases h
  | cons c log ih =>
      cases later with
      | nil => cases h
      | cons t later => rw [List.length_cons, List.length_cons, ih h.2]

theorem append (h : Told s log later) (hturns : c.Turns ((s :: later).getLast (by simp)) t) :
    Told s (log ++ [c]) (later ++ [t]) := by
  induction log generalizing s later with
  | nil =>
      cases later with
      | nil => exact ⟨hturns, trivial⟩
      | cons t later => cases h
  | cons c' log ih =>
      cases later with
      | nil => cases h
      | cons t' later =>
          rw [List.getLast_cons (List.cons_ne_nil _ _)] at hturns
          exact ⟨h.1, ih h.2 hturns⟩

theorem take (h : Told s log later) (n : ℕ) : Told s (log.take n) (later.take n) := by
  induction n generalizing s log later with
  | zero => trivial
  | succ n ih =>
      cases log with
      | nil =>
          cases later with
          | nil => trivial
          | cons t later => cases h
      | cons c log =>
          cases later with
          | nil => cases h
          | cons t later => exact ⟨h.1, ih h.2⟩

/-- The commits are numbered on from the first snapshot. -/
theorem consecutive (h : Told s log later) : Consecutive Commit.version (s.version + 1) log := by
  induction log generalizing s later with
  | nil => trivial
  | cons c log ih =>
      cases later with
      | nil => cases h
      | cons t later =>
          obtain ⟨hturns, hrest⟩ := h
          have hnext := ih hrest
          rw [hturns.reached, hturns.named] at hnext
          exact ⟨hturns.named, hnext⟩

end Told

/-! ### A replay goes through -/

/-- A batch and the patches it took, each of them a step. -/
structure Batch.Led (b : Batch) : Prop where
  leads : Leads b.patches b.base.root b.working

theorem Store.led_beginBatch (s : Store) : s.beginBatch.Led := ⟨rfl⟩

/-- A patch that a batch takes leads on, or it left the batch as it was. -/
theorem Batch.apply_cases {b b' : Batch} {p : OrderedPatch} (h : b.apply p = .ok b') :
    b' = b ∨ ∃ u, p.apply b.working = .ok (some u) ∧
      b' = { b with patches := b.patches ++ [p], working := u } := by
  rw [Batch.apply] at h
  split at h
  · cases h
  · cases h
    exact .inl rfl
  · rename_i next hnext
    cases h
    exact .inr ⟨next, hnext, rfl⟩

theorem Batch.Led.apply {b b' : Batch} {p : OrderedPatch} (hled : b.Led)
    (h : b.apply p = .ok b') : b'.Led ∧ b'.owner = b.owner ∧ b'.base = b.base := by
  obtain rfl | ⟨u, hu, rfl⟩ := Batch.apply_cases h
  · exact ⟨hled, rfl, rfl⟩
  · exact ⟨⟨leads_append hled.leads ⟨u, hu, rfl⟩⟩, rfl, rfl⟩

namespace Store

variable {s : Store}

/-- What a publication does to the store: nothing, or one commit more. -/
theorem applyBatch_cases (s : Store) (b : Batch) : (s.applyBatch b).2 = s ∨
    s.snapshot.version = b.base.version ∧ b.patches ≠ [] ∧ s.snapshot.version < versionMax ∧
      (s.applyBatch b).2 = s.push b.working b.patches := by
  unfold applyBatch
  dsimp only
  split_ifs with howner hbase hempty hmax
  · exact .inl rfl
  · exact .inl rfl
  · exact .inl rfl
  · refine .inr ⟨not_not.mp hbase, fun hnil => hempty ?_, hmax, rfl⟩
    rw [hnil]
    rfl
  · exact .inl rfl

theorem applyBatch_publish {b : Batch} (howner : s.owner = b.owner)
    (hbase : s.snapshot.version = b.base.version) (hne : b.patches ≠ [])
    (hmax : s.snapshot.version < versionMax) :
    s.applyBatch b = (.ok ⟨⟨s.snapshot.version + 1, b.working⟩,
      some ⟨s.snapshot.version + 1, b.patches⟩⟩, s.push b.working b.patches) := by
  have hempty : ¬b.patches.isEmpty = true := fun h => hne (List.isEmpty_iff.mp h)
  unfold applyBatch
  dsimp only
  rw [if_neg (not_not.mpr howner), if_neg (not_not.mpr hbase), if_neg hempty, if_pos hmax]

/-- The snapshots of the store and its log tell the same, from `first` on. -/
def Tells (s : Store) (first : Snapshot) : Prop :=
  ∃ later, s.snapshots = first :: later ∧ Told first s.log later

theorem Tells.push {first : Snapshot} (h : s.Tells first) {b : Batch} (hled : b.Led)
    (hbase : b.base = s.snapshot) (hne : b.patches ≠ []) (hmax : s.snapshot.version < versionMax) :
    (s.push b.working b.patches).Tells first := by
  obtain ⟨later, hsnapshots, htold⟩ := h
  have hlast : s.snapshot = (first :: later).getLast (List.cons_ne_nil _ _) := by
    simp only [snapshot, hsnapshots]
  refine ⟨later ++ [⟨s.snapshot.version + 1, b.working⟩], ?_, htold.append ?_⟩
  · show s.snapshots ++ _ = _
    rw [hsnapshots]
    rfl
  · rw [← hlast]
    exact ⟨rfl, rfl, hmax, hne, hbase ▸ hled.leads⟩

theorem Tells.truncate {first : Snapshot} (h : s.Tells first) (version : ℕ) :
    (s.truncate version).Tells first := by
  obtain ⟨later, hsnapshots, htold⟩ := h
  by_cases hbase : s.base ≤ version
  · obtain ⟨-, -, hkept, hlog⟩ := truncate_eq hbase
    refine ⟨later.take (version - s.base), ?_, hlog ▸ htold.take _⟩
    rw [hkept, hsnapshots, List.take_succ_cons]
  · rw [Store.truncate, if_pos (by omega)]
    exact ⟨later, hsnapshots, htold⟩

/-- Truncating keeps the snapshots up to the version it leaves. -/
theorem snapshotAt_truncate {version kept : ℕ} (h : kept ≤ (s.truncate version).snapshot.version) :
    (s.truncate version).snapshotAt kept = s.snapshotAt kept := by
  by_cases hbase : s.base ≤ version
  · obtain ⟨-, hsame, hsnapshots, -⟩ := truncate_eq hbase
    have hversion := (s.truncate version).snapshot_version
    rw [hsame, hsnapshots, List.length_take] at hversion
    rw [snapshotAt, snapshotAt, hsame, hsnapshots]
    split_ifs
    · rfl
    · exact List.getElem?_take_of_lt (by omega)
  · rw [truncate, if_pos (by omega)]

end Store

/-! ### One store and the batches begun on it -/

/-- A batch that is not published or dropped yet, and whether a call of `truncate` took
its base since it was begun. -/
structure Open where
  batch : Batch
  discarded : Bool

/-- One single-writer concurrency domain. -/
structure Domain where
  store : Store
  batches : List Open

inductive Event
  | begin
  | edit (i : ℕ) (patch : OrderedPatch)
  | publish (i : ℕ)
  | drop (i : ℕ)
  | apply (patch : OrderedPatch)
  | truncate (version : ℕ)

/-- The batch behind a call of `truncate` that left this store. -/
def Open.behind (o : Open) (s : Store) : Open where
  batch := o.batch
  discarded := o.discarded || decide (s.snapshot.version < o.batch.base.version)

namespace Domain

def step (d : Domain) : Event → Domain
  | .begin => { d with batches := d.batches ++ [⟨d.store.beginBatch, false⟩] }
  | .edit i patch =>
      match d.batches[i]? with
      | none => d
      | some o =>
          match o.batch.apply patch with
          | .error _ => d
          | .ok batch => { d with batches := d.batches.set i { o with batch } }
  | .publish i =>
      match d.batches[i]? with
      | none => d
      | some o => ⟨(d.store.applyBatch o.batch).2, d.batches.eraseIdx i⟩
  | .drop i => { d with batches := d.batches.eraseIdx i }
  | .apply patch => { d with store := (d.store.apply patch).2 }
  | .truncate version =>
      ⟨d.store.truncate version, d.batches.map fun o => o.behind (d.store.truncate version)⟩

/-- No batch is published behind a call of `truncate` that took its base. -/
def Orderly (d : Domain) : Event → Prop
  | .publish i => ∀ o, d.batches[i]? = some o → o.discarded = false
  | _ => True

end Domain

/-- What comes of a store by calls that meet a condition. -/
inductive Run (Meets : Domain → Event → Prop) (s : Store) : Domain → Prop
  | start : Run Meets s ⟨s, []⟩
  | step {d : Domain} {event : Event} : Run Meets s d → Meets d event → Run Meets s (d.step event)

/-- A batch the store began: it took patches that lead from its base, which is still
there unless it was discarded. -/
structure Open.Begun (o : Open) (s : Store) : Prop where
  owner : o.batch.owner = s.owner
  led : o.batch.Led
  retained : o.discarded = false → s.snapshotAt o.batch.base.version = some o.batch.base

namespace Open.Begun

variable {o : Open} {s : Store}

theorem push (h : o.Begun s) (root : Value) (patches : List OrderedPatch) :
    o.Begun (s.push root patches) := by
  refine ⟨h.owner, h.led, fun hkept => ?_⟩
  have hretained := h.retained hkept
  rw [Store.snapshotAt_push, hretained]
  by_contra hlater
  rw [Store.snapshotAt_above (not_le.mp hlater)] at hretained
  cases hretained

theorem behind (h : o.Begun s) (version : ℕ) :
    (o.behind (s.truncate version)).Begun (s.truncate version) := by
  refine ⟨?_, h.led, fun hkept => ?_⟩
  · rw [show (o.behind (s.truncate version)).batch.owner = s.owner from h.owner, Store.truncate]
    split_ifs
    · rfl
    · rfl
    · rfl
  · obtain ⟨hbefore, hnow⟩ := Bool.or_eq_false_iff.mp hkept
    rw [show (o.behind (s.truncate version)).batch = o.batch from rfl,
      Store.snapshotAt_truncate (not_lt.mp (of_decide_eq_false hnow)), h.retained hbefore]

end Open.Begun

namespace Domain

/-- What holds of a store and its batches whatever is called. -/
def Sound (d : Domain) : Prop := ∀ o ∈ d.batches, o.Begun d.store

variable {d : Domain}

theorem Sound.published (h : d.Sound) (b : Batch) {batches : List Open}
    (hsub : ∀ o ∈ batches, o ∈ d.batches) : Sound ⟨(d.store.applyBatch b).2, batches⟩ := by
  intro o ho
  have hbegun := h o (hsub o ho)
  obtain hsame | ⟨-, -, -, hpush⟩ := d.store.applyBatch_cases b
  · show o.Begun (d.store.applyBatch b).2
    rwa [hsame]
  · show o.Begun (d.store.applyBatch b).2
    rw [hpush]
    exact hbegun.push _ _

theorem Sound.step (h : d.Sound) (event : Event) : (d.step event).Sound := by
  cases event with
  | begin =>
      intro o ho
      cases List.mem_append.mp ho with
      | inl hold => exact h o hold
      | inr hnew =>
          rw [List.mem_singleton.mp hnew]
          exact ⟨rfl, d.store.led_beginBatch, fun _ => d.store.snapshotAt_version⟩
  | edit i patch =>
      rw [Domain.step]
      cases hi : d.batches[i]? with
      | none => exact h
      | some o =>
          dsimp only
          have hbegun := h o (List.mem_of_getElem? hi)
          cases happly : o.batch.apply patch with
          | error e => exact h
          | ok batch =>
              obtain ⟨hled, howner, hbase⟩ := hbegun.led.apply happly
              intro o' ho'
              cases List.mem_or_eq_of_mem_set ho' with
              | inl hold => exact h o' hold
              | inr hnew =>
                  rw [hnew]
                  exact ⟨howner.trans hbegun.owner, hled,
                    fun hkept => hbase ▸ hbegun.retained hkept⟩
  | publish i =>
      rw [Domain.step]
      cases hi : d.batches[i]? with
      | none => exact h
      | some o => exact h.published o.batch fun _ => List.mem_of_mem_eraseIdx
  | drop i => exact fun o ho => h o (List.mem_of_mem_eraseIdx ho)
  | apply patch =>
      show Sound ⟨(d.store.apply patch).2, d.batches⟩
      rw [Store.apply]
      cases d.store.beginBatch.apply patch with
      | error e => exact h
      | ok batch => exact h.published batch fun _ => id
  | truncate version =>
      intro o ho
      obtain ⟨o, hold, rfl⟩ := List.mem_map.mp ho
      exact (h o hold).behind version

end Domain

theorem Run.sound {Meets : Domain → Event → Prop} {s : Store} {d : Domain} (h : Run Meets s d) :
    d.Sound := by
  induction h with
  | start => exact nofun
  | step _ _ ih => exact ih.step _

end Lug.Cavlc
