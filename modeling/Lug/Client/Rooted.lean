import Lug.Cavlc.History
import Lug.Cavlc.MergeLaws
import Lug.Client.View
import Lug.Wal.Store

/-!
Which roots a snapshot can have. Every way to one is followed, from the constructors that
look at the root to the documents that are taken for a snapshot on trust, and through
all that a store does with it.
-/

namespace Lug.Cavlc

namespace Value

/-- The root of a document an edit can be applied to. -/
def IsObject (v : Value) : Prop := v.asObject.isSome = true

theorem isObject_ofJson (j : Json) : (ofJson j).IsObject ↔ j.isObject = true := by
  cases j with
  | object fields => exact iff_of_true rfl rfl
  | null | bool b | number n | string s | array items => exact iff_of_false nofun nofun

end Value

/-- What comes of an edit is an object. -/
theorem Patch.isSome_of_applyAt {path : List String} {p : Patch Value} {k k' : Kind}
    (h : p.applyAt path k = .ok (some k')) : k'.asObject.isSome = true := by
  obtain ⟨create, update, delete⟩ := p
  rw [Patch.applyAt] at h
  split at h
  · cases h
  · obtain ⟨created, -, h⟩ := Except.bind_eq_ok.mp h
    obtain ⟨updated, -, h⟩ := Except.bind_eq_ok.mp h
    obtain ⟨deleted, -, h⟩ := Except.bind_eq_ok.mp h
    split_ifs at h
    · cases h
    · cases h
      rfl

namespace OrderedPatch

theorem apply_empty_kind (v : Value) : empty.patch.apply v.kind =
    match v.asObject with
    | none => .error (.precondition [] "expected an object")
    | some _ => .ok none := by
  show Patch.applyAt [] (.mk [] [] []) v.kind = _
  rw [Patch.applyAt, Value.asObject]
  cases v.kind.asObject with
  | none => rfl
  | some original => rfl

/-- The empty patch takes an object for what it is, and nothing else. -/
theorem apply_empty (v : Value) : empty.apply v = .ok none ↔ v.IsObject := by
  have hkind := apply_empty_kind v
  unfold apply
  rw [Value.IsObject]
  split
  case h_1 e he =>
    rw [hkind] at he
    cases hobject : v.asObject with
    | none => exact iff_of_false nofun nofun
    | some original =>
        rw [hobject] at he
        cases he
  case h_2 hnone =>
    rw [hkind] at hnone
    cases hobject : v.asObject with
    | none =>
        rw [hobject] at hnone
        cases hnone
    | some original => exact iff_of_true rfl rfl
  case h_3 k hsome =>
    rw [hkind] at hsome
    cases hobject : v.asObject with
    | none =>
        rw [hobject] at hsome
        cases hsome
    | some original =>
        rw [hobject] at hsome
        cases hsome

/-- What comes of an edit is an object. -/
theorem isObject_of_apply {p : OrderedPatch} {v w : Value} (h : p.apply v = .ok (some w)) :
    w.IsObject := by
  unfold apply at h
  split at h
  case h_1 => cases h
  case h_2 => cases h
  case h_3 k hk =>
    cases h
    show k.asObject.isSome = true
    rw [Patch.apply] at hk
    obtain ⟨-, -, hk⟩ := Except.bind_eq_ok.mp hk
    exact Patch.isSome_of_applyAt hk

end OrderedPatch

end Lug.Cavlc

namespace Lug.Client

open Cavlc SortedMap

/-! ### Documents that are taken for a snapshot -/

/-- The root of the snapshot in this document, if it is one, is an object. -/
def Rooted : Json → Prop
  | .array [_, root] => root.isObject = true
  | .object fields => ∀ root, fields.lookup "root" = some root → root.isObject = true
  | _ => True

/-- `Deserialize for Snapshot` takes the root as it finds it. -/
theorem isObject_readSnapshot {j : Json} {t : Snapshot} (h : readSnapshot j = some t) :
    t.root.IsObject ↔ Rooted j := by
  unfold readSnapshot at h
  split at h
  case h_1 version root =>
    obtain ⟨n, -, rfl⟩ := Option.map_eq_some_iff.mp h
    exact Value.isObject_ofJson root
  case h_2 fields =>
    split_ifs at h
    obtain ⟨version, -, h⟩ := Option.bind_eq_some_iff.mp h
    obtain ⟨root, hroot, h⟩ := Option.bind_eq_some_iff.mp h
    obtain ⟨n, -, rfl⟩ := Option.map_eq_some_iff.mp h
    rw [Value.isObject_ofJson]
    constructor
    · intro hobject root' hroot'
      rw [hroot] at hroot'
      cases hroot'
      exact hobject
    · intro hrooted
      exact hrooted root hroot
  case h_3 => cases h

theorem isObject_newSnapshot {version : ℕ} {root : Value} {t : Snapshot}
    (h : newSnapshot version root = .ok t) : t.root.IsObject := by
  rw [newSnapshot] at h
  split_ifs at h with hnone
  cases h
  cases hobject : root.asObject with
  | none => exact absurd (by rw [hobject]; rfl) hnone
  | some map => exact congrArg Option.isSome hobject

mutual

/-- The document and what stands in its field `view`, in its turn: what `snapshot_from`
may take for a snapshot. -/
def nested : Json → List Json
  | .object fields => .object fields :: nestedView fields
  | value => [value]

def nestedView : List (String × Json) → List Json
  | [] => []
  | (key, inner) :: fields => if key = "view" then nested inner else nestedView fields

end

theorem nestedView_eq (fields : List (String × Json)) :
    nestedView fields = (fields.lookup "view").elim [] nested := by
  induction fields with
  | nil => rfl
  | cons f fields ih =>
      obtain ⟨key, inner⟩ := f
      rw [nestedView, List.lookup_cons]
      by_cases hkey : key = "view"
      · subst hkey
        rfl
      · have hother : ("view" == key) = false := beq_eq_false_iff_ne.mpr (Ne.symm hkey)
        rw [if_neg hkey, ih, hother]

/-- A snapshot out of a view frame was deserialized from a document in it, or its root was
looked at. -/
theorem snapshotFrom_cases {version : ℕ} {j : Json} {t : Snapshot}
    (h : snapshotFrom version j = .ok t) :
    (∃ k ∈ nested j, readSnapshot k = some t) ∨ t.root.IsObject := by
  have hread : ∀ {j : Json}, (readSnapshot j).elim (newSnapshot version (Value.ofJson j)) .ok =
      .ok t → j ∈ nested j → (∃ k ∈ nested j, readSnapshot k = some t) ∨ t.root.IsObject := by
    intro j h hself
    cases hsnapshot : readSnapshot j with
    | some snapshot =>
        rw [hsnapshot] at h
        cases h
        exact .inl ⟨j, hself, hsnapshot⟩
    | none =>
        rw [hsnapshot] at h
        exact .inr (isObject_newSnapshot h)
  induction j using Json.induction with
  | null => exact hread h List.mem_cons_self
  | bool b => exact hread h List.mem_cons_self
  | number n => exact hread h List.mem_cons_self
  | string s => exact hread h List.mem_cons_self
  | array items _ =>
      refine hread ?_ List.mem_cons_self
      rw [← h, snapshotFrom]
      · cases readSnapshot (.array items) <;> rfl
      · rintro _ ⟨⟩
  | object fields ih =>
      rw [snapshotFrom] at h
      split at h
      · rename_i snapshot hsnapshot
        cases h
        exact .inl ⟨_, List.mem_cons_self, hsnapshot⟩
      · rw [viewFrom_eq] at h
        cases hview : fields.lookup "view" with
        | none =>
            rw [hview] at h
            exact .inr (isObject_newSnapshot h)
        | some inner =>
            rw [hview] at h
            refine (ih _ (mem_of_lookup hview) h).imp_left ?_
            rintro ⟨k, hk, hread⟩
            refine ⟨k, List.mem_cons_of_mem _ ?_, hread⟩
            rw [nestedView_eq, hview]
            exact hk

/-! ### All that can be obtained -/

/-- What the public functions hand out. -/
inductive Item
  | snapshot (t : Snapshot)
  | store (s : Store)
  | batch (b : Batch)

def Item.roots : Item → List Value
  | .snapshot t => [t.root]
  | .store s => s.snapshots.map Snapshot.root
  | .batch b => [b.base.root, b.working]

/-- What can be obtained, in any order and from any number of stores, where every document
that a snapshot was deserialized from meets a condition. -/
inductive Obtained (Meets : Json → Prop) : Item → Prop
  | newSnapshot {version root t} (h : Client.newSnapshot version root = .ok t) :
      Obtained Meets (.snapshot t)
  | deserialized {j t} (h : readSnapshot j = some t) (hj : Meets j) : Obtained Meets (.snapshot t)
  | snapshotFrom {version j t} (h : Client.snapshotFrom version j = .ok t)
      (hj : ∀ k ∈ nested j, readSnapshot k = some t → Meets k) : Obtained Meets (.snapshot t)
  /-- `serde_json` reads the view in a header as it reads a snapshot. -/
  | header (crc : Wal.Crc32) (serde : Wal.HeaderSerde Snapshot) {bytes : Bytes}
      {h : Wal.Header Snapshot} {j : Json} (parsed : Wal.parseHeader bytes = .ok h)
      (hread : readSnapshot j = some h.view) (hj : Meets j) : Obtained Meets (.snapshot h.view)
  | new (owner : ℕ) : Obtained Meets (.store (.new owner))
  | fromValue {owner root s} (h : Store.fromValue owner root = .ok s) : Obtained Meets (.store s)
  | resume (owner : ℕ) {t} (ht : Obtained Meets (.snapshot t)) :
      Obtained Meets (.store (.resume owner t))
  | replay {owner initial records s} (h : Store.replay owner initial records = .ok s) :
      Obtained Meets (.store s)
  | snapshot {s} (hs : Obtained Meets (.store s)) : Obtained Meets (.snapshot s.snapshot)
  | snapshotAt {s version t} (hs : Obtained Meets (.store s))
      (h : s.snapshotAt version = some t) : Obtained Meets (.snapshot t)
  | truncate {s} (version : ℕ) (hs : Obtained Meets (.store s)) :
      Obtained Meets (.store (s.truncate version))
  | beginBatch {s} (hs : Obtained Meets (.store s)) : Obtained Meets (.batch s.beginBatch)
  | edit {b b' p} (hb : Obtained Meets (.batch b)) (h : b.apply p = .ok b') :
      Obtained Meets (.batch b')
  | base {b} (hb : Obtained Meets (.batch b)) : Obtained Meets (.snapshot b.base)
  | applyBatch {s b} (hs : Obtained Meets (.store s)) (hb : Obtained Meets (.batch b)) :
      Obtained Meets (.store (s.applyBatch b).2)
  | applied {s b r} (hs : Obtained Meets (.store s)) (hb : Obtained Meets (.batch b))
      (h : (s.applyBatch b).1 = .ok r) : Obtained Meets (.snapshot r.snapshot)
  | apply {s} (p : OrderedPatch) (hs : Obtained Meets (.store s)) :
      Obtained Meets (.store (s.apply p).2)
  | minted {s p r} (hs : Obtained Meets (.store s)) (h : (s.apply p).1 = .ok r) :
      Obtained Meets (.snapshot r.snapshot)

/-! ### What a store does with its roots -/

def Item.Objects (i : Item) : Prop := ∀ v ∈ i.roots, v.IsObject

namespace Objects

variable {s : Store} {b : Batch}

theorem of_store (h : (Item.store s).Objects) {t : Snapshot} (ht : t ∈ s.snapshots) :
    t.root.IsObject := h _ (List.mem_map_of_mem ht)

theorem snapshot (h : (Item.store s).Objects) : s.snapshot.root.IsObject :=
  of_store h (List.getLast_mem s.nonempty)

theorem beginBatch (h : (Item.store s).Objects) : (Item.batch s.beginBatch).Objects := by
  intro v hv
  have hroot := snapshot h
  simp only [Item.roots, List.mem_cons, List.not_mem_nil, or_false] at hv
  cases hv with
  | inl hbase => exact hbase ▸ hroot
  | inr hworking => exact hworking ▸ hroot

theorem edit (h : (Item.batch b).Objects) {b' : Batch} {p : OrderedPatch}
    (happly : b.apply p = .ok b') : (Item.batch b').Objects := by
  obtain rfl | ⟨u, hu, rfl⟩ := Batch.apply_cases happly
  · exact h
  · intro v hv
    simp only [Item.roots, List.mem_cons, List.not_mem_nil, or_false] at hv
    cases hv with
    | inl hbase => exact h v (by rw [hbase]; exact List.mem_cons_self)
    | inr hworking =>
        rw [hworking]
        exact OrderedPatch.isObject_of_apply hu

theorem working (h : (Item.batch b).Objects) : b.working.IsObject :=
  h _ (List.mem_cons_of_mem _ List.mem_cons_self)

theorem push (h : (Item.store s).Objects) {root : Value} (hroot : root.IsObject)
    (patches : List OrderedPatch) : (Item.store (s.push root patches)).Objects := by
  intro v hv
  obtain ⟨t, ht, rfl⟩ := List.mem_map.mp hv
  cases List.mem_append.mp ht with
  | inl hold => exact of_store h hold
  | inr hnew =>
      rw [List.mem_singleton.mp hnew]
      exact hroot

theorem applyBatch (h : (Item.store s).Objects) (hb : (Item.batch b).Objects) :
    (Item.store (s.applyBatch b).2).Objects := by
  obtain hsame | ⟨-, -, -, hpush⟩ := s.applyBatch_cases b
  · rwa [hsame]
  · rw [hpush]
    exact push h (working hb) b.patches

theorem applied (h : (Item.store s).Objects) (hb : (Item.batch b).Objects) {r : ApplyResult}
    (hr : (s.applyBatch b).1 = .ok r) : r.snapshot.root.IsObject := by
  unfold Store.applyBatch at hr
  dsimp only at hr
  split_ifs at hr
  · cases hr
    exact snapshot h
  · cases hr
    exact working hb

theorem truncate (h : (Item.store s).Objects) (version : ℕ) :
    (Item.store (s.truncate version)).Objects := by
  by_cases hbase : s.base ≤ version
  · obtain ⟨-, -, hsnapshots, -⟩ := Store.truncate_eq hbase
    intro v hv
    obtain ⟨t, ht, rfl⟩ := List.mem_map.mp hv
    rw [hsnapshots] at ht
    exact of_store h (List.mem_of_mem_take ht)
  · rw [Store.truncate, if_pos (by omega)]
    exact h

theorem apply (h : (Item.store s).Objects) (p : OrderedPatch) :
    (Item.store (s.apply p).2).Objects := by
  rw [Store.apply]
  cases hp : s.beginBatch.apply p with
  | error e => exact h
  | ok batch => exact applyBatch h (edit (beginBatch h) hp)

theorem minted (h : (Item.store s).Objects) {p : OrderedPatch} {r : ApplyResult}
    (hr : (s.apply p).1 = .ok r) : r.snapshot.root.IsObject := by
  rw [Store.apply] at hr
  cases hp : s.beginBatch.apply p with
  | error e =>
      rw [hp] at hr
      cases hr
  | ok batch =>
      rw [hp] at hr
      exact applied h (edit (beginBatch h) hp) hr

theorem fromValue {owner : ℕ} {root : Value} (h : Store.fromValue owner root = .ok s) :
    (Item.store s).Objects := by
  rw [Store.fromValue] at h
  split_ifs at h with hnone
  cases h
  intro v hv
  rw [List.mem_singleton.mp hv]
  cases hobject : root.asObject with
  | none => exact absurd (by rw [hobject]; rfl) hnone
  | some map => exact congrArg Option.isSome hobject

theorem replayed {patches : List OrderedPatch} {b b' : Batch} (hb : (Item.batch b).Objects)
    (h : Batch.replay patches b = .ok b') : (Item.batch b').Objects := by
  induction patches generalizing b with
  | nil =>
      cases h
      exact hb
  | cons p rest ih =>
      rw [Batch.replay] at h
      cases hp : b.apply p with
      | error e =>
          rw [hp] at h
          cases h
      | ok next =>
          rw [hp] at h
          dsimp only at h
          split_ifs at h
          exact ih (edit hb hp) h

theorem replayRecord {s' : Store} (hs : (Item.store s).Objects) {record : Commit}
    (h : s.replayRecord record = .ok s') : (Item.store s').Objects := by
  rw [Store.replayRecord] at h
  split_ifs at h
  cases hbatch : Batch.replay record.patches s.beginBatch with
  | error e =>
      rw [hbatch] at h
      cases h
  | ok batch =>
      rw [hbatch] at h
      have hpublished := applyBatch hs (replayed (beginBatch hs) hbatch)
      dsimp only at h
      generalize s.applyBatch batch = r at h hpublished
      obtain ⟨r, next⟩ := r
      cases r with
      | error e => cases h
      | ok applied =>
          cases h
          exact hpublished

theorem replayRecords {s' : Store} {records : List Commit} (hs : (Item.store s).Objects)
    (h : Store.replayRecords records s = .ok s') : (Item.store s').Objects := by
  induction records generalizing s with
  | nil =>
      cases h
      exact hs
  | cons record rest ih =>
      rw [Store.replayRecords] at h
      cases hrecord : s.replayRecord record with
      | error e =>
          rw [hrecord] at h
          cases h
      | ok next =>
          rw [hrecord] at h
          exact ih (replayRecord hs hrecord) h

theorem replay {owner : ℕ} {initial : Value} {records : List Commit}
    (h : Store.replay owner initial records = .ok s) : (Item.store s).Objects := by
  rw [Store.replay] at h
  cases hfirst : Store.fromValue owner initial with
  | error e =>
      rw [hfirst] at h
      cases h
  | ok first =>
      rw [hfirst] at h
      exact replayRecords (fromValue hfirst) h

end Objects

theorem objects_snapshot {t : Snapshot} : (Item.snapshot t).Objects ↔ t.root.IsObject := by
  simp [Item.Objects, Item.roots]

/-- As long as every document a snapshot was deserialized from has an object for its root,
so has everything. -/
theorem Obtained.objects {i : Item} (h : Obtained Rooted i) : i.Objects := by
  induction h with
  | newSnapshot h => exact objects_snapshot.mpr (isObject_newSnapshot h)
  | deserialized h hj => exact objects_snapshot.mpr ((isObject_readSnapshot h).mpr hj)
  | snapshotFrom h hj =>
      refine objects_snapshot.mpr ((snapshotFrom_cases h).elim ?_ id)
      rintro ⟨k, hk, hread⟩
      exact (isObject_readSnapshot hread).mpr (hj k hk hread)
  | header _ _ _ hread hj => exact objects_snapshot.mpr ((isObject_readSnapshot hread).mpr hj)
  | new owner => exact Objects.fromValue (Store.fromValue_default owner)
  | fromValue h => exact Objects.fromValue h
  | resume owner _ ih =>
      intro v hv
      rw [List.mem_singleton.mp hv]
      exact objects_snapshot.mp ih
  | replay h => exact Objects.replay h
  | snapshot _ ih => exact objects_snapshot.mpr (Objects.snapshot ih)
  | snapshotAt _ h ih =>
      rw [Store.snapshotAt] at h
      split_ifs at h
      exact objects_snapshot.mpr (Objects.of_store ih (List.mem_of_getElem? h))
  | truncate version _ ih => exact Objects.truncate ih version
  | beginBatch _ ih => exact Objects.beginBatch ih
  | edit _ h ih => exact Objects.edit ih h
  | base _ ih => exact objects_snapshot.mpr (ih _ List.mem_cons_self)
  | applyBatch _ _ ihs ihb => exact Objects.applyBatch ihs ihb
  | applied _ _ h ihs ihb => exact objects_snapshot.mpr (Objects.applied ihs ihb h)
  | apply p _ ih => exact Objects.apply ih p
  | minted _ h ih => exact objects_snapshot.mpr (Objects.minted ih h)

/-- In every run whose deserialized snapshots have an object for their root all roots are
objects, and the empty patch can be applied to them; and of a document that is taken for
a snapshot the root is one if and only if it says so. -/
theorem rooted_iff (i : Item) (j : Json) : (Obtained Rooted i → ∀ v ∈ i.roots,
      v.IsObject ∧ OrderedPatch.empty.apply v = .ok none) ∧
    ∀ t, readSnapshot j = some t →
      (Rooted j ↔ t.root.IsObject ∧ OrderedPatch.empty.apply t.root = .ok none) := by
  refine ⟨fun hi v hv => ?_, fun t h => ?_⟩
  · exact ⟨hi.objects v hv, (OrderedPatch.apply_empty v).mpr (hi.objects v hv)⟩
  · rw [OrderedPatch.apply_empty, and_self]
    exact (isObject_readSnapshot h).symm

/-- `{"root":1,"version":0}`. -/
def rootless : Json := .object [("root", .number (.int 1)), ("version", .number (.int 0))]

/-- A snapshot of an empty document, and a store that goes on from it. -/
theorem rooted_iff_resumed :
    (∀ v ∈ (Item.store (.resume 0 ⟨0, Value.ofJson (.object [])⟩)).roots,
      v.IsObject ∧ OrderedPatch.empty.apply v = .ok none) ∧
    (Rooted rootless ↔ (Value.ofJson (.number (.int 1))).IsObject ∧
      OrderedPatch.empty.apply (Value.ofJson (.number (.int 1))) = .ok none) := by
  have hread : readSnapshot (.object [("root", .object []), ("version", .number (.int 0))]) =
      some ⟨0, Value.ofJson (.object [])⟩ := rfl
  refine ⟨(rooted_iff _ rootless).1 (.resume 0 (.deserialized hread fun root hroot => ?_)),
    (rooted_iff (.store (.resume 0 ⟨0, Value.ofJson (.object [])⟩)) rootless).2
      ⟨0, Value.ofJson (.number (.int 1))⟩ rfl⟩
  cases hroot
  rfl

/-- A snapshot whose root is a number is deserialized, and a store resumed from it
refuses the empty patch. -/
theorem rootless_obtained : ¬ ∀ i, Obtained (fun _ => True) i → ∀ v ∈ i.roots,
    v.IsObject ∧ OrderedPatch.empty.apply v = .ok none := by
  intro h
  have hstore : Obtained (fun _ => True)
      (.store (.resume 0 ⟨0, Value.ofJson (.number (.int 1))⟩)) :=
    .resume 0 (.deserialized (j := rootless) rfl trivial)
  have hroot := (h _ hstore _ List.mem_cons_self).1
  cases hroot

end Lug.Client
