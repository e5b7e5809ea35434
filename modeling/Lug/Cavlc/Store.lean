import Lug.Cavlc.Wire
import Lug.Lib.Consecutive

/-!
`cavlc::Store`: a single-writer store that keeps a snapshot of every version,
and the way it is a `Reducible`.
-/

namespace Lug.Cavlc

open SortedMap Runs

theorem Patch.wellFormed_of_apply {p : Patch Value} {v : Value} {k : Kind}
    (h : p.apply v.kind = .ok (some k)) : k.WellFormed := by
  have hedit := p.apply_edit v.shows
  rw [h] at hedit
  obtain ⟨o, -, hrel⟩ := hedit.ok_left
  cases hrel with
  | some hshows => exact hshows.wellFormed

/-- An edit of a value, `none` where it comes back as it was. -/
def OrderedPatch.apply (p : OrderedPatch) (v : Value) : Except Error (Option Value) :=
  match h : p.patch.apply v.kind with
  | .error e => .error e
  | .ok none => .ok none
  | .ok (some k) => .ok (some ⟨k, Patch.wellFormed_of_apply h⟩)

/-- An edit of a value is the edit of the document it shows. -/
theorem OrderedPatch.apply_edit (p : OrderedPatch) (v : Value) :
    Agree (Option.Rel fun w j => Value.toJson w = j) (p.apply v) (p.toJson.edit v.toJson) := by
  have hedit : Agree (Option.Rel Kind.Shows) (p.patch.apply v.kind) (p.toJson.edit v.toJson) :=
    p.patch.apply_edit v.shows
  unfold OrderedPatch.apply
  split
  · rename_i e he
    rw [he] at hedit
    rw [hedit.error_left]
    exact .error e
  · rename_i hnone
    rw [hnone] at hedit
    obtain ⟨o, ho, hrel⟩ := hedit.ok_left
    cases hrel
    rw [ho]
    exact .ok .none
  · rename_i k hsome
    rw [hsome] at hedit
    obtain ⟨o, ho, hrel⟩ := hedit.ok_left
    cases hrel with
    | some hshows =>
        rw [ho]
        exact .ok (.some hshows.toJson)

/-- An immutable root and the version it represents. -/
structure Snapshot where
  version : ℕ
  root : Value

/-- One batch of the patch log. -/
structure Commit where
  version : ℕ
  patches : List OrderedPatch

structure ApplyResult where
  snapshot : Snapshot
  record : Option Commit

/-- Private working state. `owner` names the store it was begun on. -/
structure Batch where
  owner : ℕ
  base : Snapshot
  working : Value
  patches : List OrderedPatch

def Batch.apply (b : Batch) (p : OrderedPatch) : Except Error Batch :=
  match p.apply b.working with
  | .error e => .error e
  | .ok none => .ok b
  | .ok (some next) => .ok { b with patches := b.patches ++ [p], working := next }

/-- `Store`: the snapshots from `base` on, one behind every commit of the log. -/
@[ext]
structure Store where
  owner : ℕ
  base : ℕ
  snapshots : List Snapshot
  log : List Commit
  nonempty : snapshots ≠ []
  run : Consecutive Snapshot.version base snapshots
  commits : snapshots.length = log.length + 1

namespace Store

/-- `from_value`; the owner is a fresh allocation. -/
def fromValue (owner : ℕ) (root : Value) : Except Error Store :=
  if root.asObject.isNone then .error .rootMustBeObject
  else .ok
    { owner, base := 0, snapshots := [⟨0, root⟩], log := [], nonempty := List.cons_ne_nil _ _,
      run := ⟨rfl, trivial⟩, commits := rfl }

def new (owner : ℕ) : Store where
  owner := owner
  base := 0
  snapshots := [⟨0, Value.default⟩]
  log := []
  nonempty := List.cons_ne_nil _ _
  run := ⟨rfl, trivial⟩
  commits := rfl

theorem fromValue_default (owner : ℕ) : fromValue owner Value.default = .ok (new owner) := rfl

def snapshot (s : Store) : Snapshot := s.snapshots.getLast s.nonempty

def snapshotAt (s : Store) (version : ℕ) : Option Snapshot :=
  if version < s.base then none else s.snapshots[version - s.base]?

/-- `truncate`; below the base and above the last version nothing happens. The index is a
natural number here and a `usize` in `Vectors.truncate`. -/
def truncate (s : Store) (version : ℕ) : Store :=
  if version < s.base then s
  else if h : version - s.base + 1 ≥ s.snapshots.length then s
  else
    { s with
      snapshots := s.snapshots.take (version - s.base + 1)
      log := s.log.take (version - s.base)
      nonempty := by
        have hne := List.length_pos_iff.mpr s.nonempty
        rw [ne_eq, ← List.length_eq_zero_iff, List.length_take]
        omega
      run := s.run.take _
      commits := by
        have hcommits := s.commits
        rw [List.length_take, List.length_take]
        omega }

/-- `resume`; the owner is a fresh allocation. -/
def resume (owner : ℕ) (snapshot : Snapshot) : Store where
  owner := owner
  base := snapshot.version
  snapshots := [snapshot]
  log := []
  nonempty := List.cons_ne_nil _ _
  run := ⟨rfl, trivial⟩
  commits := rfl

def beginBatch (s : Store) : Batch :=
  { owner := s.owner, base := s.snapshot, working := s.snapshot.root, patches := [] }

theorem snapshot_version (s : Store) : s.snapshot.version + 1 = s.base + s.snapshots.length :=
  s.run.last_eq (List.getLast?_eq_some_getLast s.nonempty)

/-- The two pushes of `apply_batch`. -/
def push (s : Store) (root : Value) (patches : List OrderedPatch) : Store :=
  let version := s.snapshot.version + 1
  { s with
    snapshots := s.snapshots ++ [⟨version, root⟩]
    log := s.log ++ [⟨version, patches⟩]
    nonempty := by simp
    run := consecutive_append.mpr ⟨s.run, s.snapshot_version, trivial⟩
    commits := by simp [s.commits] }

/-- `apply_batch`. -/
def applyBatch (s : Store) (batch : Batch) : Except Error ApplyResult × Store :=
  let current := s.snapshot
  if s.owner ≠ batch.owner then (.error .foreignBatch, s)
  else if current.version ≠ batch.base.version then
    (.error (.conflict batch.base.version current.version), s)
  else if batch.patches.isEmpty then (.ok { snapshot := current, record := none }, s)
  else if current.version < versionMax then
    (.ok { snapshot := ⟨current.version + 1, batch.working⟩,
           record := some ⟨current.version + 1, batch.patches⟩ },
      s.push batch.working batch.patches)
  else (.error .versionOverflow, s)

@[simp] theorem snapshot_push (s : Store) (root : Value) (patches : List OrderedPatch) :
    (s.push root patches).snapshot = ⟨s.snapshot.version + 1, root⟩ := by
  simp [snapshot, push]

@[simp] theorem base_push (s : Store) (root : Value) (patches : List OrderedPatch) :
    (s.push root patches).base = s.base := rfl

theorem length_push (s : Store) (root : Value) (patches : List OrderedPatch) :
    (s.push root patches).snapshots.length = s.snapshots.length + 1 := by
  simp [push]

theorem snapshotAt_version (s : Store) : s.snapshotAt s.snapshot.version = some s.snapshot := by
  have hversion := s.snapshot_version
  have hpos := List.length_pos_iff.mpr s.nonempty
  rw [snapshotAt, if_neg (by omega),
    show s.snapshot.version - s.base = s.snapshots.length - 1 by omega,
    ← List.getLast?_eq_getElem?, List.getLast?_eq_some_getLast s.nonempty, snapshot]

theorem snapshotAt_above {s : Store} {version : ℕ} (h : s.snapshot.version < version) :
    s.snapshotAt version = none := by
  have hversion := s.snapshot_version
  rw [snapshotAt]
  split_ifs
  · rfl
  · rw [List.getElem?_eq_none_iff]
    omega

/-- Publishing keeps what is retained. -/
theorem snapshotAt_push {s : Store} {version : ℕ} (h : version ≤ s.snapshot.version)
    (root : Value) (patches : List OrderedPatch) :
    (s.push root patches).snapshotAt version = s.snapshotAt version := by
  have hversion := s.snapshot_version
  rw [snapshotAt, snapshotAt, base_push]
  split_ifs with hbase
  · rfl
  · exact List.getElem?_append_left (by omega)

theorem truncate_of_version_le {s : Store} {version : ℕ} (h : s.snapshot.version ≤ version) :
    s.truncate version = s := by
  have hversion := s.snapshot_version
  rw [truncate]
  split_ifs
  · rfl
  · rfl
  · omega

/-- From the base on, truncating keeps the versions up to the given one. -/
theorem truncate_eq {s : Store} {version : ℕ} (hbase : s.base ≤ version) :
    (s.truncate version).owner = s.owner ∧ (s.truncate version).base = s.base ∧
      (s.truncate version).snapshots = s.snapshots.take (version - s.base + 1) ∧
      (s.truncate version).log = s.log.take (version - s.base) := by
  have hcommits := s.commits
  rw [truncate, if_neg (by omega)]
  split_ifs with hkeep
  · rw [List.take_of_length_le hkeep, List.take_of_length_le (by omega)]
    exact ⟨rfl, rfl, rfl, rfl⟩
  · exact ⟨rfl, rfl, rfl, rfl⟩

/-- Truncating to a retained version takes a publication back. -/
theorem truncate_push {s : Store} {version : ℕ} (hbase : s.base ≤ version)
    (h : version ≤ s.snapshot.version) (root : Value) (patches : List OrderedPatch) :
    (s.push root patches).truncate version = s.truncate version := by
  have hversion := s.snapshot_version
  have hcommits := s.commits
  obtain ⟨howner, hbase₁, hsnapshots, hlog⟩ := truncate_eq hbase
  have hbase' : (s.push root patches).base ≤ version := hbase
  obtain ⟨howner', hbase', hsnapshots', hlog'⟩ := truncate_eq hbase'
  rw [base_push] at hbase' hsnapshots' hlog'
  ext1
  · rw [howner, howner', push]
  · rw [hbase₁, hbase']
  · rw [hsnapshots, hsnapshots', push, List.take_append_of_le_length (by omega)]
  · rw [hlog, hlog', push, List.take_append_of_le_length (by omega)]

end Store

instance : Versioned Snapshot where
  version s := s.version
  state s := s.root.toJson

namespace Store

instance : Reducible Store OrderedPatch Snapshot where
  Staged := Batch
  Err := Error
  display := Error.display
  stage := beginBatch
  stagePatch _ staged patch := staged.apply patch
  commit s staged :=
    match s.applyBatch staged with
    | (.error e, s) => (.error e, s)
    | (.ok applied, s) => (.ok (applied.record.map fun _ => applied.snapshot), s)
  view := snapshot
  viewAt := snapshotAt
  truncate s version := (.ok (), s.truncate version)
  resume view := .ok (resume 0 view)

/-- Staging and committing one patch: an edit of the last root that mints the
next version if it changed anything. -/
theorem apply_eq (s : Store) (p : OrderedPatch) :
    Reducible.apply s p = match p.apply s.snapshot.root with
      | .error e => (.error e, s)
      | .ok none => (.ok none, s)
      | .ok (some root) =>
          if s.snapshot.version < versionMax then
            (.ok (some ⟨s.snapshot.version + 1, root⟩), s.push root [p])
          else (.error .versionOverflow, s) := by
  simp only [Reducible.apply, Reducible.stagePatch, Reducible.stage, Reducible.commit, Batch.apply,
    beginBatch]
  cases p.apply s.snapshot.root with
  | error e => rfl
  | ok next =>
      cases next with
      | none => simp [applyBatch]
      | some root =>
          simp only [applyBatch, ne_eq, not_true_eq_false, if_false, List.nil_append,
            List.isEmpty_cons, Bool.false_eq_true]
          split_ifs <;> rfl

theorem version_eq (s : Store) : Reducible.version s = s.snapshot.version := rfl

/-- A patch that minted a version changed the root, and the counter held it. -/
theorem apply_minted {s : Store} {p : OrderedPatch} {v : Snapshot}
    (h : (Reducible.apply s p).1 = .ok (some v)) :
    s.snapshot.version < versionMax ∧ ∃ root, p.apply s.snapshot.root = .ok (some root) ∧
      v = ⟨s.snapshot.version + 1, root⟩ ∧ (Reducible.apply s p).2 = s.push root [p] := by
  rw [apply_eq] at h ⊢
  cases hnext : p.apply s.snapshot.root with
  | error e => simp [hnext] at h
  | ok next =>
      cases next with
      | none => simp [hnext] at h
      | some root =>
          simp only [hnext] at h ⊢
          split_ifs at h ⊢ with hmax
          cases h
          exact ⟨hmax, root, rfl, rfl, rfl⟩

/-- A patch that minted none left the store as it was. -/
theorem apply_unminted {s : Store} {p : OrderedPatch}
    (h : ∀ v, (Reducible.apply s p).1 ≠ .ok (some v)) : (Reducible.apply s p).2 = s := by
  rw [apply_eq] at h ⊢
  cases hnext : p.apply s.snapshot.root with
  | error e => rfl
  | ok next =>
      cases next with
      | none => rfl
      | some root =>
          simp only [hnext] at h ⊢
          split_ifs at h ⊢ with hmax
          · exact absurd rfl (h _)
          · rfl

instance : ReducibleContract Store where
  Same := Eq
  same_equivalence := ⟨fun _ => rfl, Eq.symm, Eq.trans⟩
  same_view h := h ▸ rfl
  same_viewAt h _ := h ▸ rfl
  same_apply h _ := h ▸ rfl
  same_apply_state h _ := h ▸ rfl
  same_truncate h _ := h ▸ rfl
  apply_error h := apply_unminted fun v hv => by rw [h] at hv; cases hv
  apply_identity h := apply_unminted fun v hv => by rw [h] at hv; cases hv
  apply_mint h := by
    obtain ⟨-, root, -, rfl, hstate⟩ := apply_minted h
    rw [hstate]
    exact ⟨snapshot_push _ _ _, rfl⟩
  mint_fits h := by
    obtain ⟨hmax, root, -, rfl, -⟩ := apply_minted h
    exact hmax
  viewAt_mint h hu := by
    obtain ⟨-, root, -, -, hstate⟩ := apply_minted h
    rw [hstate]
    exact snapshotAt_push hu root _
  truncate_apply {s p v u} h hu := by
    obtain ⟨-, root, -, -, hstate⟩ := apply_minted h
    rw [hstate]
    have hbase : s.base ≤ u := by
      by_contra hlt
      simp [Reducible.viewAt, snapshotAt, not_le.mp hlt] at hu
    have hversion : u ≤ s.snapshot.version := by
      by_contra hlt
      simp [Reducible.viewAt, snapshotAt_above (not_le.mp hlt)] at hu
    exact truncate_push hbase hversion root _
  truncate_reached h := truncate_of_version_le h
  viewAt_version := snapshotAt_version _
  viewAt_above h := snapshotAt_above h

end Store

end Lug.Cavlc
