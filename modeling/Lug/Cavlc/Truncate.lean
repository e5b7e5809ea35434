import Lug.Cavlc.History

/-!
`Store::truncate` in the arithmetic it is written in: the two vectors of a store by
themselves, an index of 64 bits, and the panics that a broken vector would cause.
-/

namespace Lug.Cavlc

open Runs

/-- The fields of `Store` with nothing promised about them. -/
@[ext]
structure Vectors where
  owner : ℕ
  base : ℕ
  snapshots : List Snapshot
  log : List Commit

namespace Vectors

/-- `snapshot`; `none` is the panic of its `unwrap`. -/
def snapshot (x : Vectors) : Option Snapshot := x.snapshots.getLast?

/-- The addition in `truncate` does not fit its 64 bits. -/
def Overflows (x : Vectors) (version : ℕ) : Prop :=
  x.base ≤ version ∧ versionMax < version - x.base + 1

/-- `truncate`. Where the build checks its arithmetic an overflow panics, which is `none`;
elsewhere the sum wraps around. -/
def truncate (checked : Bool) (x : Vectors) (version : ℕ) : Option Vectors :=
  if version < x.base then some x
  else
    let keep := version - x.base
    if checked = true ∧ versionMax < keep + 1 then none
    else if (keep + 1) % 2 ^ 64 ≥ x.snapshots.length then some x
    else some { x with
      snapshots := x.snapshots.take ((keep + 1) % 2 ^ 64)
      log := x.log.take keep }

/-- `apply_batch`. -/
def applyBatch (x : Vectors) (batch : Batch) : Option (Except Error ApplyResult × Vectors) :=
  if x.owner ≠ batch.owner then some (.error .foreignBatch, x)
  else
    match x.snapshot with
    | none => none
    | some current =>
        if current.version ≠ batch.base.version then
          some (.error (.conflict batch.base.version current.version), x)
        else if batch.patches.isEmpty then some (.ok { snapshot := current, record := none }, x)
        else if current.version < versionMax then
          let snapshot : Snapshot := ⟨current.version + 1, batch.working⟩
          let record : Commit := ⟨current.version + 1, batch.patches⟩
          some (.ok { snapshot, record := some record },
            { x with snapshots := x.snapshots ++ [snapshot], log := x.log ++ [record] })
        else some (.error .versionOverflow, x)

/-- What its owner does to a store. -/
inductive Operation
  | applyBatch (batch : Batch)
  | truncate (version : ℕ)

def step (checked : Bool) (x : Vectors) : Operation → Option Vectors
  | .applyBatch batch => (x.applyBatch batch).map Prod.snd
  | .truncate version => x.truncate checked version

def run (checked : Bool) (x : Vectors) (ops : List Operation) : Option Vectors :=
  ops.foldlM (step checked) x

end Vectors

namespace Store

def vectors (s : Store) : Vectors := ⟨s.owner, s.base, s.snapshots, s.log⟩

theorem vectors_injective : Function.Injective vectors := by
  intro s t h
  have hfields := Vectors.mk.inj h
  exact Store.ext hfields.1 hfields.2.1 hfields.2.2.1 hfields.2.2.2

/-- Later commits made and truncated away again, none of them at or below `version`. -/
inductive Later (version : ℕ) (s₀ : Store) : Store → Prop
  | refl : Later version s₀ s₀
  | commit {s : Store} (h : Later version s₀ s) (batch : Batch) :
      Later version s₀ (s.applyBatch batch).2
  | truncate {s t : Store} (h : Later version s₀ s) {checked : Bool} {u : ℕ} (hu : version ≤ u)
      (hfits : u ≤ versionMax) (ht : s.vectors.truncate checked u = some t.vectors) :
      Later version s₀ t

/-- What `truncate` promises for one version. -/
structure Lawful (s : Store) (version : ℕ) : Prop where
  fits : ¬ s.vectors.Overflows version
  /-- A version that was never reached, or is no longer there, is a no-op. -/
  outside : s.snapshot.version ≤ version ∨ version < s.base →
    ∀ checked, s.vectors.truncate checked version = some s.vectors
  /-- Otherwise the version is current again, on a store that keeps what it had up to there
  and cannot be told from the one at that version before the later commits. -/
  inside : s.base ≤ version → version < s.snapshot.version → ∃ t : Store,
    (∀ checked, s.vectors.truncate checked version = some t.vectors) ∧
      t.snapshot.version = version ∧
      (∀ u ≤ version, t.snapshotAt u = s.snapshotAt u) ∧
      (∀ after through, through ≤ version →
        t.patchesBetween after through = s.patchesBetween after through) ∧
      ∀ s₀, Later version s₀ s → s₀.snapshot.version = version → t = s₀

theorem overflows_iff (s : Store) {version : ℕ} (h : version ≤ versionMax) :
    s.vectors.Overflows version ↔ s.base = 0 ∧ version = versionMax := by
  simp only [Vectors.Overflows, vectors, versionMax] at *
  omega

/-- Where the addition fits, both builds do what the arithmetic of ℕ does. -/
theorem truncate_vectors {s : Store} {version : ℕ} (h : ¬ s.vectors.Overflows version)
    (checked : Bool) :
    s.vectors.truncate checked version = some (s.truncate version).vectors := by
  by_cases hbase : version < s.base
  · rw [Vectors.truncate, Store.truncate, if_pos hbase]
    exact if_pos hbase
  · have hfits : version - s.base + 1 ≤ versionMax := by
      by_contra hover
      exact h ⟨not_lt.mp hbase, not_le.mp hover⟩
    have hmod : (version - s.base + 1) % 2 ^ 64 = version - s.base + 1 :=
      Nat.mod_eq_of_lt (by simp only [versionMax] at hfits; omega)
    have hchecked : ¬ (checked = true ∧ versionMax < version - s.base + 1) :=
      fun hover => absurd hover.2 (not_lt.mpr hfits)
    have hbase' : ¬ version < s.vectors.base := hbase
    have hmod' : (version - s.vectors.base + 1) % 2 ^ 64 = version - s.base + 1 := hmod
    rw [Vectors.truncate, if_neg hbase', Store.truncate, if_neg hbase]
    simp only [hmod']
    rw [if_neg (show ¬ (checked = true ∧ versionMax < version - s.vectors.base + 1) from hchecked)]
    by_cases hkeep : version - s.base + 1 ≥ s.snapshots.length
    · rw [if_pos (show version - s.base + 1 ≥ s.vectors.snapshots.length from hkeep), dif_pos hkeep]
    · rw [if_neg (show ¬ version - s.base + 1 ≥ s.vectors.snapshots.length from hkeep),
        dif_neg hkeep]
      rfl

theorem snapshot_truncate {s : Store} {version : ℕ} (hbase : s.base ≤ version)
    (h : version < s.snapshot.version) : (s.truncate version).snapshot.version = version := by
  have hversion := s.snapshot_version
  have htruncated := (s.truncate version).snapshot_version
  obtain ⟨-, hbase', hsnapshots, -⟩ := truncate_eq hbase
  rw [hbase', hsnapshots, List.length_take] at htruncated
  omega

theorem patchesBetween_truncate {s : Store} {version after through : ℕ}
    (hbase : s.base ≤ version) (hthrough : through ≤ version) :
    (s.truncate version).patchesBetween after through = s.patchesBetween after through := by
  obtain ⟨-, hbase', -, hlog⟩ := truncate_eq hbase
  have hlength : (s.log.take (version - s.base)).length < through - s.base ↔
      s.log.length < through - s.base := by
    rw [List.length_take]
    omega
  simp only [patchesBetween, hbase', hlog, hlength, List.take_take]
  rw [min_eq_left (by omega)]

/-- Truncating twice is truncating once, to the lower version. -/
theorem truncate_truncate {s : Store} {version u : ℕ} (hbase : s.base ≤ version)
    (hu : version ≤ u) : (s.truncate u).truncate version = s.truncate version := by
  obtain ⟨howner₁, hbase₁, hsnapshots₁, hlog₁⟩ := truncate_eq (hbase.trans hu)
  have hbase' : (s.truncate u).base ≤ version := hbase₁.trans_le hbase
  obtain ⟨howner₂, hbase₂, hsnapshots₂, hlog₂⟩ := truncate_eq hbase'
  obtain ⟨howner, hbaseEq, hsnapshots, hlog⟩ := truncate_eq hbase
  rw [hbase₁] at hsnapshots₂ hlog₂
  ext1
  · rw [howner₂, howner₁, howner]
  · rw [hbase₂, hbase₁, hbaseEq]
  · rw [hsnapshots₂, hsnapshots₁, hsnapshots, List.take_take, min_eq_left (by omega)]
  · rw [hlog₂, hlog₁, hlog, List.take_take, min_eq_left (by omega)]

/-- Where the addition overflows, the checked build panics and the wrapping one empties the
vector of snapshots. -/
theorem truncate_overflows {s : Store} {version : ℕ} (h : s.vectors.Overflows version)
    (hversion : version ≤ versionMax) (t : Store) (checked : Bool) :
    s.vectors.truncate checked version ≠ some t.vectors := by
  obtain ⟨hbase, rfl⟩ := (s.overflows_iff hversion).mp h
  have hpos := List.length_pos_iff.mpr s.nonempty
  have hnotBelow : ¬ versionMax < s.vectors.base := not_lt.mpr h.1
  have hkeep : versionMax - s.vectors.base + 1 = 2 ^ 64 := by
    show versionMax - s.base + 1 = 2 ^ 64
    rw [hbase, versionMax]
    rfl
  rw [Vectors.truncate, if_neg hnotBelow]
  simp only [hkeep]
  intro heq
  cases checked with
  | true =>
      rw [if_pos ⟨rfl, by rw [versionMax]; decide⟩] at heq
      cases heq
  | false =>
      have hkept : ¬ 0 ≥ s.vectors.snapshots.length := not_le.mpr hpos
      rw [if_neg (fun hc => Bool.false_ne_true hc.1), Nat.mod_self, if_neg hkept] at heq
      have hempty := congrArg Vectors.snapshots (Option.some.inj heq)
      exact t.nonempty hempty.symm

/-- What happened since makes no difference to a truncation. -/
theorem Later.truncate_eq {version : ℕ} {s₀ s : Store} (h : Later version s₀ s)
    (hversion : s₀.snapshot.version = version) :
    s.base = s₀.base ∧ version ≤ s.snapshot.version ∧ s.truncate version = s₀ := by
  induction h with
  | refl => exact ⟨rfl, hversion.ge, truncate_of_version_le hversion.le⟩
  | @commit s _ batch ih =>
      obtain ⟨hbase, hle, heq⟩ := ih
      cases s.applyBatch_cases batch with
      | inl hsame =>
          rw [hsame]
          exact ⟨hbase, hle, heq⟩
      | inr hpublished =>
          obtain ⟨-, -, -, hpush⟩ := hpublished
          have hlow : s.base ≤ version := by
            have hstart := s₀.snapshot_version
            have hpos := List.length_pos_iff.mpr s₀.nonempty
            omega
          rw [hpush]
          refine ⟨hbase, ?_, ?_⟩
          · rw [snapshot_push]
            exact hle.trans (Nat.le_succ _)
          · rw [truncate_push hlow hle, heq]
  | @truncate s t _ checked u hu hfits ht ih =>
      obtain ⟨hbase, hle, heq⟩ := ih
      have hlow : s.base ≤ version := by
        have hstart := s₀.snapshot_version
        have hpos := List.length_pos_iff.mpr s₀.nonempty
        omega
      obtain rfl : t = s.truncate u := by
        by_cases hover : s.vectors.Overflows u
        · exact absurd ht (truncate_overflows hover hfits t checked)
        · exact vectors_injective (Option.some.inj (ht.symm.trans (truncate_vectors hover checked)))
      refine ⟨(Store.truncate_eq (hlow.trans hu)).2.1.trans hbase, ?_, ?_⟩
      · by_cases hreached : s.snapshot.version ≤ u
        · rwa [truncate_of_version_le hreached]
        · rw [snapshot_truncate (hlow.trans hu) (not_le.mp hreached)]
          exact hu
      · rw [truncate_truncate hlow hu, heq]

/-- The law, wherever the addition fits. -/
theorem lawful_of_fits {s : Store} {version : ℕ} (h : ¬ s.vectors.Overflows version) :
    s.Lawful version where
  fits := h
  outside hout checked := by
    rw [truncate_vectors h]
    cases hout with
    | inl habove => rw [truncate_of_version_le habove]
    | inr hbelow => rw [truncate, if_pos hbelow]
  inside hbase hlt := by
    have hsnapshot := snapshot_truncate hbase hlt
    refine ⟨s.truncate version, truncate_vectors h, hsnapshot, fun u hu => ?_, ?_, ?_⟩
    · exact snapshotAt_truncate (hu.trans hsnapshot.ge)
    · exact fun after through hthrough => patchesBetween_truncate hbase hthrough
    · exact fun s₀ hlater hversion => (hlater.truncate_eq hversion).2.2

theorem lawful_iff (s : Store) {version : ℕ} (h : version ≤ versionMax) :
    s.Lawful version ↔ ¬ (s.base = 0 ∧ version = versionMax) := by
  rw [← overflows_iff s h]
  exact ⟨Lawful.fits, lawful_of_fits⟩

/-- On the vectors of a store a batch does what it does to the store. -/
theorem applyBatch_vectors (s : Store) (batch : Batch) :
    s.vectors.applyBatch batch = some ((s.applyBatch batch).1, (s.applyBatch batch).2.vectors) := by
  have hsnapshot : s.vectors.snapshot = some s.snapshot := List.getLast?_eq_some_getLast s.nonempty
  have howner : s.vectors.owner = s.owner := rfl
  simp only [Vectors.applyBatch, applyBatch, hsnapshot, howner]
  split_ifs <;> rfl

/-- No operation panics, and there always is a snapshot. -/
theorem run_vectors (checked : Bool) (s : Store) {ops : List Vectors.Operation}
    (h : ∀ version, .truncate version ∈ ops → version ≤ versionMax ∧
      ¬ (s.base = 0 ∧ version = versionMax)) :
    ∃ t : Store, s.vectors.run checked ops = some t.vectors := by
  induction ops generalizing s with
  | nil => exact ⟨s, rfl⟩
  | cons op ops ih =>
      obtain ⟨t, hstep, hbase⟩ : ∃ t : Store, s.vectors.step checked op = some t.vectors ∧
          t.base = s.base := by
        cases op with
        | applyBatch batch =>
            refine ⟨(s.applyBatch batch).2, ?_, ?_⟩
            · rw [Vectors.step, applyBatch_vectors]
              rfl
            · rcases s.applyBatch_cases batch with hsame | ⟨-, -, -, hpush⟩
              · rw [hsame]
              · rw [hpush, base_push]
        | truncate version =>
            obtain ⟨hversion, hcorner⟩ := h version List.mem_cons_self
            have hfits := (overflows_iff s hversion).not.mpr hcorner
            refine ⟨s.truncate version, truncate_vectors hfits checked, ?_⟩
            rw [truncate]
            split_ifs <;> rfl
      obtain ⟨u, hrun⟩ := ih t fun version hmem => by
        rw [hbase]
        exact h version (List.mem_cons_of_mem _ hmem)
      refine ⟨u, ?_⟩
      rw [Vectors.run, List.foldlM_cons, hstep]
      exact hrun

/-- `truncate` obeys its law for every version but the last one on a store that starts at
version 0; and as long as no call is that one, no operation on the store ever panics. -/
theorem truncate_lawful (s : Store) :
    (∀ version ≤ versionMax, s.Lawful version ↔ ¬ (s.base = 0 ∧ version = versionMax)) ∧
      ∀ checked ops, (∀ version, Vectors.Operation.truncate version ∈ ops →
          version ≤ versionMax ∧ ¬ (s.base = 0 ∧ version = versionMax)) →
        ∃ t : Store, s.vectors.run checked ops = some t.vectors ∧
          t.vectors.snapshot = some t.snapshot := by
  refine ⟨fun version hversion => s.lawful_iff hversion, fun checked ops h => ?_⟩
  obtain ⟨t, ht⟩ := run_vectors checked s h
  exact ⟨t, ht, List.getLast?_eq_some_getLast t.nonempty⟩

/-- Truncating a new store to the last version there could be is a no-op by its documentation.
Built without overflow checks it leaves no snapshot, and with them it panics. -/
theorem truncate_last_new : ¬ (∀ s : Store, ∀ version ≤ versionMax, s.Lawful version) ∧
    (new 0).vectors.truncate false versionMax = some ⟨0, 0, [], []⟩ ∧
      (new 0).vectors.truncate true versionMax = none := by
  refine ⟨fun hall => ?_, rfl, rfl⟩
  exact ((new 0).lawful_iff le_rfl).mp (hall (new 0) versionMax le_rfl) ⟨rfl, rfl⟩

end Store

end Lug.Cavlc
