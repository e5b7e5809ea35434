import Lug.Cavlc.Store
import Lug.Server.Actor

/-!
`lug_client::follower::snapshot_from` and `lug_client::hub::View`: what a client
makes of the document in a view frame.
-/

namespace Lug.Client

open Cavlc SortedMap

/-- `Deserialize for u64`, from a `serde_json::Value`. -/
def readVersion : Json → Option ℕ
  | .number (.int n) => if 0 ≤ n ∧ n ≤ versionMax then some n.toNat else none
  | _ => none

/-- `Deserialize for Snapshot`, by name or by position. -/
def readSnapshot : Json → Option Snapshot
  | .array [version, root] => (readVersion version).map fun n => ⟨n, Value.ofJson root⟩
  | .object fields =>
      -- deny_unknown_fields
      if fields.all fun f => f.1 = "version" ∨ f.1 = "root" then
        (fields.lookup "version").bind fun version =>
          (fields.lookup "root").bind fun root =>
            (readVersion version).map fun n => ⟨n, Value.ofJson root⟩
      else none
  | _ => none

/-- `Snapshot::new`. -/
def newSnapshot (version : ℕ) (root : Value) : Except Cavlc.Error Snapshot :=
  if root.asObject.isNone then .error .rootMustBeObject else .ok ⟨version, root⟩

mutual

/-- `snapshot_from`. -/
def snapshotFrom (version : ℕ) : Json → Except Cavlc.Error Snapshot
  | .object fields =>
      match readSnapshot (.object fields) with
      | some snapshot => .ok snapshot
      | none =>
          match viewFrom version fields with
          | some inner => inner
          | none => newSnapshot version (Value.ofJson (.object fields))
  | value =>
      match readSnapshot value with
      | some snapshot => .ok snapshot
      | none => newSnapshot version (Value.ofJson value)

/-- The field `view`, read in its turn. -/
def viewFrom (version : ℕ) : List (String × Json) → Option (Except Cavlc.Error Snapshot)
  | [] => none
  | (key, inner) :: fields =>
      if key = "view" then some (snapshotFrom version inner) else viewFrom version fields

end

/-- `hub::View`. -/
structure View where
  version : ℕ
  value : Json

namespace View

/-- `View::unwrap_frame`. -/
def unwrapFrame (version : ℕ) (value : Json) : View :=
  match snapshotFrom version value with
  | .ok snapshot => ⟨snapshot.version, snapshot.root.toJson⟩
  -- Not a shape a reducible view takes, so hand back what arrived.
  | .error _ => ⟨version, value⟩

/-- `View::snapshot`. -/
def snapshot (v : View) : Except Cavlc.Error Snapshot :=
  newSnapshot v.version (Value.ofJson v.value)

end View

/-! ### What is read is no larger than what was sent -/

theorem viewFrom_eq (version : ℕ) (fields : List (String × Json)) :
    viewFrom version fields = (fields.lookup "view").map (snapshotFrom version) := by
  induction fields with
  | nil => rfl
  | cons f fields ih =>
      obtain ⟨key, inner⟩ := f
      rw [viewFrom, List.lookup_cons]
      by_cases hkey : key = "view"
      · subst hkey
        rfl
      · have hother : ("view" == key) = false := beq_eq_false_iff_ne.mpr (Ne.symm hkey)
        rw [if_neg hkey, ih, hother]

theorem newSnapshot_ok {version : ℕ} {root : Value} {t : Snapshot}
    (h : newSnapshot version root = .ok t) : t = ⟨version, root⟩ := by
  rw [newSnapshot] at h
  split_ifs at h
  cases h
  rfl

theorem size_lookup {fields : List (String × Json)} {key : String} {inner : Json}
    (h : fields.lookup key = some inner) : sizeOf inner < sizeOf (Json.object fields) := by
  have hlt := List.sizeOf_lt_of_mem (mem_of_lookup h)
  simp only [Prod.mk.sizeOf_spec] at hlt
  rw [Json.object.sizeOf_spec]
  omega

theorem canonical_lookup {fields : List (String × Json)} (hj : (Json.object fields).Canonical)
    {key : String} {inner : Json} (h : fields.lookup key = some inner) : inner.Canonical := by
  cases hj with
  | object _ hall => exact hall _ (mem_of_lookup h)

/-- A pointer that stands in a document has a root that is a part of it. -/
theorem size_readSnapshot {j : Json} {t : Snapshot} (hj : j.Canonical)
    (h : readSnapshot j = some t) : sizeOf t.root.toJson < sizeOf j := by
  unfold readSnapshot at h
  split at h
  case h_1 version root =>
      obtain ⟨n, -, rfl⟩ := Option.map_eq_some_iff.mp h
      cases hj with
      | array hall =>
          rw [Value.toJson_ofJson (hall root (by simp))]
          simp only [Json.array.sizeOf_spec, List.cons.sizeOf_spec]
          omega
  case h_2 fields =>
      split_ifs at h
      obtain ⟨version, -, h⟩ := Option.bind_eq_some_iff.mp h
      obtain ⟨root, hroot, h⟩ := Option.bind_eq_some_iff.mp h
      obtain ⟨n, -, rfl⟩ := Option.map_eq_some_iff.mp h
      rw [Value.toJson_ofJson (canonical_lookup hj hroot)]
      exact size_lookup hroot
  case h_3 => cases h

/-- Whatever shape was guessed, the root that is read is the document or a part of it. -/
theorem size_snapshotFrom {version : ℕ} {j : Json} {t : Snapshot} (hj : j.Canonical)
    (h : snapshotFrom version j = .ok t) : sizeOf t.root.toJson ≤ sizeOf j := by
  have hwhole : ∀ {j : Json}, j.Canonical →
      newSnapshot version (Value.ofJson j) = .ok t → sizeOf t.root.toJson ≤ sizeOf j := by
    intro j hj h
    rw [newSnapshot_ok h, Value.toJson_ofJson hj]
  have hread : ∀ {j : Json}, j.Canonical → (match readSnapshot j with
      | some snapshot => Except.ok snapshot
      | none => newSnapshot version (Value.ofJson j)) = .ok t →
        sizeOf t.root.toJson ≤ sizeOf j := by
    intro j hj h
    split at h
    · rename_i snapshot hsnapshot
      cases h
      exact (size_readSnapshot hj hsnapshot).le
    · exact hwhole hj h
  induction j using Json.induction with
  | null => exact hread hj h
  | bool b => exact hread hj h
  | number n => exact hread hj h
  | string s => exact hread hj h
  | array items _ => exact hread hj h
  | object fields ih =>
      rw [snapshotFrom] at h
      split at h
      · rename_i snapshot hsnapshot
        cases h
        exact (size_readSnapshot hj hsnapshot).le
      · rw [viewFrom_eq] at h
        cases hview : fields.lookup "view" with
        | none =>
            rw [hview] at h
            exact hwhole hj h
        | some inner =>
            rw [hview] at h
            have hinner := ih _ (mem_of_lookup hview) (canonical_lookup hj hview) h
            exact hinner.trans (size_lookup hview).le

/-! ### Documents that are read as themselves -/

/-- The document is no serialized pointer and has no field `view`. -/
def Bare : Json → Prop
  | .object fields => fields.lookup "view" = none ∧ ∀ version root, 0 ≤ version →
      version ≤ (versionMax : ℤ) →
        fields ≠ [("root", root), ("version", .number (.int version))]
  | _ => False

theorem readVersion_some {j : Json} {n : ℕ} (h : readVersion j = some n) :
    ∃ m, j = .number (.int m) ∧ 0 ≤ m ∧ m ≤ (versionMax : ℤ) := by
  unfold readVersion at h
  split at h
  case h_1 m =>
      split_ifs at h with hm
      exact ⟨m, rfl, hm⟩
  case h_2 => cases h

/-- A pointer by name has these two fields and no other. -/
theorem readSnapshot_object {fields : List (String × Json)} (hsorted : Sorted fields) :
    (readSnapshot (.object fields)).isSome ↔ ∃ version root, 0 ≤ version ∧
      version ≤ (versionMax : ℤ) ∧
        fields = [("root", root), ("version", .number (.int version))] := by
  constructor
  · intro h
    obtain ⟨t, ht⟩ := Option.isSome_iff_exists.mp h
    rw [readSnapshot] at ht
    split_ifs at ht with hknown
    obtain ⟨version, hversion, ht⟩ := Option.bind_eq_some_iff.mp ht
    obtain ⟨root, hroot, ht⟩ := Option.bind_eq_some_iff.mp ht
    obtain ⟨n, hn, -⟩ := Option.map_eq_some_iff.mp ht
    obtain ⟨m, rfl, hpos, hle⟩ := readVersion_some hn
    refine ⟨m, root, hpos, hle, hsorted.ext ?_ fun k => ?_⟩
    · refine sorted_cons.mpr ⟨fun x hx => ?_, sorted_cons.mpr ⟨by simp, sorted_nil⟩⟩
      rw [List.mem_singleton.mp hx]
      show "root" < "version"
      decide
    · by_cases hkroot : k = "root"
      · subst hkroot
        rw [hroot]
        rfl
      by_cases hkversion : k = "version"
      · subst hkversion
        rw [hversion]
        rfl
      have hnone : fields.lookup k = none := by
        refine lookup_eq_none_iff.mpr fun f hf heq => ?_
        have hkey := of_decide_eq_true (List.all_eq_true.mp hknown f hf)
        rw [heq] at hkey
        exact hkey.elim hkversion hkroot
      rw [hnone, List.lookup_cons, beq_eq_false_iff_ne.mpr hkroot, List.lookup_cons,
        beq_eq_false_iff_ne.mpr hkversion]
      rfl
  · rintro ⟨version, root, hpos, hle, rfl⟩
    have hread : readVersion (.number (.int version)) = some version.toNat := if_pos ⟨hpos, hle⟩
    show (Option.map _ (readVersion (.number (.int version)))).isSome = true
    rw [hread]
    rfl

/-- A client read the snapshot that was sent. -/
def Exact (read : Except Cavlc.Error Snapshot) (sent : Snapshot) : Prop :=
  ∃ t, read = .ok t ∧ t.version = sent.version ∧ t.root.toJson = sent.root.toJson

theorem newSnapshot_object (version : ℕ) {fields : List (String × Json)}
    (hj : (Json.object fields).Canonical) :
    newSnapshot version (Value.ofJson (.object fields)) =
      .ok ⟨version, Value.ofJson (.object fields)⟩ := by
  have hobject : (Value.ofJson (.object fields)).asObject.isNone = false := by
    show (Kind.ofJson (Json.object fields).normal).asObject.isNone = false
    rw [hj.normal_eq]
    rfl
  rw [newSnapshot, hobject]
  rfl

/-- A bare document is read as what it is. -/
theorem snapshotFrom_bare (version : ℕ) {fields : List (String × Json)}
    (hj : (Json.object fields).Canonical) (hbare : Bare (.object fields)) :
    snapshotFrom version (.object fields) = .ok ⟨version, Value.ofJson (.object fields)⟩ := by
  obtain ⟨hview, hpointer⟩ := hbare
  have hnone : readSnapshot (.object fields) = none := by
    cases hread : readSnapshot (.object fields) with
    | none => rfl
    | some t =>
        cases hj with
        | object hsorted _ =>
            obtain ⟨m, root, hpos, hle, heq⟩ := (readSnapshot_object hsorted).mp (by rw [hread]; rfl)
            exact absurd heq (hpointer m root hpos hle)
  rw [snapshotFrom, hnone, viewFrom_eq, hview]
  exact newSnapshot_object version hj

/-- And nothing else is. -/
theorem bare_of_snapshotFrom {version : ℕ} {fields : List (String × Json)} {t : Snapshot}
    (hj : (Json.object fields).Canonical)
    (h : snapshotFrom version (.object fields) = .ok t) (hroot : t.root.toJson = .object fields) :
    Bare (.object fields) := by
  rw [snapshotFrom] at h
  cases hread : readSnapshot (.object fields) with
  | some u =>
      rw [hread] at h
      cases h
      have hlt := size_readSnapshot hj hread
      rw [hroot] at hlt
      exact absurd hlt (lt_irrefl _)
  | none =>
      rw [hread, viewFrom_eq] at h
      cases hview : fields.lookup "view" with
      | some inner =>
          rw [hview] at h
          have hle := size_snapshotFrom (canonical_lookup hj hview) h
          have hlt := size_lookup hview
          rw [hroot] at hle
          exact absurd (hle.trans_lt hlt) (lt_irrefl _)
      | none =>
          refine ⟨hview, fun m root hpos hle heq => ?_⟩
          cases hj with
          | object hsorted _ =>
              have hsome := (readSnapshot_object hsorted).mpr ⟨m, root, hpos, hle, heq⟩
              rw [hread] at hsome
              cases hsome

/-- What an actor over a store answers to a read is one of its snapshots. -/
theorem view_of_actor {S : Type} [Storage S Snapshot] [TextCodec] {a : Actor Store S}
    {at_ : Option ℕ} {v : ℕ} {d : Json} (h : a.view at_ = .ok (v, d)) :
    ∃ s : Snapshot, v = Versioned.version s ∧ d = Versioned.state s := by
  cases at_ with
  | none =>
      cases h
      exact ⟨_, rfl, rfl⟩
  | some version =>
      rw [Actor.view] at h
      split at h
      · cases h
      · cases h
        exact ⟨_, rfl, rfl⟩

/-- The view of a snapshot is read back as that snapshot, from the preamble of a stream
and from a read, just when its document is bare. -/
theorem exact_iff_bare (s : Snapshot) (hobject : s.root.asObject.isSome) :
    Exact (snapshotFrom (Versioned.version s) (Versioned.state s)) s ∧
        Exact (View.unwrapFrame (Versioned.version s) (Versioned.state s)).snapshot s ↔
      Bare (Versioned.state s) := by
  have hcanonical := s.root.canonical
  obtain ⟨map, hmap⟩ := Option.isSome_iff_exists.mp hobject
  obtain ⟨fields, hfields⟩ : ∃ fields, s.root.toJson = .object fields := by
    obtain ⟨version, ⟨kind, wellFormed⟩⟩ := s
    cases kind with
    | object map => exact ⟨_, Kind.toJson_object map⟩
    | atom value => cases hmap
  rw [hfields] at hcanonical
  rw [show Versioned.version s = s.version from rfl,
    show Versioned.state s = .object fields from hfields]
  constructor
  · rintro ⟨⟨t, ht, -, hroot⟩, -⟩
    exact bare_of_snapshotFrom hcanonical ht (hroot.trans hfields)
  · intro hbare
    have hread := snapshotFrom_bare s.version hcanonical hbare
    have hroot : (Value.ofJson (.object fields)).toJson = s.root.toJson := by
      rw [Value.toJson_ofJson hcanonical, hfields]
    refine ⟨⟨_, hread, rfl, hroot⟩, ⟨⟨s.version, Value.ofJson (.object fields)⟩, ?_, rfl, hroot⟩⟩
    rw [View.unwrapFrame, hread]
    show newSnapshot s.version (Value.ofJson (Value.ofJson (.object fields)).toJson) = _
    rw [Value.toJson_ofJson hcanonical]
    exact newSnapshot_object s.version hcanonical

/-- A document with a field `view`. -/
def wrapped : Snapshot := ⟨1, Value.ofJson (.object [("view", .null)])⟩

/-- A document without. -/
def unwrapped : Snapshot := ⟨1, Value.ofJson (.object [("title", .string "lug")])⟩

/-- The witness of `exact_iff_bare`. -/
theorem unwrapped_exact : Exact (snapshotFrom 1 (Versioned.state unwrapped)) unwrapped ∧
      Exact (View.unwrapFrame 1 (Versioned.state unwrapped)).snapshot unwrapped ↔
    Bare (Versioned.state unwrapped) :=
  exact_iff_bare unwrapped rfl

/-- The follower takes the field for the document. -/
theorem wrapped_misread : ¬∀ s : Snapshot, s.root.asObject.isSome →
    Exact (snapshotFrom (Versioned.version s) (Versioned.state s)) s ∧
      Exact (View.unwrapFrame (Versioned.version s) (Versioned.state s)).snapshot s := by
  intro h
  obtain ⟨⟨t, ht, -⟩, -⟩ := h wrapped rfl
  cases ht

end Lug.Client
