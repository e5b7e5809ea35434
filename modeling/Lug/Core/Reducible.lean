import Lug.Core.Json

/-!
`lug_core::Reducible`: a structure that folds serializable patches into
versioned views, and the contract its documentation states.
-/

namespace Lug

/-- The last version the counter holds. A version is a `u64`, here a natural
number; every place where the counter may run out says so. -/
def versionMax : ℕ := 2 ^ 64 - 1

/-- `lug_core::Versioned`: an MVCC pointer. -/
class Versioned (V : Type) where
  version : V → ℕ
  state : V → Json

/-- The serde implementations of a patch type: `serde_json::to_vec`,
`serde_json::from_slice` and `serde_json::from_value`. -/
class Serde (P : Type) where
  toVec : P → Except String Bytes
  fromSlice : Bytes → Except String P
  fromValue : Json → Except String P

/-- A patch that was decoded from JSON encodes again, as both patch types of the
server do. -/
class LawfulSerde (P : Type) [Serde P] : Prop where
  toVec_of_fromValue {j : Json} {p : P} :
    Serde.fromValue j = .ok p → ∃ b, Serde.toVec p = .ok b

/-- `lug_core::Reducible`. A failed `stage_patch` leaves its working state to the
caller, who drops it everywhere it is called, so only success returns one. A
failed `commit` returns the structure it leaves behind. -/
class Reducible (D : Type) (P V : outParam Type) where
  Staged : Type
  Err : Type
  display : Err → String
  stage : D → Staged
  stagePatch : D → Staged → P → Except Err Staged
  commit : D → Staged → Except Err (Option V) × D
  view : D → V
  viewAt : D → ℕ → Option V
  truncate : D → ℕ → Except Err Unit × D
  resume : V → Except Err D

namespace Reducible

variable {D P V : Type} [Versioned V] [Reducible D P V]

def version (d : D) : ℕ := Versioned.version (view d)

/-- Stage, then commit, one patch. -/
def apply (d : D) (p : P) : Except (Err D) (Option V) × D :=
  match stagePatch d (stage d) p with
  | .error e => (.error e, d)
  | .ok staged => commit d staged

end Reducible

open Reducible

/-- The contract of `Reducible`, over an equivalence that stands for "nothing a
caller can do tells the two apart". -/
class ReducibleContract (D : Type) {P V : outParam Type} [Versioned V]
    [Reducible D P V] where
  Same : D → D → Prop
  same_equivalence : Equivalence Same
  /-- Indistinguishable structures show the same pointers. -/
  same_view {d e : D} : Same d e → view d = view e
  same_viewAt {d e : D} : Same d e → ∀ v, viewAt d v = viewAt e v
  /-- They answer a patch alike and stay indistinguishable. -/
  same_apply {d e : D} : Same d e → ∀ p : P, (apply d p).1 = (apply e p).1
  same_apply_state {d e : D} : Same d e → ∀ p : P, Same (apply d p).2 (apply e p).2
  same_truncate {d e : D} : Same d e → ∀ v, Same (truncate d v).2 (truncate e v).2
  /-- A refused patch publishes nothing. -/
  apply_error {d : D} {p : P} {e} : (apply d p).1 = .error e → Same (apply d p).2 d
  /-- A patch that changes nothing mints no version. -/
  apply_identity {d : D} {p : P} : (apply d p).1 = .ok none → Same (apply d p).2 d
  /-- Every other patch mints exactly one version, the next. -/
  apply_mint {d : D} {p : P} {v : V} : (apply d p).1 = .ok (some v) →
    view (apply d p).2 = v ∧ Versioned.version v = version d + 1
  /-- The counter does not run over. -/
  mint_fits {d : D} {p : P} {v : V} : (apply d p).1 = .ok (some v) →
    Versioned.version v ≤ versionMax
  /-- Minting keeps the versions retained so far. -/
  viewAt_mint {d : D} {p : P} {v : V} {u : ℕ} :
    (apply d p).1 = .ok (some v) → u ≤ version d → viewAt (apply d p).2 u = viewAt d u
  /-- Truncating to a version still retained forgets those above, the last one
  included. -/
  truncate_apply {d : D} {p : P} {v : V} {u : ℕ} :
    (apply d p).1 = .ok (some v) → (viewAt d u).isSome →
      Same (truncate (apply d p).2 u).2 (truncate d u).2
  truncate_reached {d : D} {u : ℕ} : version d ≤ u → Same (truncate d u).2 d
  viewAt_version {d : D} : viewAt d (version d) = some (view d)
  /-- Nothing is retained above the current version. -/
  viewAt_above {d : D} {v : ℕ} : version d < v → viewAt d v = none

namespace ReducibleContract

variable {D P V : Type} [Versioned V] [Reducible D P V] [ReducibleContract D]

theorem same_refl (d : D) : Same d d := same_equivalence.refl d

theorem same_symm {d e : D} (h : Same d e) : Same e d := same_equivalence.symm h

theorem same_trans {d e f : D} (h : Same d e) (h' : Same e f) : Same d f :=
  same_equivalence.trans h h'

theorem same_version {d e : D} (h : Same d e) : version d = version e := by
  simp only [version, same_view h]

theorem same_apply_eq {d e d₁ : D} {p : P} {o : Except (Err D) (Option V)} (h : Same d e)
    (ha : apply d p = (o, d₁)) : ∃ e₁, apply e p = (o, e₁) ∧ Same d₁ e₁ := by
  have hresult := same_apply h p
  have hstate := same_apply_state h p
  rw [ha] at hresult hstate
  exact ⟨(apply e p).2, Prod.ext hresult.symm rfl, hstate⟩

theorem le_version_of_retained {d : D} {u : ℕ} (h : (viewAt d u).isSome) : u ≤ version d := by
  by_contra hlt
  rw [viewAt_above (by omega)] at h
  cases h

/-- A patch moves the version by one when it mints and not at all otherwise. -/
theorem version_apply_ok {d : D} {p : P} {o : Option V} (h : (apply d p).1 = .ok o) :
    version (apply d p).2 = version d + o.elim 0 (fun _ => 1) := by
  cases o with
  | none => simpa using same_version (apply_identity h)
  | some v =>
      obtain ⟨hview, hversion⟩ := apply_mint h
      simp [version, hview, hversion]

end ReducibleContract

end Lug
