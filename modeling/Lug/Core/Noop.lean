import Lug.Core.Reducible

/-!
`lug_core::Noop`: counts versions, keeps nothing. It never looks at a patch, so
the patch type stays open here; `Noop` itself counts JSON values.
-/

namespace Lug

structure Counting (P : Type) where
  version : ℕ
  deriving DecidableEq, Repr

abbrev Noop := Counting Json

/-- A JSON value is its own serialized form. -/
instance [TextCodec] : Serde Json where
  toVec j := .ok (TextCodec.toVec j)
  fromSlice := TextCodec.fromSlice
  fromValue j := .ok j

instance [TextCodec] : LawfulSerde Json where
  toVec_of_fromValue {_ p} _ := ⟨TextCodec.toVec p, rfl⟩

/-- The text format on the value `null` alone. -/
@[reducible] def nullText : TextCodec where
  toVec _ := "null".toUTF8.toList
  fromSlice bytes :=
    if bytes = "null".toUTF8.toList then .ok .null else .error "expected value"
  invalidType _ expected := "invalid type: null, expected " ++ expected

/-- The view of a `Noop` is just the counter. -/
structure Tick where
  version : ℕ
  deriving DecidableEq, Repr

instance : Versioned Tick where
  version t := t.version
  state _ := .null

namespace Counting

variable {P : Type}

def commit (n : Counting P) (staged : ℕ) : Except String (Option Tick) × Counting P :=
  if staged = 0 then (.ok none, n)
  else if n.version < versionMax then (.ok (some ⟨n.version + 1⟩), ⟨n.version + 1⟩)
  else (.error "version counter exhausted", n)

instance : Reducible (Counting P) P Tick where
  Staged := ℕ
  Err := String
  display e := e
  stage _ := 0
  stagePatch _ staged _ := .ok (staged + 1)
  commit := commit
  view n := ⟨n.version⟩
  viewAt n v := if v ≤ n.version then some ⟨v⟩ else none
  truncate n v := (.ok (), ⟨min n.version v⟩)
  resume view := .ok ⟨view.version⟩

theorem apply_eq (n : Counting P) (p : P) :
    Reducible.apply n p = if n.version < versionMax
      then (.ok (some ⟨n.version + 1⟩), ⟨n.version + 1⟩)
      else (.error "version counter exhausted", n) := by
  simp [Reducible.apply, Reducible.stagePatch, Reducible.commit, Reducible.stage, commit]

instance : ReducibleContract (Counting P) where
  Same := Eq
  same_equivalence := ⟨fun _ => rfl, Eq.symm, Eq.trans⟩
  same_view h := h ▸ rfl
  same_viewAt h _ := h ▸ rfl
  same_apply h _ := h ▸ rfl
  same_apply_state h _ := h ▸ rfl
  same_truncate h _ := h ▸ rfl
  apply_error {n p e} h := by
    rw [apply_eq] at h ⊢
    split at h
    · cases h
    · rename_i hmax
      rw [if_neg hmax]
  apply_identity {n p} h := by
    rw [apply_eq] at h
    split at h <;> cases h
  apply_mint {n p v} h := by
    rw [apply_eq] at h ⊢
    split at h
    · rename_i hmax
      cases h
      rw [if_pos hmax]
      exact ⟨rfl, rfl⟩
    · cases h
  mint_fits {n p v} h := by
    rw [apply_eq] at h
    split at h
    · rename_i hmax
      cases h
      exact hmax
    · cases h
  viewAt_mint {n p v u} h hu := by
    rw [apply_eq] at h ⊢
    split at h
    · rename_i hmax
      rw [if_pos hmax]
      have hu' : u ≤ n.version := hu
      simp [Reducible.viewAt, hu', hu'.trans (Nat.le_succ _)]
    · cases h
  truncate_apply {n p v u} h hu := by
    rw [apply_eq] at h ⊢
    split at h
    · rename_i hmax
      rw [if_pos hmax]
      have hu' : u ≤ n.version := by
        by_contra hlt
        simp [Reducible.viewAt, hlt] at hu
      simp only [Reducible.truncate]
      congr 1
      omega
    · cases h
  truncate_reached {n u} h := by
    have h' : n.version ≤ u := h
    simp [Reducible.truncate, Nat.min_eq_left h']
  viewAt_version {n} := if_pos le_rfl
  viewAt_above {n v} h := by
    have h' : n.version < v := h
    simp [Reducible.viewAt, h']

end Counting

end Lug
