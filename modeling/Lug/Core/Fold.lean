import Lug.Core.Log
import Lug.Lib.Consecutive

/-!
What the loop of `Log::append` can do, said once. A batch that folds is a
`Folds` derivation, one constructor per iteration; a batch that does not stops
behind a prefix that does.
-/

namespace Lug

open Reducible ReducibleContract Runs

variable {D S P V : Type} [Versioned V] [Serde P] [Reducible D P V] [Storage S V]

namespace Log

/-- The patches fold into the structure one after the other, leaving these
records and views. -/
inductive Folds : D → List P → List Record → List V → D → Prop
  | nil (d : D) : Folds d [] [] [] d
  | mint {d d₁ d₂ : D} {p : P} {ps : List P} {b : Bytes} {v : V} {rs : List Record}
      {vs : List V} (encoded : Serde.toVec p = .ok b)
      (applied : apply d p = (.ok (some v), d₁)) (rest : Folds d₁ ps rs vs d₂) :
      Folds d (p :: ps) ({ version := Versioned.version v, patch := b } :: rs) (v :: vs) d₂
  | identity {d d₁ d₂ : D} {p : P} {ps : List P} {b : Bytes} {rs : List Record}
      {vs : List V} (encoded : Serde.toVec p = .ok b)
      (applied : apply d p = (.ok none, d₁)) (rest : Folds d₁ ps rs vs d₂) :
      Folds d (p :: ps) rs (Reducible.view d₁ :: vs) d₂

/-- One iteration, with `stage_patch` and `commit` read as `apply`. -/
theorem fold_cons (base : ℕ) (d : D) (p : P) (ps : List P) (rs : List Record)
    (vs : List V) :
    fold (S := S) base d (p :: ps) rs vs =
      match Serde.toVec p with
      | .error e => (.error (.codec e), d)
      | .ok b =>
          match apply d p with
          | (.error e, d) => (.error (.data e), (truncate d base).2)
          | (.ok (some v), d) =>
              fold base d ps (rs ++ [{ version := Versioned.version v, patch := b }]) (vs ++ [v])
          | (.ok none, d) => fold base d ps rs (vs ++ [Reducible.view d]) := by
  rw [fold]
  cases Serde.toVec p with
  | error e => rfl
  | ok b =>
      simp only [apply]
      cases stagePatch d (stage d) p with
      | error e => rfl
      | ok staged =>
          rcases hc : commit d staged with ⟨_ | _ | _, d'⟩ <;> simp [hc]

theorem fold_of_folds {d d' : D} {ps : List P} {rs : List Record} {vs : List V}
    (h : Folds d ps rs vs d') (base : ℕ) (rs₀ : List Record) (vs₀ : List V) :
    fold (S := S) base d ps rs₀ vs₀ = (.ok (rs₀ ++ rs, vs₀ ++ vs), d') := by
  induction h generalizing rs₀ vs₀ with
  | nil d => simp [fold]
  | mint encoded applied _ ih => simp [fold_cons, encoded, applied, ih]
  | identity encoded applied _ ih => simp [fold_cons, encoded, applied, ih]

/-- How a batch stops: at a patch that cannot be encoded, which leaves the
structure as the earlier patches left it, or at one the structure refuses, which
truncates it. -/
structure Stops (base : ℕ) (d : D) (ps : List P)
    (e : LogError (Reducible.Err D) (Storage.Err S)) (d' : D) where
  before : List P
  at_ : P
  after : List P
  records : List Record
  views : List V
  reached : D
  split : ps = before ++ at_ :: after
  folds : Folds d before records views reached
  cause : (∃ msg, Serde.toVec at_ = .error msg ∧ e = .codec msg ∧ d' = reached) ∨
    ∃ b err, Serde.toVec at_ = .ok b ∧ (apply reached at_).1 = .error err ∧ e = .data err ∧
      d' = (truncate (apply reached at_).2 base).2

theorem Stops.at_mem {base : ℕ} {d d' : D} {ps : List P}
    {e : LogError (Reducible.Err D) (Storage.Err S)} (h : Stops base d ps e d') :
    h.at_ ∈ ps := by
  have hmem : h.at_ ∈ h.before ++ h.at_ :: h.after := by simp
  rwa [← h.split] at hmem

/-- A batch folds or stops; there is no third way through the loop. -/
theorem fold_cases (base : ℕ) (d : D) (ps : List P) (rs₀ : List Record) (vs₀ : List V) :
    (∃ rs vs d', Folds d ps rs vs d') ∨
      ∃ e d', fold (S := S) base d ps rs₀ vs₀ = (.error e, d') ∧
        Nonempty (Stops base d ps e d') := by
  induction ps generalizing d rs₀ vs₀ with
  | nil => exact .inl ⟨[], [], d, .nil d⟩
  | cons p ps ih =>
      cases hp : Serde.toVec p with
      | error msg =>
          refine .inr ⟨.codec msg, d, by simp [fold_cons, hp], ⟨?_⟩⟩
          exact ⟨[], p, ps, [], [], d, rfl, .nil d, .inl ⟨msg, hp, rfl, rfl⟩⟩
      | ok b =>
          rcases ha : apply d p with ⟨_ | _ | v, d₁⟩
          case error e =>
            refine .inr ⟨.data e, (truncate d₁ base).2, by simp [fold_cons, hp, ha], ⟨?_⟩⟩
            exact ⟨[], p, ps, [], [], d, rfl, .nil d,
              .inr ⟨b, e, hp, by rw [ha], rfl, by rw [ha]⟩⟩
          case ok.none =>
            rcases ih d₁ rs₀ (vs₀ ++ [Reducible.view d₁]) with
              ⟨rs, vs, d', h⟩ | ⟨e, d', hfold, ⟨stops⟩⟩
            · exact .inl ⟨rs, _, d', .identity hp ha h⟩
            · refine .inr ⟨e, d', by simpa [fold_cons, hp, ha] using hfold, ⟨?_⟩⟩
              exact ⟨p :: stops.before, stops.at_, stops.after, stops.records, _, stops.reached,
                congrArg (p :: ·) stops.split, .identity hp ha stops.folds, stops.cause⟩
          case ok.some =>
            rcases ih d₁ (rs₀ ++ [⟨Versioned.version v, b⟩]) (vs₀ ++ [v]) with
              ⟨rs, vs, d', h⟩ | ⟨e, d', hfold, ⟨stops⟩⟩
            · exact .inl ⟨_, _, d', .mint hp ha h⟩
            · refine .inr ⟨e, d', by simpa [fold_cons, hp, ha] using hfold, ⟨?_⟩⟩
              exact ⟨p :: stops.before, stops.at_, stops.after, _, _, stops.reached,
                congrArg (p :: ·) stops.split, .mint hp ha stops.folds, stops.cause⟩

theorem fold_eq_ok_iff {base : ℕ} {d d' : D} {ps : List P} {rs : List Record}
    {vs : List V} :
    fold (S := S) base d ps [] [] = (.ok (rs, vs), d') ↔ Folds d ps rs vs d' := by
  constructor
  · intro h
    rcases fold_cases (S := S) base d ps [] [] with ⟨rs', vs', d'', hf⟩ | ⟨e, d'', he, _⟩
    · have := fold_of_folds (S := S) hf base [] []
      rw [h] at this
      simp only [List.nil_append, Prod.mk.injEq, Except.ok.injEq] at this
      obtain ⟨⟨rfl, rfl⟩, rfl⟩ := this
      exact hf
    · rw [h] at he
      cases he
  · intro h
    simpa using fold_of_folds (S := S) h base [] []

theorem stops_of_fold {base : ℕ} {d d' : D} {ps : List P} {rs : List Record}
    {vs : List V} {e : LogError (Reducible.Err D) (Storage.Err S)}
    (h : fold (S := S) base d ps rs vs = (.error e, d')) : Nonempty (Stops base d ps e d') := by
  rcases fold_cases (S := S) base d ps rs vs with ⟨rs', vs', d'', hf⟩ | ⟨e', d'', he, hs⟩
  · rw [fold_of_folds hf] at h
    cases h
  · rw [he] at h
    cases h
    exact hs

namespace Folds

variable {d d₁ d₂ : D} {ps qs : List P} {rs rs' : List Record} {vs vs' : List V}

theorem append (h : Folds d ps rs vs d₁) (h' : Folds d₁ qs rs' vs' d₂) :
    Folds d (ps ++ qs) (rs ++ rs') (vs ++ vs') d₂ := by
  induction h with
  | nil d => exact h'
  | mint encoded applied _ ih => exact .mint encoded applied (ih h')
  | identity encoded applied _ ih => exact .identity encoded applied (ih h')

/-- A derivation for a concatenation splits where the patches do. -/
theorem split (h : Folds d (ps ++ qs) rs vs d₂) :
    ∃ rs₁ rs₂ vs₁ vs₂ d₁, Folds d ps rs₁ vs₁ d₁ ∧ Folds d₁ qs rs₂ vs₂ d₂ ∧
      rs = rs₁ ++ rs₂ ∧ vs = vs₁ ++ vs₂ := by
  induction ps generalizing d rs vs with
  | nil => exact ⟨[], rs, [], vs, d, .nil d, h, rfl, rfl⟩
  | cons p ps ih =>
      cases h with
      | mint encoded applied rest =>
          obtain ⟨rs₁, rs₂, vs₁, vs₂, d₁, h₁, h₂, rfl, rfl⟩ := ih rest
          exact ⟨_, rs₂, _, vs₂, d₁, .mint encoded applied h₁, h₂, rfl, rfl⟩
      | identity encoded applied rest =>
          obtain ⟨rs₁, rs₂, vs₁, vs₂, d₁, h₁, h₂, rfl, rfl⟩ := ih rest
          exact ⟨rs₁, rs₂, _, vs₂, d₁, .identity encoded applied h₁, h₂, rfl, rfl⟩

/-- The loop is a function of the structure and the patches. -/
theorem det (h : Folds d ps rs vs d₁) (h' : Folds d ps rs' vs' d₂) :
    rs = rs' ∧ vs = vs' ∧ d₁ = d₂ := by
  induction h generalizing rs' vs' with
  | nil d => cases h'; exact ⟨rfl, rfl, rfl⟩
  | mint encoded applied _ ih =>
      cases h' with
      | mint encoded' applied' rest' =>
          rw [encoded] at encoded'
          rw [applied] at applied'
          cases encoded'
          cases applied'
          obtain ⟨rfl, rfl, rfl⟩ := ih rest'
          exact ⟨rfl, rfl, rfl⟩
      | identity encoded' applied' rest' =>
          rw [applied] at applied'
          cases applied'
  | identity encoded applied _ ih =>
      cases h' with
      | mint encoded' applied' rest' =>
          rw [applied] at applied'
          cases applied'
      | identity encoded' applied' rest' =>
          rw [applied] at applied'
          cases applied'
          obtain ⟨rfl, rfl, rfl⟩ := ih rest'
          exact ⟨rfl, rfl, rfl⟩

theorem views_length (h : Folds d ps rs vs d₁) : vs.length = ps.length := by
  induction h with
  | nil d => rfl
  | mint _ _ _ ih => simp [ih]
  | identity _ _ _ ih => simp [ih]

variable [ReducibleContract D]

/-- Indistinguishable structures fold the same batches to the same results. -/
theorem same {e : D} (h : Folds d ps rs vs d₁) (hs : Same d e) :
    ∃ e₁, Folds e ps rs vs e₁ ∧ Same d₁ e₁ := by
  induction h generalizing e with
  | nil d => exact ⟨e, .nil e, hs⟩
  | @mint d d₁ d₂ p ps b v rs vs encoded applied _ ih =>
      obtain ⟨e₁, happly, hstate⟩ := same_apply_eq hs applied
      obtain ⟨e₂, hfolds, hsame⟩ := ih hstate
      exact ⟨e₂, .mint encoded happly hfolds, hsame⟩
  | @identity d d₁ d₂ p ps b rs vs encoded applied _ ih =>
      obtain ⟨e₁, happly, hstate⟩ := same_apply_eq hs applied
      obtain ⟨e₂, hfolds, hsame⟩ := ih hstate
      refine ⟨e₂, ?_, hsame⟩
      rw [same_view hstate]
      exact .identity encoded happly hfolds

/-- Every record takes the next version, and the structure ends at the last. -/
theorem versions (h : Folds d ps rs vs d₁) :
    Consecutive Record.version (version d + 1) rs ∧
      version d₁ = version d + rs.length := by
  induction h with
  | nil d => exact ⟨trivial, rfl⟩
  | @mint d d₁ d₂ p ps b v rs vs encoded applied rest ih =>
      have hd₁ : version d₁ = version d + 1 := by
        simpa [applied] using version_apply_ok (d := d) (p := p) (o := some v) (by rw [applied])
      have hv : Versioned.version v = version d + 1 :=
        (apply_mint (d := d) (p := p) (by rw [applied])).2
      obtain ⟨hrun, hend⟩ := ih
      rw [hd₁] at hrun hend
      refine ⟨⟨hv, hrun⟩, ?_⟩
      rw [hend, List.length_cons]
      omega
  | @identity d d₁ d₂ p ps b rs vs encoded applied rest ih =>
      have hd₁ : version d₁ = version d := by
        simpa [applied] using version_apply_ok (d := d) (p := p) (o := none) (by rw [applied])
      rwa [hd₁] at ih

theorem version_le (h : Folds d ps rs vs d₁) (hd : version d ≤ versionMax) :
    version d₁ ≤ versionMax := by
  induction h with
  | nil d => exact hd
  | @mint d d₁ d₂ p ps b v rs vs encoded applied rest ih =>
      have hview := (apply_mint (d := d) (p := p) (by rw [applied])).1
      have hfits := mint_fits (d := d) (p := p) (by rw [applied])
      rw [applied] at hview
      exact ih (by rw [version, hview]; exact hfits)
  | @identity d d₁ d₂ p ps b rs vs encoded applied rest ih =>
      have hsame : Same d₁ d := by
        simpa [applied] using apply_identity (d := d) (p := p) (by rw [applied])
      exact ih (by rw [same_version hsame]; exact hd)

theorem last_version (h : Folds d ps rs vs d₁) {last : Record} (hl : rs.getLast? = some last) :
    last.version = version d₁ := by
  obtain ⟨hrun, hend⟩ := h.versions
  have hlast := hrun.last_eq hl
  omega

/-- Truncating behind a folded batch is truncating in front of it. -/
theorem unwinds (h : Folds d ps rs vs d₁) {u : ℕ}
    (hu : (Reducible.viewAt d u).isSome) :
    Same (truncate d₁ u).2 (truncate d u).2 := by
  induction h with
  | nil d => exact same_refl _
  | @mint d d₁ d₂ p ps b v rs vs encoded applied rest ih =>
      have hkept := viewAt_mint (d := d) (p := p) (v := v) (by rw [applied])
        (le_version_of_retained hu)
      have hstep := truncate_apply (d := d) (p := p) (v := v) (by rw [applied]) hu
      rw [applied] at hkept hstep
      exact same_trans (ih (by rw [hkept]; exact hu)) hstep
  | @identity d d₁ d₂ p ps b rs vs encoded applied rest ih =>
      have hsame : Same d₁ d := by
        simpa [applied] using apply_identity (d := d) (p := p) (by rw [applied])
      exact same_trans (ih (by rw [same_viewAt hsame]; exact hu)) (same_truncate hsame u)

/-- Unwinding a folded batch gives back the structure it started from. -/
theorem unwind (h : Folds d ps rs vs d₁) : Same (truncate d₁ (version d)).2 d :=
  same_trans (h.unwinds (by rw [viewAt_version]; rfl)) (truncate_reached le_rfl)

theorem same_of_nil (h : Folds d ps [] vs d₁) : Same d₁ d := by
  generalize hrs : ([] : List Record) = rs at h
  induction h with
  | nil d => exact same_refl d
  | mint => cases hrs
  | @identity d d₁ d₂ p ps b rs vs encoded applied rest ih =>
      have hsame : Same d₁ d := by
        simpa [applied] using apply_identity (d := d) (p := p) (by rw [applied])
      exact same_trans (ih hrs) hsame

end Folds

/-- A batch the structure refuses leaves it as it was. -/
theorem Stops.same_of_data [ReducibleContract D] {d d' : D} {ps : List P}
    {e : LogError (Reducible.Err D) (Storage.Err S)} (h : Stops (version d) d ps e d')
    {b : Bytes} (hb : Serde.toVec h.at_ = .ok b) : Same d' d := by
  rcases h.cause with ⟨msg, hmsg, _⟩ | ⟨b', err, _, happly, _, hd'⟩
  · rw [hb] at hmsg
    cases hmsg
  · rw [hd']
    exact same_trans (same_truncate (apply_error happly) _) h.folds.unwind

end Log

end Lug
