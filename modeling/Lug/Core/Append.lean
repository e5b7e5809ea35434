import Lug.Core.Fold

/-!
One specification lemma for `Log::append`, its inversion `append_cases`, and
what indistinguishable logs do with the same batch.
-/

namespace Lug

open Reducible ReducibleContract

variable {D S P V : Type} [Versioned V] [Serde P] [Reducible D P V] [Storage S V]

namespace Log

theorem open_data {zero : D} {s : S} {l : Log D S} (h : Log.open zero s = .ok l) :
    version l.data = l.watermark ∧ l.synced = l.watermark ∧ l.storage = (Storage.load s).2 := by
  unfold Log.open at h
  rcases hload : Storage.load s with ⟨e | found, s'⟩
  · simp [hload] at h
  · simp only [hload] at h
    split at h
    · cases h
    · split at h
      · cases h
      · cases h
        exact ⟨rfl, rfl, rfl⟩

/-- Every way `Log::append` ends: the answer and the log it leaves behind. -/
inductive Appends (l : Log D S) (ps : List P) (durability : Durability) :
    Except (LogError (Reducible.Err D) (Storage.Err S)) (List V) → Log D S → Prop
  | stopped {e d} (hfold : fold (S := S) l.watermark l.data ps [] [] = (.error e, d))
      (h : Stops l.watermark l.data ps e d) :
      Appends l ps durability (.error e) { l with data := d }
  | identity {vs d} (h : Folds l.data ps [] vs d) :
      Appends l ps durability (.ok vs) { l with data := d }
  | refused {rs last vs d e s} (h : Folds l.data ps rs vs d) (hlast : rs.getLast? = some last)
      (hs : Storage.append l.storage rs = (.error e, s)) :
      Appends l ps durability (.error (.storage e))
        { l with data := (truncate d l.watermark).2, storage := s }
  | written {rs last vs d s} (h : Folds l.data ps rs vs d) (hlast : rs.getLast? = some last)
      (hs : Storage.append l.storage rs = (.ok (), s)) (hd : durability ≠ .durable) :
      Appends l ps durability (.ok vs)
        { l with data := d, storage := s, watermark := last.version }
  | unflushed {rs last vs d s e s'} (h : Folds l.data ps rs vs d)
      (hlast : rs.getLast? = some last)
      (hs : Storage.append l.storage rs = (.ok (), s)) (hd : durability = .durable)
      (hs' : Storage.sync s = (.error e, s')) :
      Appends l ps durability (.error (.storage e))
        { l with data := d, storage := s', watermark := last.version }
  | flushed {rs last vs d s s'} (h : Folds l.data ps rs vs d)
      (hlast : rs.getLast? = some last)
      (hs : Storage.append l.storage rs = (.ok (), s)) (hd : durability = .durable)
      (hs' : Storage.sync s = (.ok (), s')) :
      Appends l ps durability (.ok vs)
        { l with data := d, storage := s', watermark := last.version, synced := last.version }

theorem append_cases (l : Log D S) (ps : List P) (durability : Durability) :
    Appends l ps durability (l.append ps durability).1 (l.append ps durability).2 := by
  cases ps with
  | nil => exact .identity (.nil l.data)
  | cons p ps =>
      simp only [append, List.isEmpty_cons, Bool.false_eq_true, if_false]
      rcases hf : fold (S := S) l.watermark l.data (p :: ps) [] [] with ⟨e | ⟨rs, vs⟩, d⟩
      case error =>
        obtain ⟨stops⟩ := stops_of_fold hf
        exact .stopped hf stops
      have hfolds := fold_eq_ok_iff.mp hf
      rcases hlast : rs.getLast? with _ | last
      · rw [List.getLast?_eq_none_iff] at hlast
        subst hlast
        exact .identity hfolds
      rcases hs : Storage.append l.storage rs with ⟨e | ⟨⟩, s⟩
      · simpa [hlast, hs] using Appends.refused hfolds hlast hs
      by_cases hd : durability = .durable
      · rcases hs' : Storage.sync s with ⟨e | ⟨⟩, s'⟩
        · simpa [hlast, hs, hd, hs'] using Appends.unflushed hfolds hlast hs hd hs'
        · simpa [hlast, hs, hd, hs'] using Appends.flushed hfolds hlast hs hd hs'
      · simpa [hlast, hs, hd] using Appends.written hfolds hlast hs hd

/-- The flush behind a batch fails: storage took these records, the caller asked
for `Durable`, and `Storage::sync` refused. -/
def FlushFails (l : Log D S) (ps : List P) (durability : Durability)
    (rs : List Record) : Prop :=
  ∃ vs d, Folds l.data ps rs vs d ∧ rs ≠ [] ∧ (Storage.append l.storage rs).1 = .ok () ∧
    durability = .durable ∧
    ∃ e, (Storage.sync (Storage.append l.storage rs).2).1 = .error e

variable [ReducibleContract D]

/-- Two logs over the same store that nothing tells apart. -/
structure Like (l l' : Log D S) : Prop where
  data : Same l.data l'.data
  storage : l.storage = l'.storage
  watermark : l.watermark = l'.watermark
  synced : l.synced = l'.synced

theorem fold_same {d e : D} (h : Same d e) (base : ℕ) (ps : List P) (rs : List Record)
    (vs : List V) :
    (fold (S := S) base d ps rs vs).1 = (fold (S := S) base e ps rs vs).1 ∧
      Same (fold (S := S) base d ps rs vs).2 (fold (S := S) base e ps rs vs).2 := by
  induction ps generalizing d e rs vs with
  | nil => exact ⟨rfl, h⟩
  | cons p ps ih =>
      cases hp : Serde.toVec p with
      | error msg => simpa [fold_cons, hp] using h
      | ok b =>
          rcases ha : apply d p with ⟨_ | _ | v, d₁⟩ <;>
            obtain ⟨e₁, ha', hsame⟩ := same_apply_eq h ha <;>
            simp only [fold_cons, hp, ha, ha', true_and]
          · exact same_truncate hsame base
          · rw [same_view hsame]
            exact ih hsame _ _
          · exact ih hsame _ _

/-- Logs nothing tells apart answer every batch alike and stay so. -/
theorem Like.append {l l' : Log D S} (h : Like l l') (ps : List P) (durability : Durability) :
    (l.append ps durability).1 = (l'.append ps durability).1 ∧
      Like (l.append ps durability).2 (l'.append ps durability).2 := by
  obtain ⟨data, storage, watermark, synced⟩ := l
  obtain ⟨data', storage', watermark', synced'⟩ := l'
  obtain ⟨hdata, rfl, rfl, rfl⟩ := h
  simp only at hdata
  cases ps with
  | nil => exact ⟨rfl, hdata, rfl, rfl, rfl⟩
  | cons p ps =>
      simp only [Log.append, List.isEmpty_cons, Bool.false_eq_true, if_false]
      obtain ⟨hresult, hstate⟩ := fold_same (S := S) hdata watermark (p :: ps) [] []
      rcases hf : fold (S := S) watermark data (p :: ps) [] [] with ⟨r, d⟩
      rcases hf' : fold (S := S) watermark data' (p :: ps) [] [] with ⟨r', d'⟩
      rw [hf, hf'] at hresult hstate
      simp only at hresult hstate
      subst hresult
      rcases r with e | ⟨rs, vs⟩
      · exact ⟨rfl, hstate, rfl, rfl, rfl⟩
      rcases hlast : rs.getLast? with _ | last
      · simp only [hlast, true_and]
        exact ⟨hstate, rfl, rfl, rfl⟩
      rcases hs : Storage.append storage rs with ⟨e | ⟨⟩, s⟩
      · simp only [hlast, hs, true_and]
        exact ⟨same_truncate hstate _, rfl, rfl, rfl⟩
      by_cases hd : durability = .durable
      · rcases hs' : Storage.sync s with ⟨e | ⟨⟩, s'⟩
        · simp only [hlast, hs, hd, if_true, hs', true_and]
          exact ⟨hstate, rfl, rfl, rfl⟩
        · simp only [hlast, hs, hd, if_true, hs', true_and]
          exact ⟨hstate, rfl, rfl, rfl⟩
      · simp only [hlast, hs, hd, if_false, true_and]
        exact ⟨hstate, rfl, rfl, rfl⟩

end Log

end Lug
