import Lug.Core.Append
import Lug.Core.Archive

/-!
The invariant of a log that sits on its storage: both end at the watermark. What
each operation preserves of it, and what it adds to the history.
-/

namespace Lug

open Reducible ReducibleContract StorageContract Runs

/-- Storage that does not fail: it takes what comes in order, flushes, and
accepts the checkpoint of its last version. -/
structure Unfailing (S : Type) {V : Type} [Versioned V] [Storage S V]
    [StorageContract S] : Prop where
  append {s : S} {L : Ledger V} {records : List Record} : Holds s L →
    Consecutive Record.version (L.top + 1) records → (Storage.append s records).1 = .ok ()
  sync {s : S} {L : Ledger V} : Holds s L → (Storage.sync s).1 = .ok ()
  writeHeader {s : S} {L : Ledger V} {view : V} : Holds s L →
    Versioned.version view = L.top → (Storage.writeHeader s view).1 = .ok ()

/-- An archive that is not faulty does not fail. -/
theorem Archive.unfailing {V : Type} [Versioned V] : Unfailing (Archive V false) where
  append {s L records} h hrun := by
    obtain ⟨rfl, -⟩ := h
    rw [consecutive_iff_map] at hrun
    simp [Storage.append, Archive.append, hrun]
  sync {s L} _ := by simp [Storage.sync, Archive.sync]
  writeHeader {s L view} h hview := by
    obtain ⟨rfl, -⟩ := h
    have hle := Archive.header_le_top s
    have hkeeps : ¬ Versioned.version view + 1 < s.floor := by omega
    simp [Storage.writeHeader, Archive.writeHeader, hkeeps]

variable {D S P V : Type} [Versioned V] [Serde P] [Reducible D P V] [Storage S V]
  [StorageContract S]

namespace Log

structure Sound (l : Log D S) (L : Ledger V) : Prop where
  holds : Holds l.storage L
  version : version l.data = l.watermark
  top : L.top = l.watermark
  fits : L.taken.length ≤ l.watermark
  run : Consecutive Record.version (l.watermark + 1 - L.taken.length) L.taken
  counter : l.watermark ≤ versionMax

/-- The flush of an append does not fail behind its write. -/
def Flushes (l : Log D S) (ps : List P) (durability : Durability) : Prop :=
  ¬ ∃ rs, l.FlushFails ps durability rs

theorem Ledger.top_push {L : Ledger V} {rs : List Record} {last : Record}
    (hlast : rs.getLast? = some last) (h : L.top ≤ last.version) :
    (L.push rs).top = last.version := by
  have hheader : L.header.elim 0 Versioned.version ≤ last.version := by
    exact le_trans (le_max_right _ _) h
  simp [Ledger.top, hlast, hheader]

omit [Serde P] in
/-- A checkpoint leaves the old header or the new one, and everything else. -/
theorem checkpoint_holds {l : Log D S} {L : Ledger V} (h : Holds l.storage L) :
    ∃ s synced L', l.checkpoint.2 = { l with storage := s, synced } ∧ Holds s L' ∧
      (L' = L ∨ L' = L.checkpoint (Reducible.view l.data)) := by
  unfold Log.checkpoint
  rcases hw : Storage.writeHeader l.storage (Reducible.view l.data) with ⟨e | ⟨⟩, s⟩
  · have hs := writeHeader_error h (by rw [hw])
    rw [hw] at hs
    cases hs with
    | inl hkept => exact ⟨s, l.synced, L, rfl, hkept, .inl rfl⟩
    | inr hmoved => exact ⟨s, l.synced, _, rfl, hmoved, .inr rfl⟩
  · have hs := writeHeader_ok h (by rw [hw])
    rw [hw] at hs
    have hs' := sync_holds hs
    rcases hy : Storage.sync s with ⟨e | ⟨⟩, s'⟩
    · rw [hy] at hs'
      exact ⟨s', l.synced, _, by simp only [hy], hs', .inr rfl⟩
    · rw [hy] at hs'
      exact ⟨s', l.watermark, _, by simp only [hy], hs', .inr rfl⟩

omit [Serde P] in
/-- No operation moves the floor of the log back. -/
theorem oldest_checkpoint_le {l : Log D S} {L : Ledger V} (h : Holds l.storage L) :
    l.oldest ≤ l.checkpoint.2.oldest := by
  have hheader : Storage.oldest l.storage ≤
      Storage.oldest (Storage.writeHeader l.storage (Reducible.view l.data)).2 :=
    oldest_writeHeader h
  unfold Log.checkpoint
  rcases hw : Storage.writeHeader l.storage (Reducible.view l.data) with ⟨e | ⟨⟩, s⟩
  · rw [hw] at hheader
    exact hheader
  · have hs := writeHeader_ok h (by rw [hw])
    rw [hw] at hheader hs
    have hsync := oldest_sync hs
    rcases hy : Storage.sync s with ⟨e | ⟨⟩, s'⟩
    · rw [hy] at hsync
      simp only [hy]
      exact hheader.trans hsync
    · rw [hy] at hsync
      simp only [hy]
      exact hheader.trans hsync

theorem oldest_append_le {l : Log D S} {L : Ledger V} (h : Holds l.storage L) (ps : List P)
    (durability : Durability) : l.oldest ≤ (l.append ps durability).2.oldest := by
  have hcases := append_cases l ps durability
  generalize (l.append ps durability).1 = o at hcases
  generalize (l.append ps durability).2 = l' at hcases
  have hgrows : ∀ rs, Storage.oldest l.storage ≤
      Storage.oldest (Storage.append l.storage rs).2 := fun rs => oldest_append h
  have htaken : ∀ {rs s}, Storage.append l.storage rs = (.ok (), s) →
      Storage.oldest l.storage ≤ Storage.oldest s ∧ Holds s (L.push rs) := by
    intro rs s hs
    have hle := hgrows rs
    have hheld := append_ok h (by rw [hs])
    rw [hs] at hle hheld
    exact ⟨hle, hheld⟩
  cases hcases with
  | stopped => exact le_rfl
  | identity => exact le_rfl
  | @refused rs _ _ _ _ _ _ _ hs =>
      have hle := hgrows rs
      rwa [hs] at hle
  | written _ _ hs => exact (htaken hs).1
  | unflushed _ _ hs _ hs' =>
      have hsync := oldest_sync (htaken hs).2
      rw [hs'] at hsync
      exact (htaken hs).1.trans hsync
  | flushed _ _ hs _ hs' =>
      have hsync := oldest_sync (htaken hs).2
      rw [hs'] at hsync
      exact (htaken hs).1.trans hsync

variable [ReducibleContract D]

/-- What an append whose patches encode does to the history of a log that sits on
its watermark: it takes the records of the whole batch or none. -/
inductive Outcome (l : Log D S) (L : Ledger V) (ps : List P) :
    Except (LogError (Reducible.Err D) (Storage.Err S)) (List V) → Log D S → Prop
  | rejected {e l'}
      (fails : (fold (S := S) l.watermark l.data ps [] []).1 = .error (.data e))
      (same : Same l'.data l.data) (watermark : l'.watermark = l.watermark)
      (holds : Holds l'.storage L) : Outcome l L ps (.error (.data e)) l'
  | refused {e l'} (same : Same l'.data l.data) (watermark : l'.watermark = l.watermark)
      (holds : Holds l'.storage L) : Outcome l L ps (.error (.storage e)) l'
  | taken {o rs vs l'} (folds : Folds l.data ps rs vs l'.data)
      (watermark : l'.watermark = Reducible.version l'.data) (holds : Holds l'.storage (L.push rs))
      (answer : o = .ok vs ∨ ∃ e, o = .error (.storage e)) : Outcome l L ps o l'

theorem append_outcome {l : Log D S} {L : Ledger V} (ps : List P) (durability : Durability)
    (hps : ∀ p ∈ ps, ∃ b, Serde.toVec p = .ok b) (holds : Holds l.storage L)
    (hversion : version l.data = l.watermark) :
    Outcome l L ps (l.append ps durability).1 (l.append ps durability).2 := by
  have hcases := append_cases l ps durability
  generalize (l.append ps durability).1 = o at hcases
  generalize (l.append ps durability).2 = l' at hcases
  have htaken : ∀ {rs s}, Storage.append l.storage rs = (.ok (), s) → Holds s (L.push rs) := by
    intro rs s hs
    have hheld := append_ok holds (by rw [hs])
    rwa [hs] at hheld
  cases hcases with
  | @stopped e d hfold stops =>
      obtain ⟨b, hb⟩ := hps _ stops.at_mem
      have hcause : ∃ err, e = .data err := by
        rcases stops.cause with ⟨msg, hmsg, -⟩ | ⟨b', err, -, -, he, -⟩
        · rw [hb] at hmsg
          cases hmsg
        · exact ⟨err, he⟩
      obtain ⟨err, rfl⟩ := hcause
      have hstops := stops
      rw [← hversion] at hstops
      obtain ⟨b', hb'⟩ := hps _ hstops.at_mem
      exact .rejected (by rw [hfold]) (hstops.same_of_data hb') rfl holds
  | @identity vs d hf =>
      refine .taken hf ?_ (by rwa [Ledger.push_nil]) (.inl rfl)
      exact hversion.symm.trans (same_version hf.same_of_nil).symm
  | refused hf _ hs =>
      have hback := hf.unwind
      have hkeeps := append_error holds (by rw [hs])
      rw [hversion] at hback
      rw [hs] at hkeeps
      exact .refused hback rfl hkeeps
  | written hf hlast hs _ => exact .taken hf (hf.last_version hlast) (htaken hs) (.inl rfl)
  | unflushed hf hlast hs _ hs' =>
      have hsynced := sync_holds (htaken hs)
      rw [hs'] at hsynced
      exact .taken hf (hf.last_version hlast) hsynced (.inr ⟨_, rfl⟩)
  | flushed hf hlast hs _ hs' =>
      have hsynced := sync_holds (htaken hs)
      rw [hs'] at hsynced
      exact .taken hf (hf.last_version hlast) hsynced (.inl rfl)

namespace Sound

variable {l : Log D S} {L : Ledger V}

omit [Serde P] in
/-- The structure may be replaced by one that nothing tells apart. -/
theorem of_same (h : l.Sound L) {d : D} {s : S} (hd : Same d l.data) (hs : Holds s L) :
    Sound { l with data := d, storage := s } L where
  holds := hs
  version := (same_version hd).trans h.version
  top := h.top
  fits := h.fits
  run := h.run
  counter := h.counter

/-- Storage took the records of a batch, so the watermark stands on the last. -/
theorem push (h : l.Sound L) {ps : List P} {rs : List Record} {vs : List V} {d : D} {s : S}
    {last : Record} {synced : ℕ} (hf : Folds l.data ps rs vs d) (hlast : rs.getLast? = some last)
    (hs : Holds s (L.push rs)) :
    Sound ⟨d, s, last.version, synced⟩ (L.push rs) := by
  obtain ⟨hrun, hend⟩ := hf.versions
  have hl := hf.last_version hlast
  rw [h.version] at hrun hend
  have htop : L.top ≤ last.version := by
    rw [h.top]
    omega
  have hfits := h.fits
  have hlength : (L.push rs).taken.length = L.taken.length + rs.length := by simp
  have hcounter := hf.version_le (by rw [h.version]; exact h.counter)
  refine ⟨hs, hl.symm, Ledger.top_push hlast htop, by simp only [hlength]; omega, ?_,
    by simp only [hl]; exact hcounter⟩
  rw [hlength, Ledger.push_taken]
  rw [show last.version + 1 - (L.taken.length + rs.length) =
    l.watermark + 1 - L.taken.length by omega, consecutive_append]
  exact ⟨h.run, by rwa [show l.watermark + 1 - L.taken.length + L.taken.length =
    l.watermark + 1 by omega]⟩

/-- The records of a batch come in the order storage wants them. -/
theorem inOrder (h : l.Sound L) {ps : List P} {rs : List Record} {vs : List V} {d : D}
    (hf : Folds l.data ps rs vs d) : Consecutive Record.version (L.top + 1) rs := by
  rw [h.top, ← h.version]
  exact hf.versions.1

omit [Serde P] [ReducibleContract D] in
/-- A checkpoint adds no record, whether or not it works. -/
theorem checkpoint (h : l.Sound L) :
    ∃ L', l.checkpoint.2.Sound L' ∧ L'.taken = L.taken ∧ l.checkpoint.2.data = l.data ∧
      l.checkpoint.2.watermark = l.watermark := by
  obtain ⟨s, synced, L', hlog, hs, hL'⟩ := checkpoint_holds h.holds
  rw [hlog]
  refine ⟨L', ?_, by cases hL' with | inl h => rw [h] | inr h => rw [h]; rfl, rfl, rfl⟩
  cases hL' with
  | inl hkept =>
      subst hkept
      exact ⟨hs, h.version, h.top, h.fits, h.run, h.counter⟩
  | inr hmoved =>
      subst hmoved
      refine ⟨hs, h.version, ?_, h.fits, h.run, h.counter⟩
      have hv : Versioned.version (Reducible.view l.data) = l.watermark := h.version
      have hle : L.taken.getLast?.elim 0 Record.version ≤ l.watermark := by
        rw [← h.top]
        exact le_max_left _ _
      simp [Ledger.top, hv, hle]

end Sound

/-- What an append on a sound log does when its patches encode and its flush
does not fail: all of the batch or nothing. -/
inductive Settles (l : Log D S) (L : Ledger V) (ps : List P) (durability : Durability) :
    Except (LogError (Reducible.Err D) (Storage.Err S)) (List V) → Log D S → Prop
  | taken {rs vs l'} (folds : Folds l.data ps rs vs l'.data) (sound : l'.Sound (L.push rs))
      (synced : durability = .durable → ∀ r ∈ rs, r.version ≤ l'.synced) :
      Settles l L ps durability (.ok vs) l'
  | stopped {e d}
      (fails : (fold (S := S) (Reducible.version l.data) l.data ps [] []).1 = .error (.data e))
      (same : Same d l.data) : Settles l L ps durability (.error (.data e)) { l with data := d }
  | refused {e l'} (fails : ¬ Unfailing S) (same : Same l'.data l.data) (sound : l'.Sound L) :
      Settles l L ps durability (.error (.storage e)) l'

omit [ReducibleContract D] in
theorem Sound.flushes {l : Log D S} {L : Ledger V} (h : l.Sound L) (hu : Unfailing S)
    (ps : List P) (durability : Durability) : l.Flushes ps durability := by
  rintro ⟨rs, vs, d, -, -, htaken, -, e, hfails⟩
  have hok := hu.sync (append_ok h.holds htaken)
  rw [hok] at hfails
  cases hfails

omit [ReducibleContract D] [StorageContract S] in
/-- An append that was answered has flushed what it had to. -/
theorem flushes_of_ok {l l' : Log D S} {ps : List P} {durability : Durability} {vs : List V}
    (h : l.append ps durability = (.ok vs, l')) : l.Flushes ps durability := by
  rintro ⟨rs, vs', d, hf, hne, happend, rfl, e, hsync⟩
  have hcases := append_cases l ps .durable
  rw [h] at hcases
  cases hcases with
  | identity hf' =>
      obtain ⟨rfl, -, -⟩ := hf.det hf'
      exact hne rfl
  | written _ _ _ hd => exact hd rfl
  | flushed hf' _ hs _ hs' =>
      obtain ⟨rfl, -, -⟩ := hf.det hf'
      rw [hs] at hsync
      simp [hs'] at hsync

/-- Whatever an append answers, the log stays sound, with the batch or without, and
the watermark tells which. -/
theorem Sound.appends {l : Log D S} {L : Ledger V} (h : l.Sound L) {ps : List P}
    (durability : Durability) (hps : ∀ p ∈ ps, ∃ b, Serde.toVec p = .ok b) :
    ∃ rs, (l.append ps durability).2.Sound (L.push rs) ∧
      (l.append ps durability).2.watermark = l.watermark + rs.length := by
  have hkept : ∀ {l' : Log D S}, Same l'.data l.data → l'.watermark = l.watermark →
      Holds l'.storage L → l'.Sound (L.push []) ∧ l'.watermark = l.watermark + 0 := by
    intro l' hsame hw hholds
    rw [Ledger.push_nil]
    refine ⟨⟨hholds, by rw [same_version hsame, hw, h.version], by rw [hw, h.top], ?_, ?_, ?_⟩, hw⟩
    · rw [hw]
      exact h.fits
    · rw [hw]
      exact h.run
    · rw [hw]
      exact h.counter
  have houtcome := append_outcome ps durability hps h.holds h.version
  generalize (l.append ps durability).1 = o at houtcome
  generalize (l.append ps durability).2 = l' at houtcome
  cases houtcome with
  | rejected _ same watermark holds => exact ⟨[], hkept same watermark holds⟩
  | refused same watermark holds => exact ⟨[], hkept same watermark holds⟩
  | @taken o rs vs l' folds watermark holds _ =>
      have hend := folds.versions.2
      rcases hlast : rs.getLast? with _ | last
      · rw [List.getLast?_eq_none_iff] at hlast
        subst hlast
        have hsame := folds.same_of_nil
        rw [Ledger.push_nil] at holds
        refine ⟨[], hkept hsame ?_ holds⟩
        rw [watermark, same_version hsame, h.version]
      · have hpush : Sound ⟨_, _, _, l'.synced⟩ (L.push rs) := h.push folds hlast holds
        rw [folds.last_version hlast, ← watermark] at hpush
        exact ⟨rs, hpush, by rw [watermark, hend, h.version]⟩

theorem Sound.append {l : Log D S} {L : Ledger V} (h : l.Sound L) {ps : List P}
    {durability : Durability} (hps : ∀ p ∈ ps, ∃ b, Serde.toVec p = .ok b)
    (hflush : l.Flushes ps durability) :
    Settles l L ps durability (l.append ps durability).1 (l.append ps durability).2 := by
  have hcases := append_cases l ps durability
  generalize (l.append ps durability).1 = o at hcases
  generalize (l.append ps durability).2 = l' at hcases
  cases hcases with
  | @stopped e d hfold stops =>
      rw [← h.version] at stops hfold
      obtain ⟨b, hb⟩ := hps _ stops.at_mem
      have hsame := stops.same_of_data hb
      rcases stops.cause with ⟨msg, hmsg, -⟩ | ⟨b', err, -, -, rfl, -⟩
      · rw [hb] at hmsg
        cases hmsg
      · exact .stopped (by rw [hfold]) hsame
  | @identity vs d hf =>
      refine .taken hf ?_ (fun _ r hr => absurd hr List.not_mem_nil)
      rw [Ledger.push_nil]
      exact h.of_same hf.same_of_nil h.holds
  | @refused rs last vs d e s hf hlast hs =>
      have hback := hf.unwind
      rw [h.version] at hback
      have hkeeps := append_error h.holds (by rw [hs])
      rw [hs] at hkeeps
      refine .refused (fun hu => ?_) hback (h.of_same hback hkeeps)
      have hok := hu.append h.holds (h.inOrder hf)
      rw [hs] at hok
      cases hok
  | @written rs last vs d s hf hlast hs hd =>
      have htaken := append_ok h.holds (by rw [hs])
      rw [hs] at htaken
      exact .taken hf (h.push hf hlast htaken) (fun hdurable => absurd hdurable hd)
  | @unflushed rs last vs d s e s' hf hlast hs hd hs' =>
      have hne : rs ≠ [] := by
        rintro rfl
        cases hlast
      exact absurd ⟨rs, vs, d, hf, hne, by rw [hs], hd, e, by rw [hs, hs']⟩ hflush
  | @flushed rs last vs d s s' hf hlast hs hd hs' =>
      have htaken := append_ok h.holds (by rw [hs])
      rw [hs] at htaken
      have hheld := sync_holds htaken
      rw [hs'] at hheld
      refine .taken hf (h.push hf hlast hheld) (fun _ r hr => ?_)
      have hbounds := hf.versions.1.bounds hr
      have hend := hf.versions.2
      have hversion := hf.last_version hlast
      simp only
      omega

/-- An append that fails leaves the log on the history it was on. -/
theorem Sound.append_error {l l' : Log D S} {L : Ledger V} (h : l.Sound L) {ps : List P}
    {durability : Durability} {e : LogError (Reducible.Err D) (Storage.Err S)}
    (hps : ∀ p ∈ ps, ∃ b, Serde.toVec p = .ok b) (hflush : l.Flushes ps durability)
    (hfails : l.append ps durability = (.error e, l')) : l'.Sound L := by
  have hsettles := h.append hps hflush
  rw [hfails] at hsettles
  cases hsettles with
  | stopped _ same => exact h.of_same same h.holds
  | refused _ _ sound => exact sound

end Log

end Lug
