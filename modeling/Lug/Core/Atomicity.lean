import Lug.Core.Append
import Lug.Core.Archive
import Lug.Core.Noop

/-!
`Log::append` is all or nothing on every error path but one: a patch that cannot
be encoded returns before anything is unwound, so the versions minted by the
patches ahead of it stay in memory.
-/

namespace Lug

open Reducible ReducibleContract StorageContract

variable {D S P V : Type} [Versioned V] [Serde P] [Reducible D P V] [Storage S V]

namespace Log

/-- No patch of the batch that cannot be encoded stands behind one that minted a
version. -/
def EncodesFirst (d : D) (ps : List P) : Prop :=
  ∀ before p after rs vs d' msg, ps = before ++ p :: after → Serde.toVec p = .error msg →
    Folds d before rs vs d' → rs = []

/-- A batch whose patches all encode meets the condition. -/
theorem encodesFirst_of_forall {d : D} {ps : List P}
    (h : ∀ p ∈ ps, ∃ b, Serde.toVec p = .ok b) : EncodesFirst d ps := by
  rintro before p after rs vs d' msg rfl hmsg -
  obtain ⟨b, hb⟩ := h p (by simp)
  rw [hb] at hmsg
  cases hmsg

variable [ReducibleContract D] [StorageContract S]

/-- The log nothing happened to: what it shows, what it holds on to, and what it
does with every later batch is what it was. -/
structure Unchanged (l l' : Log D S) : Prop where
  version : version l'.data = l'.watermark
  watermark : l'.watermark = l.watermark
  synced : l'.synced = l.synced
  view : Reducible.view l'.data = Reducible.view l.data
  retained : ∀ v, l'.watermark < v → Reducible.viewAt l'.data v = none
  storage : ∀ L, Holds l.storage L → Holds l'.storage L
  next : ∀ (s : S) (qs : List P) (durability : Durability),
    ({ l' with storage := s }.append qs durability).1 =
        ({ l with storage := s }.append qs durability).1 ∧
      Like ({ l' with storage := s }.append qs durability).2
        ({ l with storage := s }.append qs durability).2

/-- The records stand in storage and in memory, the watermark on the last of
them, and only `synced` is what it was. -/
structure Kept (l l' : Log D S) (ps : List P) (rs : List Record) : Prop where
  memory : ∃ vs, Folds l.data ps rs vs l'.data
  version : version l'.data = l'.watermark
  watermark : rs.getLast?.map Record.version = some l'.watermark
  storage : ∀ L, Holds l.storage L → Holds l'.storage (L.push rs)
  synced : l'.synced = l.synced

/-- What an append that fails owes its caller: everything as before, unless only
the flush failed. -/
def AtomicOnError (l : Log D S) (ps : List P) (durability : Durability) : Prop :=
  ∀ e, (l.append ps durability).1 = .error e →
    (∀ rs, l.FlushFails ps durability rs → Kept l (l.append ps durability).2 ps rs) ∧
    ((¬ ∃ rs, l.FlushFails ps durability rs) → Unchanged l (l.append ps durability).2)

/-- The logs a caller can hold: opened, then driven by operations of which each
append meets the condition. Everything else about them is arbitrary. -/
inductive Reached : Log D S → Prop
  | opened {zero : D} {s : S} {L : Ledger V} {l : Log D S} (holds : Holds s L)
      (h : Log.open zero s = .ok l) : Reached l
  | append {l : Log D S} {ps : List P} (durability : Durability) (hl : Reached l)
      (h : EncodesFirst l.data ps) : Reached (l.append ps durability).2
  | checkpoint {l : Log D S} (hl : Reached l) : Reached l.checkpoint.2
  | sync {l : Log D S} (hl : Reached l) : Reached l.sync.2

/-- Where the batch stops without a version of it left behind, nothing changed. -/
theorem unchanged_of_same {l l' : Log D S} (hversion : version l.data = l.watermark)
    (hsame : Same l'.data l.data) (hw : l'.watermark = l.watermark)
    (hs : l'.synced = l.synced) (hst : ∀ L, Holds l.storage L → Holds l'.storage L) :
    Unchanged l l' where
  version := by rw [same_version hsame, hw, hversion]
  watermark := hw
  synced := hs
  view := same_view hsame
  retained v hv := viewAt_above (by rw [same_version hsame, hversion, ← hw]; exact hv)
  storage := hst
  next s qs durability := by
    have hlike : Like { l' with storage := s } { l with storage := s } := ⟨hsame, rfl, hw, hs⟩
    exact hlike.append qs durability

omit [ReducibleContract D] [StorageContract S] in
theorem Stops.codec_iff {base : ℕ} {d d' : D} {ps : List P}
    {e : LogError (Reducible.Err D) (Storage.Err S)} (h : Stops base d ps e d') :
    (∃ msg, Serde.toVec h.at_ = .error msg) ↔ ∃ msg, e = .codec msg := by
  rcases h.cause with ⟨msg, hmsg, he, -⟩ | ⟨b, err, hb, -, he, -⟩
  · exact ⟨fun _ => ⟨msg, he⟩, fun _ => ⟨msg, hmsg⟩⟩
  · simp [hb, he]

omit [StorageContract S] in
/-- A batch that meets the condition and stops leaves the structure as it was. -/
theorem Stops.same {d d' : D} {ps : List P}
    {e : LogError (Reducible.Err D) (Storage.Err S)} (h : Stops (version d) d ps e d')
    (hps : EncodesFirst d ps) : Same d' d := by
  rcases h.cause with ⟨msg, hmsg, -, hd'⟩ | ⟨b, err, hb, -, -, -⟩
  · have hnil : h.records = [] := hps _ _ _ _ _ _ _ h.split hmsg h.folds
    rw [hd']
    exact Folds.same_of_nil (hnil ▸ h.folds)
  · exact h.same_of_data hb

theorem Reached.version_eq {l : Log D S} (hl : l.Reached) : version l.data = l.watermark := by
  induction hl with
  | opened holds h => exact (open_data h).1
  | @append l ps durability hl h ih =>
      generalize ho : (l.append ps durability).1 = o
      generalize hl' : (l.append ps durability).2 = l'
      have hcases := append_cases l ps durability
      rw [ho, hl'] at hcases
      cases hcases with
      | stopped _ stops =>
          rw [← ih] at stops
          exact (same_version (stops.same h)).trans ih
      | identity hf => exact (same_version hf.same_of_nil).trans ih
      | refused hf hlast hs =>
          have hback := hf.unwind
          rw [ih] at hback
          exact (same_version hback).trans ih
      | written hf hlast => exact (hf.last_version hlast).symm
      | unflushed hf hlast => exact (hf.last_version hlast).symm
      | flushed hf hlast => exact (hf.last_version hlast).symm
  | @checkpoint l hl ih =>
      unfold Log.checkpoint
      split
      · exact ih
      split <;> exact ih
  | @sync l hl ih =>
      unfold Log.sync
      split <;> exact ih

omit [ReducibleContract D] [StorageContract S] in
/-- The loop up to a patch that cannot be encoded. -/
theorem fold_codec {d d' : D} {before after : List P} {p : P} {rs : List Record}
    {vs : List V} {msg : String} (h : Folds d before rs vs d')
    (hmsg : Serde.toVec p = .error msg) (base : ℕ) (rs₀ : List Record) (vs₀ : List V) :
    fold (S := S) base d (before ++ p :: after) rs₀ vs₀ = (.error (.codec msg), d') := by
  induction h generalizing rs₀ vs₀ with
  | nil d => simp [fold_cons, hmsg]
  | mint encoded applied _ ih => simp [fold_cons, encoded, applied, ih]
  | identity encoded applied _ ih => simp [fold_cons, encoded, applied, ih]

omit [ReducibleContract D] [StorageContract S] in
/-- A batch that stops does not fold. -/
theorem Stops.not_folds {base : ℕ} {d d' d'' : D} {ps : List P} {rs : List Record}
    {vs : List V} {e : LogError (Reducible.Err D) (Storage.Err S)}
    (h : Stops base d ps e d') : ¬ Folds d ps rs vs d'' := by
  intro hf
  rw [h.split] at hf
  obtain ⟨rs₁, rs₂, vs₁, vs₂, d₁, h₁, h₂, -, -⟩ := hf.split
  obtain ⟨-, -, rfl⟩ := h.folds.det h₁
  rcases h.cause with ⟨msg, hmsg, -⟩ | ⟨b, err, -, happly, -⟩
  · cases h₂ with
    | mint encoded => simp [hmsg] at encoded
    | identity encoded => simp [hmsg] at encoded
  · cases h₂ with
    | mint _ applied => simp [applied] at happly
    | identity _ applied => simp [applied] at happly

/-- An append that breaks the condition answers a codec error over a structure
that has moved ahead of the watermark. -/
theorem not_atomic_of_minted {l : Log D S} (hversion : version l.data = l.watermark)
    {before after : List P} {p : P} {rs : List Record} {vs : List V} {d : D} {msg : String}
    (hfolds : Folds l.data before rs vs d) (hmsg : Serde.toVec p = .error msg) (hne : rs ≠ [])
    (durability : Durability) : ¬ l.AtomicOnError (before ++ p :: after) durability := by
  intro hatomic
  have hstop : fold (S := S) l.watermark l.data (before ++ p :: after) [] [] =
      (.error (.codec msg), d) := fold_codec hfolds hmsg l.watermark [] []
  have happend : l.append (before ++ p :: after) durability =
      (.error (.codec msg), { l with data := d }) := by
    simp [Log.append, hstop]
  have hflush : ¬ ∃ rs', l.FlushFails (before ++ p :: after) durability rs' := by
    rintro ⟨rs', vs', d', hf, -⟩
    have hok := fold_of_folds (S := S) hf l.watermark [] []
    rw [hstop] at hok
    cases hok
  have hunchanged := (hatomic (.codec msg) (by rw [happend])).2 hflush
  rw [happend] at hunchanged
  have hlen : version d = version l.data + rs.length := hfolds.versions.2
  have hsame : version d = l.watermark := hunchanged.version
  have hpos : 0 < rs.length := List.length_pos_iff.mpr hne
  omega

/-- An append is atomic on its error paths exactly when no patch that cannot be
encoded stands behind one that minted a version. -/
theorem append_atomic_iff {l : Log D S} (hl : l.Reached) (ps : List P)
    (durability : Durability) :
    l.AtomicOnError ps durability ↔ EncodesFirst l.data ps := by
  have hversion := hl.version_eq
  constructor
  · rintro hatomic before p after rs vs d msg rfl hmsg hfolds
    by_contra hne
    exact not_atomic_of_minted hversion hfolds hmsg hne durability hatomic
  · intro hps e he
    generalize hl' : (l.append ps durability).2 = l'
    have hcases := append_cases l ps durability
    rw [he, hl'] at hcases
    cases hcases with
    | stopped _ stops =>
        constructor
        · rintro rs ⟨vs, d, hf, -⟩
          exact absurd hf stops.not_folds
        · intro _
          rw [← hversion] at stops
          exact unchanged_of_same hversion (stops.same hps) rfl rfl (fun L hL => hL)
    | refused hf hlast hs =>
        constructor
        · rintro rs ⟨vs, d, hf', -, hok, -⟩
          obtain ⟨rfl, -, -⟩ := hf.det hf'
          simp [hs] at hok
        · intro _
          have hback := hf.unwind
          rw [hversion] at hback
          refine unchanged_of_same hversion hback rfl rfl (fun L hL => ?_)
          have hkeeps := append_error hL (by rw [hs])
          rwa [hs] at hkeeps
    | @unflushed rs last vs d s e s' hf hlast hs hd hs' =>
        have hne : rs ≠ [] := by
          rintro rfl
          cases hlast
        constructor
        · rintro rs' ⟨vs', d', hf', -⟩
          obtain ⟨rfl, -, -⟩ := hf.det hf'
          refine ⟨⟨vs, hf⟩, (hf.last_version hlast).symm, by simp [hlast], fun L hL => ?_, rfl⟩
          have htaken := append_ok hL (by rw [hs])
          rw [hs] at htaken
          have hheld := sync_holds htaken
          rwa [hs'] at hheld
        · intro hno
          exact absurd ⟨rs, vs, d, hf, hne, by rw [hs], hd, e, by rw [hs, hs']⟩ hno

/-- A patch holding a map, which serializes when the keys are strings and not
when they are tuples. -/
inductive Keyed
  | byName
  | byTuple
  deriving DecidableEq, Repr

instance : Serde Keyed where
  toVec
    | .byName => .ok "{}".toUTF8.toList
    | .byTuple => .error "key must be a string"
  fromSlice bytes := if bytes = "{}".toUTF8.toList then .ok .byName else .error "not a map"
  fromValue
    | .object [] => .ok .byName
    | _ => .error "not a map"

/-- The log an empty archive opens. -/
def fresh : Log (Counting Keyed) (Archive Tick true) := ⟨⟨0⟩, Archive.empty, 0, 0⟩

theorem fresh_reached : fresh.Reached := by
  have hopen : Log.open (⟨0⟩ : Counting Keyed) (Archive.empty : Archive Tick true) = .ok fresh := rfl
  exact .opened (Archive.holds_new [] []) hopen

/-- The first patch mints version 1; the second cannot be encoded, and the error
leaves the structure one version ahead of the watermark. -/
theorem append_leaves_minted : fresh.Reached ∧
    ¬ fresh.AtomicOnError [Keyed.byName, Keyed.byTuple] .written := by
  have hfolds : Folds fresh.data [Keyed.byName] [⟨1, "{}".toUTF8.toList⟩] [⟨1⟩] ⟨1⟩ :=
    .mint rfl rfl (.nil _)
  exact ⟨fresh_reached, not_atomic_of_minted rfl hfolds rfl (by simp) .written⟩

/-- With the patch that cannot be encoded in front, nothing is left behind. -/
theorem append_atomic_byTuple : fresh.AtomicOnError [Keyed.byTuple, Keyed.byName] .durable := by
  refine (append_atomic_iff fresh_reached _ _).mpr ?_
  intro before p after rs vs d msg hsplit hmsg hfolds
  cases before with
  | nil =>
      cases hfolds
      rfl
  | cons q before =>
      rw [List.cons_append, List.cons.injEq] at hsplit
      obtain ⟨rfl, -⟩ := hsplit
      cases hfolds with
      | mint encoded => cases encoded
      | identity encoded => cases encoded

end Log

end Lug
