import Lug.Cavlc.Reopen
import Lug.Server.Delivery

/-!
A reducible-mode subscription: a view first, then the records after it. Behind
its preamble the stream is a records-mode one whose cursor is the version of the
view, or the client's own number where that is higher.
-/

namespace Lug

open Reducible ReducibleContract StorageContract Runs

section

variable {D S P V ι : Type} [TextCodec] [Versioned V] [Serde P] [Reducible D P V] [Storage S V]

namespace Stream

/-- What a stream that is past its preamble knows of where it stands. -/
def Placed (from_ watermark : ℕ) (t : Stream) : Prop :=
  match t.phase with
  | .opening => False
  | .reading _ => t.cursor < watermark
  | .awaiting after limit => after = t.cursor ∧ t.cursor < watermark ∧ 0 < limit
  | .sending frame cursor _ => Covers from_ (t.sent ++ [frame]) cursor
  | _ => True

/-- The frames of the stream cover the versions from a cursor on. -/
structure Resumed (from_ watermark : ℕ) (t : Stream) : Prop where
  covers : Covers from_ t.sent t.cursor
  placed : t.Placed from_ watermark

omit [TextCodec] in
theorem Resumed.mono {from_ watermark watermark' : ℕ} {t : Stream}
    (h : t.Resumed from_ watermark) (hw : watermark ≤ watermark') : t.Resumed from_ watermark' := by
  refine ⟨h.covers, ?_⟩
  have hplaced := h.placed
  unfold Placed at hplaced ⊢
  split at hplaced
  all_goals first | exact hplaced | skip
  · exact hplaced.trans_le hw
  · exact ⟨hplaced.1, hplaced.2.1.trans_le hw, hplaced.2.2⟩

omit [TextCodec] in
/-- Records that start right after the cursor are taken in hand. -/
theorem Resumed.push {from_ watermark : ℕ} {t : Stream} (h : t.Resumed from_ watermark)
    {es : List Entry} (hne : es ≠ []) (hrun : Consecutive Entry.version (t.cursor + 1) es) :
    (t.push es).Resumed from_ watermark := by
  obtain ⟨last, hlast⟩ : ∃ last, es.getLast? = some last :=
    ⟨es.getLast hne, List.getLast?_eq_some_getLast hne⟩
  have hversion := hrun.last_eq hlast
  have hpushed : Consecutive Pushed.version (t.cursor + 1) (es.map Entry.pushed) := by
    rw [consecutive_iff_map] at hrun ⊢
    simpa [Function.comp_def, Entry.pushed] using hrun
  have hcovers := Covers.records h.covers (by simpa using hne) hpushed
  rw [List.length_map, show t.cursor + es.length = last.version by omega] at hcovers
  refine ⟨h.covers, ?_⟩
  simpa [Placed, Stream.push, hlast] using hcovers

variable [StorageContract S]

omit [TextCodec] in
theorem Resumed.step {from_ : ℕ} {t : Stream} {a : Actor D S} {p : Publishing} {L : Ledger V}
    (h : t.Resumed from_ a.shared.watermark) (ha : a.Inv (P := P) p L) (limits : Limits)
    (granted : ℕ) : (t.step limits a.shared granted).Resumed from_ a.shared.watermark := by
  have hplaced := h.placed
  unfold Stream.step
  cases hphase : t.phase with
  | opening => exact h
  | awaiting after limit => exact h
  | ended => exact h
  | start =>
      simp only
      split
      · exact ⟨h.covers, trivial⟩
      · exact ⟨h.covers, trivial⟩
  | parkedCredit g => exact ⟨h.covers, trivial⟩
  | parkedWatermark w => exact ⟨h.covers, trivial⟩
  | parkedEmpty => exact ⟨h.covers, trivial⟩
  | credited g =>
      simp only
      split
      · exact ⟨h.covers, trivial⟩
      · rename_i hbelow
        exact ⟨h.covers, not_le.mp hbelow⟩
  | reading g =>
      simp only [Placed, hphase] at hplaced
      simp only
      split
      · rename_i entry entries hread
        have hpublished := ha.published
        have hcounter := ha.sound.counter
        have hfits := ha.fits
        have hring := (consecutive_append.mp ha.run).1
        exact h.push (by simp)
          (Ring.readAfter_consecutive hring (by omega) (by omega) hread (by simp)).1
      · exact ⟨h.covers, rfl, hplaced, lt_max_of_lt_right one_pos⟩
  | sending frame cursor last =>
      simp only [Placed, hphase] at hplaced
      refine ⟨hplaced, ?_⟩
      cases last <;> trivial

/-- Whatever the actor answers to a catch-up continues from the cursor. -/
theorem Resumed.caughtUp {from_ : ℕ} {t : Stream} {a : Actor D S} {L : Ledger V}
    (h : t.Resumed from_ a.shared.watermark) (ha : a.Inv (P := P) .idle L) {after limit : ℕ}
    (hphase : t.phase = .awaiting after limit) :
    (t.caughtUp (a.catchUp after limit)).Resumed from_ a.shared.watermark := by
  have hplaced := h.placed
  simp only [Placed, hphase] at hplaced
  obtain ⟨rfl, hbelow, hlimit⟩ := hplaced
  have hgap : ∀ u, t.cursor < u →
      (t.caughtUp (.ok (.gap u))).Resumed from_ a.shared.watermark :=
    fun u habove => ⟨h.covers, Covers.gap h.covers habove⟩
  by_cases hreclaimed : succ64 t.cursor < a.log.oldest
  · have hpublished := ha.published
    have hcounter := ha.sound.counter
    have hsucc : succ64 t.cursor = t.cursor + 1 := by
      simp only [succ64, versionMax] at hcounter ⊢
      omega
    have hanswer : a.catchUp t.cursor limit = .ok (.gap (a.log.oldest - 1)) := by
      rw [Actor.catchUp, if_pos hreclaimed]
    rw [hanswer]
    exact hgap _ (by omega)
  · have hserves := catchUp_serves ha hbelow hlimit fun hlt => absurd hlt hreclaimed
    generalize a.catchUp t.cursor limit = r at hserves
    cases hserves with
    | error => exact ⟨h.covers, Covers.error h.covers⟩
    | @records es nonempty run _ _ =>
        cases es with
        | nil => exact absurd rfl nonempty
        | cons e es => exact h.push nonempty run
    | gap above _ => exact hgap _ above

omit [TextCodec] in
/-- The steps of a stream do not depend on what it has sent. -/
theorem step_behind (t : Stream) (before : List Frame) (limits : Limits) (shared : Shared)
    (granted : ℕ) : ({ t with sent := before ++ t.sent } : Stream).step limits shared granted =
      { t.step limits shared granted with
        sent := before ++ (t.step limits shared granted).sent } := by
  unfold Stream.step
  cases hphase : t.phase with
  | start =>
      simp only
      split <;> rfl
  | credited g =>
      simp only
      split <;> rfl
  | reading g =>
      simp only
      split <;> rfl
  | sending frame cursor last => simp
  | _ => simp [hphase]

omit [TextCodec] in
theorem caughtUp_behind (t : Stream) (before : List Frame) (r : Except Failure CatchUp) :
    ({ t with sent := before ++ t.sent } : Stream).caughtUp r =
      { t.caughtUp r with sent := before ++ (t.caughtUp r).sent } := by
  unfold Stream.caughtUp
  split <;> rfl

/-- A reducible-mode stream before, with and behind its preamble. -/
inductive Opened (from_ watermark : ℕ) (t : Stream) : Prop
  | opening (sent : t.sent = []) (cursor : t.cursor = from_)
      (phase : t.phase = .opening ∨ t.phase = .ended ∨
        (∃ f c, t.phase = .sending (.error f) c true) ∨
        ∃ v value, t.phase = .sending (.view v value) (max from_ v) false)
  | failed (f) (sent : t.sent = [.error f]) (phase : t.phase = .ended)
  | viewed (v value) (u : Stream) (stream : t = { u with sent := .view v value :: u.sent })
      (resumed : u.Resumed (max from_ v) watermark)

omit [TextCodec] in
theorem Opened.mono {from_ watermark watermark' : ℕ} {t : Stream}
    (h : t.Opened from_ watermark) (hw : watermark ≤ watermark') : t.Opened from_ watermark' := by
  cases h with
  | opening sent cursor phase => exact .opening sent cursor phase
  | failed f sent phase => exact .failed f sent phase
  | viewed v value u stream resumed => exact .viewed v value u stream (resumed.mono hw)

omit [TextCodec] in
theorem Opened.step {from_ : ℕ} {t : Stream} {a : Actor D S} {p : Publishing} {L : Ledger V}
    (h : t.Opened from_ a.shared.watermark) (ha : a.Inv (P := P) p L) (limits : Limits)
    (granted : ℕ) : (t.step limits a.shared granted).Opened from_ a.shared.watermark := by
  cases h with
  | opening sent cursor phase =>
      rcases phase with hphase | hphase | ⟨f, c, hphase⟩ | ⟨v, value, hphase⟩
      · rw [Stream.step, hphase]
        exact .opening sent cursor (.inl hphase)
      · rw [Stream.step, hphase]
        exact .opening sent cursor (.inr (.inl hphase))
      · rw [Stream.step, hphase]
        exact .failed f (by simp [sent]) rfl
      · rw [Stream.step, hphase]
        exact .viewed v value ⟨max from_ v, t.used, .start, []⟩ (by simp [sent])
          ⟨.nil, trivial⟩
  | failed f sent phase =>
      rw [Stream.step, phase]
      exact .failed f sent phase
  | viewed v value u stream resumed =>
      subst stream
      exact .viewed v value _ (u.step_behind [.view v value] limits a.shared granted)
        (resumed.step ha limits granted)

theorem Opened.caughtUp {from_ : ℕ} {t : Stream} {a : Actor D S} {L : Ledger V}
    (h : t.Opened from_ a.shared.watermark) (ha : a.Inv (P := P) .idle L) {after limit : ℕ}
    (hphase : t.phase = .awaiting after limit) :
    (t.caughtUp (a.catchUp after limit)).Opened from_ a.shared.watermark := by
  cases h with
  | opening sent cursor phase => simp [hphase] at phase
  | failed f sent phase => simp [hphase] at phase
  | viewed v value u stream resumed =>
      subst stream
      exact .viewed v value _ (u.caughtUp_behind [.view v value] _) (resumed.caughtUp ha hphase)

end Stream

namespace System

/-- An actor that just started on a log, and a subscription in this mode. -/
def subscribed (log : Log D S) (capacity batch checkpointEvery : ℕ) (metrics : Metrics)
    (from_ : ℕ) (mode : Mode) (credit : UInt32) : System D S where
  actor := Actor.new log ⟨Ring.new capacity, 0, 0, metrics⟩ batch checkpointEvery
  publishing := .idle
  granted := credit.toNat
  stream := Stream.new from_ mode

/-- The actor comes to rest with everything published that it recorded: no flush
failed behind a write. -/
def Steady (s t : System D S) : Prop :=
  t.publishing = .idle → t.actor.log.watermark = s.actor.log.watermark

/-- Any interleaving of steady steps. -/
def Runs (ι : Type) (limits : Limits) : System D S → System D S → Prop :=
  Relation.ReflTransGen fun s t => Step ι limits (fun _ => True) s t ∧ Steady s t

variable [StorageContract S] [ReducibleContract D] [LawfulSerde P]

theorem opened_step {limits : Limits} {from_ : ℕ} {s t : System D S} {L : Ledger V}
    (ha : s.actor.Inv (P := P) s.publishing L)
    (hs : s.stream.Opened from_ s.actor.shared.watermark)
    (hstep : Step ι limits (fun _ => True) s t) (hsteady : Steady s t) :
    ∃ L', t.actor.Inv (P := P) t.publishing L' ∧
      t.stream.Opened from_ t.actor.shared.watermark := by
  cases hstep with
  | actor hmove =>
      obtain ⟨L', hactor, hlater⟩ := Actor.moves_steady ha hmove hsteady
      exact ⟨L', hactor, hs.mono hlater.published⟩
  | grant credit => exact ⟨L, ha, hs⟩
  | stream => exact ⟨L, ha, hs.step ha limits s.granted⟩
  | view idle asked =>
      refine ⟨L, ha, ?_⟩
      cases hs with
      | opening sent cursor phase =>
          have hview : s.actor.view none = .ok (Versioned.version s.actor.log.view.view,
            Versioned.state s.actor.log.view.view) := rfl
          rw [hview]
          refine .opening sent cursor (.inr (.inr (.inr ⟨Versioned.version s.actor.log.view.view,
            Versioned.state s.actor.log.view.view, ?_⟩)))
          simp [Stream.viewed, cursor]
      | failed f sent phase => simp [asked] at phase
      | viewed v value u stream resumed =>
          have hplaced := resumed.placed
          rw [stream] at asked
          simp only at asked
          simp [Stream.Placed, asked] at hplaced
  | catchUp idle asked _ =>
      refine ⟨L, ha, ?_⟩
      rw [idle] at ha
      exact hs.caughtUp ha asked
  | hangUp =>
      refine ⟨L, ha, ?_⟩
      cases hs with
      | opening sent cursor phase => exact .opening sent cursor (.inr (.inl rfl))
      | failed f sent phase => exact .failed f sent rfl
      | viewed v value u stream resumed =>
          exact .viewed v value { u with phase := .ended } (by rw [stream])
            ⟨resumed.covers, trivial⟩

theorem opened_run {log : Log D S} {L : Ledger V} (h : log.Sound L)
    (capacity batch checkpointEvery : ℕ) (metrics : Metrics) (limits : Limits) (from_ : ℕ)
    (credit : UInt32) {s : System D S}
    (hrun : Runs ι limits
      (subscribed log capacity batch checkpointEvery metrics from_ .reducible credit) s) :
    s.stream.Opened from_ s.actor.shared.watermark := by
  have hinv : ∃ L', s.actor.Inv (P := P) s.publishing L' ∧
      s.stream.Opened from_ s.actor.shared.watermark := by
    induction hrun with
    | refl =>
        exact ⟨L, ⟨h, Nat.zero_le _, trivial, fun e he => absurd he List.not_mem_nil, le_rfl⟩,
          .opening rfl rfl (.inl rfl)⟩
    | tail _ hstep ih =>
        obtain ⟨L', ha, hs⟩ := ih
        exact opened_step ha hs hstep.1 hstep.2
  exact hinv.choose_spec.2

end System

/-- A frame that goes on right after this version. -/
def Frame.Resumes (v : ℕ) : Frame → Prop
  | .records rs => rs.head?.map Pushed.version = some (v + 1)
  | .gap from_ _ => from_ = v
  | .view _ _ | .error _ => False

/-- Records or a gap, which is what a view is followed by while the stream lives. -/
def Frame.isData : Frame → Bool
  | .records _ | .gap _ _ => true
  | .view _ _ | .error _ => false

end

/-- The first frame of a cover goes on right after where the cover starts. -/
theorem Covers.head {n m : ℕ} {frames : List Frame} (h : Covers n frames m) {frame : Frame}
    (hhead : frames.head? = some frame) (hdata : frame.isData) {v : ℕ} :
    frame.Resumes v ↔ n = v := by
  have hlast : ∀ {fs m f}, Covers n fs m → (fs ++ [f]).head? = some frame →
      fs.head? = some frame ∨ m = n ∧ f = frame := by
    intro fs m f hfs hframe
    cases fs with
    | nil =>
        have hm : m = n := by
          generalize hnil : ([] : List Frame) = fs at hfs
          cases hfs with
          | nil => rfl
          | _ => simp at hnil
        exact .inr ⟨hm, by simpa using hframe⟩
    | cons g fs => exact .inl (by simpa using hframe)
  induction h with
  | nil => cases hhead
  | @records fs m rs hfs nonempty run ih =>
      obtain hold | ⟨rfl, rfl⟩ := hlast hfs hhead
      · exact ih hold
      · cases rs with
        | nil => exact absurd rfl nonempty
        | cons r rs => simp [Frame.Resumes, run.1]
  | gap hfs above ih =>
      obtain hold | ⟨rfl, rfl⟩ := hlast hfs hhead
      · exact ih hold
      · exact Iff.rfl
  | error hfs ih =>
      obtain hold | ⟨-, rfl⟩ := hlast hfs hhead
      · exact ih hold
      · cases hdata

namespace System

variable {D S P V ι : Type} [TextCodec] [Versioned V] [Serde P] [Reducible D P V] [Storage S V]
  [StorageContract S] [ReducibleContract D] [LawfulSerde P]

/-- The first data frame goes on right after the view it stands behind. -/
def ResumesAfterView (s : System D S) : Prop :=
  ∀ v value frames frame, s.stream.sent = .view v value :: frames →
    frames.head? = some frame → frame.isData → frame.Resumes v

/-- In every interleaving a reducible stream that has pushed anything goes on right
after its view exactly when the client asked from there or below, and then nothing
is skipped later either. -/
theorem resumes_iff_behind {log : Log D S} {L : Ledger V} (h : log.Sound L)
    (capacity batch checkpointEvery : ℕ) (metrics : Metrics) (limits : Limits) (from_ : ℕ)
    (credit : UInt32) {s : System D S}
    (hrun : Runs ι limits
      (subscribed log capacity batch checkpointEvery metrics from_ .reducible credit) s)
    {v : ℕ} {value : Json} {frames : List Frame}
    (hsent : s.stream.sent = .view v value :: frames) :
    (∀ frame, frames.head? = some frame → frame.isData →
      (s.ResumesAfterView ↔ from_ ≤ v)) ∧ (from_ ≤ v → Covers v frames s.stream.cursor) := by
  have hopened := opened_run h capacity batch checkpointEvery metrics limits from_ credit hrun
  have hcovers : Covers (max from_ v) frames s.stream.cursor := by
    cases hopened with
    | opening sent _ _ => simp [sent] at hsent
    | failed f sent _ => simp [sent] at hsent
    | viewed w value' u stream resumed =>
        rw [stream] at hsent ⊢
        simp only [List.cons.injEq, Frame.view.injEq] at hsent
        obtain ⟨⟨rfl, -⟩, rfl⟩ := hsent
        exact resumed.covers
  constructor
  · intro frame hhead hdata
    have hresumes : s.ResumesAfterView ↔ frame.Resumes v := by
      refine ⟨fun hall => hall v value frames frame hsent hhead hdata, ?_⟩
      intro hframe v' value' frames' frame' hsent' hhead' _
      rw [hsent] at hsent'
      cases hsent'
      rw [hhead] at hhead'
      cases hhead'
      exact hframe
    rw [hresumes, hcovers.head hhead hdata, max_eq_right_iff]
  · intro hle
    rwa [max_eq_right hle] at hcovers

end System

section

attribute [local instance] codec

open Cavlc

/-- A patch that creates one field, and the document it arrives as. -/
def createField (key : String) : OrderedPatch where
  patch := .mk [(key, Value.ofJson .null)] [] []
  ordered := ⟨by simp [SortedMap.Sorted], SortedMap.sorted_nil, trivial⟩

def createJson (key : String) : Json := .object [("Create", .object [(key, .null)])]

/-- Two patches in one request. -/
def createTwo : Job OrderedPatch ℕ :=
  ⟨[createJson "a", createJson "b"], [createField "a", createField "b"], .written, 0⟩

theorem createTwo_decoded : ∀ job ∈ [createTwo], job.Decoded := by
  intro job hjob
  obtain rfl := List.mem_singleton.mp hjob
  rfl

/-- A store that is empty, and a client that asks from version `from_` on. -/
def asksFrom (from_ : ℕ) : System Store (Archive Snapshot false) :=
  System.subscribed emptyLog 4 8 0 ⟨0, 0, 0⟩ from_ .reducible 10

/-- The view shows version 0, and the first record behind it is version 2. -/
theorem jumps_over_one : ∃ s, System.Runs ℕ ⟨8, 1024⟩ (asksFrom 1) s ∧
    s.stream.sent = [.view 0 (.object []), .records [⟨2, createJson "b"⟩]] ∧
    ¬ s.ResumesAfterView := by
  refine ⟨_, (((((((((Relation.ReflTransGen.refl.tail
    ⟨.view rfl rfl, fun _ => rfl⟩).tail
    ⟨.stream, fun _ => rfl⟩).tail
    ⟨.actor (.append ⟨0, 0, 0⟩ createTwo_decoded rfl), nofun⟩).tail
    ⟨.actor (.push (List.cons_ne_nil _ _)), nofun⟩).tail
    ⟨.actor .announce, nofun⟩).tail
    ⟨.stream, nofun⟩).tail ⟨.stream, nofun⟩).tail ⟨.stream, nofun⟩).tail ⟨.stream, nofun⟩),
    rfl, fun hresumes => ?_⟩
  have hframe := hresumes 0 (.object []) _ _ rfl rfl rfl
  cases hframe

/-- Asked from version 0, the same run goes on where its view ends. -/
theorem resumes_from_zero : ∃ s : System Store (Archive Snapshot false),
    s.stream.sent.length = 2 ∧ s.ResumesAfterView := by
  obtain ⟨s, hrun, hsent⟩ : ∃ s, System.Runs ℕ ⟨8, 1024⟩ (asksFrom 0) s ∧ s.stream.sent =
      [.view 0 (.object []), .records [⟨1, createJson "a"⟩, ⟨2, createJson "b"⟩]] :=
    ⟨_, (((((((((Relation.ReflTransGen.refl.tail
      ⟨.view rfl rfl, fun _ => rfl⟩).tail
      ⟨.stream, fun _ => rfl⟩).tail
      ⟨.actor (.append ⟨0, 0, 0⟩ createTwo_decoded rfl), nofun⟩).tail
      ⟨.actor (.push (List.cons_ne_nil _ _)), nofun⟩).tail
      ⟨.actor .announce, nofun⟩).tail
      ⟨.stream, nofun⟩).tail ⟨.stream, nofun⟩).tail ⟨.stream, nofun⟩).tail ⟨.stream, nofun⟩), rfl⟩
  refine ⟨s, by rw [hsent]; rfl, ?_⟩
  have hiff := (System.resumes_iff_behind emptyLog_sound 4 8 0 ⟨0, 0, 0⟩ ⟨8, 1024⟩ 0 10 hrun
    hsent).1 _ rfl rfl
  exact hiff.mpr le_rfl

end

end Lug
