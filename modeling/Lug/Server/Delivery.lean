import Lug.Server.Guarantees
import Lug.Server.Interleaving

/-!
What a records-mode subscription delivers: frames that cover the versions after
`from` without a hole, whatever the actor does in between. The invariant says
that the frames cover up to the cursor, and what a stream between two steps
still knows of what it read.
-/

namespace Lug

open Reducible ReducibleContract StorageContract Runs

section

variable {D S P V ι : Type} [TextCodec] [Versioned V] [Serde P] [Reducible D P V] [Storage S V]

/-- The frames cover `(n, m]`: every records frame starts right after what was
covered before it, every gap starts there and ends above it. -/
inductive Covers (n : ℕ) : List Frame → ℕ → Prop
  | nil : Covers n [] n
  | records {fs m rs} (h : Covers n fs m) (nonempty : rs ≠ [])
      (run : Consecutive Pushed.version (m + 1) rs) :
      Covers n (fs ++ [.records rs]) (m + rs.length)
  | gap {fs m t} (h : Covers n fs m) (above : m < t) : Covers n (fs ++ [.gap m t]) t
  | error {fs m f} (h : Covers n fs m) : Covers n (fs ++ [.error f]) m

/-- The records a frame carries, which is what it costs. -/
def Frame.pushed : Frame → List Pushed
  | .records rs => rs
  | _ => []

/-- The frames a stream has sent, and the one in its hands. -/
def Stream.issued (s : Stream) : List Frame :=
  match s.phase with
  | .sending frame _ _ => s.sent ++ [frame]
  | _ => s.sent

/-- A pushed record is a committed one, out of the ring or out of storage. -/
def Pushed.Commits (P : Type) [Serde P] (p : Pushed) (r : Record) : Prop :=
  p.version = r.version ∧
    ((∃ q : P, Serde.fromValue p.patch = .ok q ∧ Serde.toVec q = .ok r.patch) ∨
      TextCodec.fromSlice r.patch = .ok p.patch)

/-- What a subscription from `from_` owes its client, over a history `L`. -/
structure Delivered (from_ : ℕ) (L : Ledger V) (s : System D S) : Prop where
  covers : Covers from_ s.stream.sent s.stream.cursor
  committed : ∀ frame ∈ s.stream.sent, ∀ p ∈ frame.pushed, ∃ r ∈ L.taken, p.Commits P r
  credit : (s.stream.sent.flatMap Frame.pushed).length ≤ s.granted
  gaps : ∀ m t, .gap m t ∈ s.stream.sent → ∀ v, m < v → v ≤ t → ¬ s.actor.Readable v
  parkedCredit : ∀ granted, s.stream.phase = .parkedCredit granted →
    granted ≤ (s.stream.sent.flatMap Frame.pushed).length
  parkedWatermark : ∀ w, s.stream.phase = .parkedWatermark w → w ≤ s.stream.cursor
  not_parkedEmpty : s.stream.phase ≠ .parkedEmpty

/-- Where the actor answers a catch-up from below the storage's floor, the ring
holds nothing below that floor either. -/
def System.GapsClear (s : System D S) : Prop :=
  ∀ after limit, s.stream.phase = .awaiting after limit → succ64 after < s.actor.log.oldest →
    ∀ e ∈ s.actor.shared.ring.entries, s.actor.log.oldest ≤ e.version

/-! ### What the actor answers -/

section Answer

theorem entriesOf_spec {records : List Record} {entries : List Entry}
    (h : Actor.entriesOf records = .ok entries) :
    List.Forall₂ (fun e r => e.version = r.version ∧ TextCodec.fromSlice r.patch = .ok e.patch)
      entries records := by
  induction records generalizing entries with
  | nil =>
      cases h
      exact .nil
  | cons record records ih =>
      rw [Actor.entriesOf] at h
      split at h
      · cases h
      · rename_i patch hpatch
        split at h
        · cases h
        · rename_i rest hrest
          cases h
          exact .cons ⟨rfl, hpatch⟩ (ih hrest)

variable [StorageContract S]

/-- What an answer to a catch-up from `after` is good for. -/
inductive CatchUp.Serves (P : Type) [Serde P] (a : Actor D S) (L : Ledger V) (after limit : ℕ) :
    Except Failure CatchUp → Prop
  | error {f} : Serves P a L after limit (.error f)
  | records {es} (nonempty : es ≠ []) (run : Consecutive Entry.version (after + 1) es)
      (bound : es.length ≤ limit)
      (committed : ∀ e ∈ es, ∃ r ∈ L.taken, e.pushed.Commits P r) :
      Serves P a L after limit (.ok (.records es))
  | gap {t} (above : after < t) (gone : a.Gone .idle L after t) :
      Serves P a L after limit (.ok (.gap t))

/-- Below the watermark a catch-up is served with records, or with a gap up to
the floor of the storage. -/
theorem catchUp_serves {a : Actor D S} {L : Ledger V} (h : a.Inv (P := P) .idle L)
    {after limit : ℕ} (hafter : after < a.shared.watermark) (hlimit : 0 < limit)
    (hclear : succ64 after < a.log.oldest → ∀ e ∈ a.shared.ring.entries, a.log.oldest ≤ e.version) :
    CatchUp.Serves P a L after limit (a.catchUp after limit) := by
  have hbelow : after < a.log.watermark := hafter.trans_le h.published
  have hcounter := h.sound.counter
  have hsucc : succ64 after = after + 1 := by
    simp only [succ64, versionMax] at hcounter ⊢
    omega
  have hfloor : a.log.oldest ≤ a.log.watermark + 1 := by
    rw [← h.sound.top]
    exact oldest_le h.sound.holds
  unfold Actor.catchUp
  simp only
  split
  · rename_i hreclaimed
    have hring := hclear hreclaimed
    rw [hsucc] at hreclaimed
    refine .gap (by omega) ⟨by omega, fun e he => ?_, fun r hr hm ht => by omega⟩
    have he' : e ∈ a.shared.ring.entries := by simpa [Actor.held, Publishing.pending] using he
    have hle := hring e he'
    omega
  · rename_i hkept
    rw [hsucc] at hkept
    rcases hread : Storage.readAfter a.log.storage after limit with e | records
    · simp only [Log.readAfter, hread, Except.mapError]
      exact .error
    · have hrecords := readAfter_ok h.sound.holds (by simpa [Log.oldest] using hkept) hread
      obtain ⟨first, hfirst, hversion⟩ : ∃ r ∈ L.taken, r.version = a.log.oldest :=
        oldest_mem h.sound.holds (by rw [h.sound.top]; change a.log.oldest ≤ _; omega)
      have hbounds := h.sound.run.bounds hfirst
      have hfits := h.sound.fits
      rw [h.sound.run.filter_lt] at hrecords
      have hrun := (h.sound.run.drop (after + 1 - (a.log.watermark + 1 - L.taken.length))).take
        limit
      rw [show a.log.watermark + 1 - L.taken.length +
        (after + 1 - (a.log.watermark + 1 - L.taken.length)) = after + 1 by omega,
        ← hrecords] at hrun
      have hlength : records.length =
          min limit (L.taken.length - (after + 1 - (a.log.watermark + 1 - L.taken.length))) := by
        rw [hrecords, List.length_take, List.length_drop]
      simp only [Log.readAfter, hread, Except.mapError]
      cases records with
      | nil =>
          simp only [List.length_nil] at hlength
          omega
      | cons record records =>
          simp only [hsucc, hrun.1, if_true]
          split
          · exact .error
          · rename_i es hes
            have hspec := entriesOf_spec hes
            refine .records ?_ (hrun.of_forall₂ (hspec.imp fun _ _ he => he.1)) ?_ ?_
            · rintro rfl
              cases hspec
            · rw [hspec.length_eq, hlength]
              exact min_le_left _ _
            · intro e he
              obtain ⟨r, hr, hv, hp⟩ := Actor.mem_of_forall₂ hspec he
              rw [hrecords] at hr
              exact ⟨r, List.mem_of_mem_drop (List.mem_of_mem_take hr), hv, .inr hp⟩

/-- A catch-up never answers with more records than it was asked for. -/
theorem catchUp_length {a : Actor D S} {L : Ledger V} (h : a.Inv (P := P) .idle L)
    {after limit : ℕ} {es : List Entry} (hanswer : a.catchUp after limit = .ok (.records es)) :
    es.length ≤ limit := by
  rw [Actor.catchUp] at hanswer
  split at hanswer
  · cases hanswer
  · rename_i hkept
    have hsucc : succ64 after ≤ after + 1 := Nat.mod_le _ _
    cases hread : Storage.readAfter a.log.storage after limit with
    | error e =>
        rw [Log.readAfter, hread] at hanswer
        cases hanswer
    | ok records =>
        have hrecords := readAfter_ok h.sound.holds ((not_lt.mp hkept).trans hsucc) hread
        have hlength : records.length ≤ limit := by
          rw [hrecords]
          exact List.length_take_le _ _
        rw [Log.readAfter, hread] at hanswer
        cases records with
        | nil =>
            dsimp only [Except.mapError] at hanswer
            split at hanswer <;> cases hanswer
            exact Nat.zero_le limit
        | cons first records =>
            dsimp only [Except.mapError] at hanswer
            split at hanswer
            · split at hanswer <;> cases hanswer
              rename_i hes
              rw [(entriesOf_spec hes).length_eq]
              exact hlength
            · cases hanswer

end Answer

/-! ### The invariant of the stream -/

namespace Stream

section

omit [Versioned V] [Reducible D P V]

/-- What a stream still knows of what it read, by where it stands. -/
def Knows (from_ watermark granted : ℕ) (t : Stream) : Prop :=
  match t.phase with
  | .opening | .parkedEmpty => False
  | .start | .ended => True
  | .parkedCredit g => g ≤ t.used
  | .credited g => t.used < g ∧ g ≤ granted
  | .parkedWatermark w => w ≤ t.cursor
  | .reading g => t.used < g ∧ g ≤ granted ∧ t.cursor < watermark
  | .awaiting after limit =>
      after = t.cursor ∧ t.cursor < watermark ∧ 0 < limit ∧ t.used + limit ≤ granted
  | .sending frame cursor _ => Covers from_ (t.sent ++ [frame]) cursor

omit [TextCodec] in
theorem Knows.mono {from_ watermark granted watermark' granted' : ℕ} {t : Stream}
    (h : t.Knows from_ watermark granted) (hw : watermark ≤ watermark')
    (hg : granted ≤ granted') : t.Knows from_ watermark' granted' := by
  unfold Knows at h ⊢
  split at h
  all_goals first | exact h | skip
  · exact ⟨h.1, h.2.trans hg⟩
  · exact ⟨h.1, h.2.1.trans hg, h.2.2.trans_le hw⟩
  · exact ⟨h.1, h.2.1.trans_le hw, h.2.2.1, h.2.2.2.trans hg⟩

/-- The credit spent on frames. -/
def spent (t : Stream) : ℕ := (t.issued.flatMap Frame.pushed).length

structure Inv (from_ : ℕ) (a : Actor D S) (p : Publishing) (L : Ledger V) (granted : ℕ)
    (t : Stream) : Prop where
  covers : Covers from_ t.sent t.cursor
  committed : ∀ frame ∈ t.issued, ∀ q ∈ frame.pushed, ∃ r ∈ L.taken, q.Commits P r
  bound : t.used ≤ granted
  spent : t.spent ≤ t.used ∧ (t.phase ≠ .ended → t.spent = t.used)
  gaps : ∀ m u, .gap m u ∈ t.issued → a.Gone p L m u
  knows : t.Knows from_ a.shared.watermark granted

variable {from_ granted : ℕ} {a a' : Actor D S} {p p' : Publishing} {L L' : Ledger V}
  {t : Stream}

/-- Other parties' steps leave the stream what it knows. -/
theorem Inv.later (h : t.Inv (P := P) from_ a p L granted) (hlater : a.Later p L a' p' L')
    {granted' : ℕ} (hg : granted ≤ granted') : t.Inv (P := P) from_ a' p' L' granted' where
  covers := h.covers
  committed frame hframe q hq := by
    obtain ⟨r, hr, hcommits⟩ := h.committed frame hframe q hq
    exact ⟨r, hlater.taken r hr, hcommits⟩
  bound := h.bound.trans hg
  spent := h.spent
  gaps m u hgap := hlater.gone m u (h.gaps m u hgap)
  knows := h.knows.mono hlater.published hg

/-- The stream moves on to a phase that issues nothing new. -/
theorem Inv.move (h : t.Inv (P := P) from_ a p L granted) {phase : Phase}
    (hissued : t.issued = t.sent)
    (hphase : ∀ frame cursor last, phase ≠ .sending frame cursor last)
    (hlive : t.phase ≠ .ended)
    (hknows : ({ t with phase } : Stream).Knows from_ a.shared.watermark granted) :
    ({ t with phase } : Stream).Inv (P := P) from_ a p L granted := by
  have hsame : ({ t with phase } : Stream).issued = t.issued := by
    rw [hissued]
    unfold issued
    split
    · rename_i frame cursor last hsending
      exact absurd hsending (hphase frame cursor last)
    · rfl
  have hspent : ({ t with phase } : Stream).spent = t.spent := by
    rw [Stream.spent, Stream.spent, hsame]
  refine ⟨h.covers, ?_, h.bound, ?_, ?_, hknows⟩
  · rw [hsame]
    exact h.committed
  · rw [hspent]
    exact ⟨h.spent.1, fun _ => h.spent.2 hlive⟩
  · rw [hsame]
    exact h.gaps

/-- A frame is taken in hand: it continues the cover and is paid for. -/
theorem Inv.issue (h : t.Inv (P := P) from_ a p L granted) (hissued : t.issued = t.sent)
    (hlive : t.phase ≠ .ended) {frame : Frame} {cursor : ℕ} {last : Bool}
    (hcovers : Covers from_ (t.sent ++ [frame]) cursor)
    (hcommitted : ∀ q ∈ frame.pushed, ∃ r ∈ L.taken, q.Commits P r)
    (hbound : t.used + frame.pushed.length ≤ granted)
    (hgap : ∀ m u, frame = .gap m u → a.Gone p L m u) :
    ({ t with
        used := t.used + frame.pushed.length
        phase := .sending frame cursor last } : Stream).Inv (P := P) from_ a p L granted := by
  have hspent := h.spent.2 hlive
  rw [Stream.spent, hissued] at hspent
  refine ⟨h.covers, ?_, hbound, ?_, ?_, hcovers⟩
  · intro frame' hframe'
    obtain hold | hnew := List.mem_append.mp hframe'
    · exact h.committed frame' (by rw [hissued]; exact hold)
    · obtain rfl := List.mem_singleton.mp hnew
      exact hcommitted
  · have hall : Stream.spent { t with
        used := t.used + frame.pushed.length
        phase := .sending frame cursor last } = t.used + frame.pushed.length := by
      simp [Stream.spent, issued, hspent]
    exact ⟨hall.le, fun _ => hall⟩
  · intro m u hmem
    obtain hold | hnew := List.mem_append.mp hmem
    · exact h.gaps m u (by rw [hissued]; exact hold)
    · exact hgap m u (List.mem_singleton.mp hnew).symm

theorem Inv.push (h : t.Inv (P := P) from_ a p L granted) (hissued : t.issued = t.sent)
    (hlive : t.phase ≠ .ended) {es : List Entry} (hne : es ≠ [])
    (hrun : Consecutive Entry.version (t.cursor + 1) es)
    (hcommitted : ∀ e ∈ es, ∃ r ∈ L.taken, e.pushed.Commits P r)
    (hbound : t.used + es.length ≤ granted) :
    (t.push es).Inv (P := P) from_ a p L granted := by
  obtain ⟨last, hlast⟩ : ∃ last, es.getLast? = some last :=
    ⟨es.getLast hne, List.getLast?_eq_some_getLast hne⟩
  have hversion := hrun.last_eq hlast
  have hpushed : Consecutive Pushed.version (t.cursor + 1) (es.map Entry.pushed) := by
    rw [consecutive_iff_map] at hrun ⊢
    simpa [Function.comp_def, Entry.pushed] using hrun
  have hcovers := Covers.records h.covers (by simpa using hne) hpushed
  rw [List.length_map, show t.cursor + es.length = last.version by omega] at hcovers
  have hissue : ({ t with
      used := t.used + (Frame.records (es.map Entry.pushed)).pushed.length
      phase := .sending (.records (es.map Entry.pushed)) last.version false } : Stream).Inv (P := P)
        from_ a p L granted :=
    h.issue hissued hlive hcovers (by simpa [Frame.pushed] using hcommitted)
      (by simpa [Frame.pushed] using hbound) (by simp)
  simpa [Stream.push, hlast, Frame.pushed] using hissue

/-- The frame in hand is sent, and the cursor moves with it. -/
theorem Inv.send (h : t.Inv (P := P) from_ a p L granted) {frame : Frame} {cursor : ℕ}
    {last : Bool} (hphase : t.phase = .sending frame cursor last) :
    ({ t with
        cursor
        sent := t.sent ++ [frame]
        phase := if last then .ended else .start } : Stream).Inv (P := P) from_ a p L granted := by
  generalize ht' : ({ t with
    cursor
    sent := t.sent ++ [frame]
    phase := if last then .ended else .start } : Stream) = t'
  have hsame : t'.issued = t.issued := by
    rw [← ht']
    cases last <;> simp [issued, hphase]
  have hspent : t'.spent = t.spent := by rw [Stream.spent, Stream.spent, hsame]
  have hused : t'.used = t.used := by rw [← ht']
  have hknows := h.knows
  simp only [Knows, hphase] at hknows
  refine ⟨by rw [← ht']; exact hknows, by rw [hsame]; exact h.committed,
    by rw [hused]; exact h.bound, ?_, by rw [hsame]; exact h.gaps, ?_⟩
  · rw [hspent, hused]
    exact ⟨h.spent.1, fun _ => h.spent.2 (by simp [hphase])⟩
  · rw [← ht']
    cases last <;> trivial

end

variable [StorageContract S] {from_ granted : ℕ} {a : Actor D S} {p : Publishing}
  {L : Ledger V} {t : Stream}

/-- What the ring returns above the cursor can be pushed. -/
theorem Inv.read (h : t.Inv (P := P) from_ a p L granted) (ha : a.Inv (P := P) p L) {g limit : ℕ}
    {maxBytes : ℕ} {es : List Entry} (hphase : t.phase = .reading g)
    (hlimit : limit ≤ g - t.used)
    (hread : a.shared.ring.readAfter t.cursor limit maxBytes = .records es) (hne : es ≠ []) :
    (t.push es).Inv (P := P) from_ a p L granted := by
  have hknows := h.knows
  simp only [Knows, hphase] at hknows
  obtain ⟨hcredit, hgranted, hbelow⟩ := hknows
  have hpublished := ha.published
  have hcounter := ha.sound.counter
  have hfits := ha.fits
  have hring := (consecutive_append.mp ha.run).1
  obtain ⟨hrun, hlength, hmem⟩ := Ring.readAfter_consecutive hring (by omega) (by omega) hread hne
  refine h.push (by simp [issued, hphase]) (by simp [hphase]) hne hrun (fun e he => ?_) (by omega)
  obtain ⟨r, hr, hversion, q, hq, hpatch⟩ := ha.shown e (List.mem_append_left _ (hmem e he))
  exact ⟨r, hr, hversion, .inl ⟨q, hq, hpatch⟩⟩

theorem Inv.step (h : t.Inv (P := P) from_ a p L granted) (ha : a.Inv (P := P) p L)
    (limits : Limits) : (t.step limits a.shared granted).Inv (P := P) from_ a p L granted := by
  have hknows := h.knows
  unfold Stream.step
  cases hphase : t.phase with
  | opening => exact h
  | awaiting after limit => exact h
  | ended => exact h
  | start =>
      simp only
      split
      · rename_i hused
        exact h.move (by simp [issued, hphase]) (by simp) (by simp [hphase]) hused
      · rename_i hcredit
        exact h.move (by simp [issued, hphase]) (by simp) (by simp [hphase])
          ⟨not_le.mp hcredit, le_rfl⟩
  | parkedCredit g =>
      exact h.move (by simp [issued, hphase]) (by simp) (by simp [hphase]) trivial
  | parkedWatermark w =>
      exact h.move (by simp [issued, hphase]) (by simp) (by simp [hphase]) trivial
  | parkedEmpty =>
      exact h.move (by simp [issued, hphase]) (by simp) (by simp [hphase]) trivial
  | credited g =>
      simp only [Knows, hphase] at hknows
      simp only
      split
      · rename_i hreached
        exact h.move (by simp [issued, hphase]) (by simp) (by simp [hphase]) hreached
      · rename_i hbelow
        exact h.move (by simp [issued, hphase]) (by simp) (by simp [hphase])
          ⟨hknows.1, hknows.2, not_le.mp hbelow⟩
  | reading g =>
      simp only [Knows, hphase] at hknows
      have hallowed : t.used + max (min (g - t.used) limits.push) 1 ≤ granted := by omega
      simp only
      split
      · rename_i entry entries hread
        exact h.read ha hphase (min_le_left _ _) hread (by simp)
      · exact h.move (by simp [issued, hphase]) (by simp) (by simp [hphase])
          ⟨rfl, hknows.2.2, lt_max_of_lt_right one_pos, hallowed⟩
  | sending frame cursor last => exact h.send hphase

/-- The answer to a catch-up is pushed, or reported as a gap. -/
theorem Inv.caughtUp (h : t.Inv (P := P) from_ a .idle L granted) (ha : a.Inv (P := P) .idle L)
    {after limit : ℕ} (hphase : t.phase = .awaiting after limit)
    (hclear : succ64 after < a.log.oldest →
      ∀ e ∈ a.shared.ring.entries, a.log.oldest ≤ e.version) :
    (t.caughtUp (a.catchUp after limit)).Inv (P := P) from_ a .idle L granted := by
  have hknows := h.knows
  simp only [Knows, hphase] at hknows
  obtain ⟨rfl, hbelow, hlimit, hcredit⟩ := hknows
  have hissued : t.issued = t.sent := by simp [issued, hphase]
  have hlive : t.phase ≠ .ended := by simp [hphase]
  have hserves := catchUp_serves ha hbelow hlimit hclear
  generalize a.catchUp t.cursor limit = r at hserves
  cases hserves with
  | @error f =>
      have hissue : ({ t with
          used := t.used + (Frame.error f).pushed.length
          phase := .sending (.error f) t.cursor true } : Stream).Inv (P := P)
            from_ a .idle L granted :=
        h.issue hissued hlive (Covers.error h.covers) (by simp [Frame.pushed])
          (by simpa [Frame.pushed] using h.bound) (by simp)
      exact hissue
  | @records es nonempty run bound committed =>
      cases es with
      | nil => exact absurd rfl nonempty
      | cons e es => exact h.push hissued hlive nonempty run committed (by omega)
  | @gap u above gone =>
      have hissue : ({ t with
          used := t.used + (Frame.gap t.cursor u).pushed.length
          phase := .sending (.gap t.cursor u) u false } : Stream).Inv (P := P)
            from_ a .idle L granted :=
        h.issue hissued hlive (Covers.gap h.covers above) (by simp [Frame.pushed])
          (by simpa [Frame.pushed] using h.bound) (by
            intro m u' hframe
            cases hframe
            exact gone)
      exact hissue

end Stream

/-! ### Every interleaving -/

namespace System

/-- An actor that just started on a log, and a records-mode subscription. -/
def start (log : Log D S) (capacity batch checkpointEvery : ℕ) (metrics : Metrics)
    (from_ : ℕ) (credit : UInt32) : System D S where
  actor := Actor.new log ⟨Ring.new capacity, 0, 0, metrics⟩ batch checkpointEvery
  publishing := .idle
  granted := credit.toNat
  stream := Stream.new from_ .records

variable [StorageContract S]

structure Inv (from_ : ℕ) (s : System D S) (L : Ledger V) : Prop where
  actor : s.actor.Inv (P := P) s.publishing L
  stream : s.stream.Inv (P := P) from_ s.actor s.publishing L s.granted
  counter : s.granted ≤ versionMax

omit [TextCodec] [Reducible D P V] [StorageContract S] [Versioned V] in
theorem sent_subset_issued (t : Stream) : t.sent ⊆ t.issued ∧
    (t.sent.flatMap Frame.pushed).length ≤ t.spent := by
  rw [Stream.spent]
  unfold Stream.issued
  split
  · exact ⟨List.subset_append_left _ _, by simp⟩
  · exact ⟨List.Subset.refl _, le_rfl⟩

omit [Reducible D P V] [StorageContract S] [Versioned V] in
theorem hangUp_inv {from_ granted : ℕ} {a : Actor D S} {p : Publishing} {L : Ledger V}
    {t : Stream} (h : t.Inv (P := P) from_ a p L granted) :
    ({ t with phase := .ended } : Stream).Inv (P := P) from_ a p L granted := by
  obtain ⟨hsub, hle⟩ := sent_subset_issued t
  refine ⟨h.covers, fun frame hframe => h.committed frame (hsub hframe), h.bound, ?_,
    fun m u hgap => h.gaps m u (hsub hgap), trivial⟩
  exact ⟨hle.trans h.spent.1, fun hlive => absurd rfl hlive⟩

variable [ReducibleContract D] [LawfulSerde P]

theorem step_inv (hu : Unfailing S) {limits : Limits} {from_ : ℕ} {s s' : System D S}
    {L : Ledger V} (h : s.Inv (P := P) from_ L) (hstep : Step ι limits GapsClear s s') :
    ∃ L', s'.Inv (P := P) from_ L' := by
  cases hstep with
  | actor hmove =>
      obtain ⟨L', hactor, hlater⟩ := Actor.moves_spec hu h.actor hmove
      exact ⟨L', hactor, h.stream.later hlater le_rfl, h.counter⟩
  | grant credit =>
      have hmore : s.granted ≤ min (s.granted + credit.toNat) versionMax :=
        le_min (Nat.le_add_right _ _) h.counter
      exact ⟨L, h.actor, h.stream.later (Actor.Later.refl _ _ _) hmore, min_le_right _ _⟩
  | stream => exact ⟨L, h.actor, h.stream.step h.actor limits, h.counter⟩
  | view idle asked =>
      have hknows := h.stream.knows
      simp only [Stream.Knows, asked] at hknows
  | catchUp idle asked hclear =>
      refine ⟨L, h.actor, ?_, h.counter⟩
      have hactor := h.actor
      have hstream := h.stream
      simp only [idle] at hactor hstream ⊢
      exact hstream.caughtUp hactor asked (hclear _ _ asked)
  | hangUp => exact ⟨L, h.actor, hangUp_inv h.stream, h.counter⟩

omit [ReducibleContract D] [LawfulSerde P] in
theorem start_inv {log : Log D S} {L : Ledger V} (h : log.Sound L)
    (capacity batch checkpointEvery : ℕ) (metrics : Metrics) (from_ : ℕ) (credit : UInt32) :
    (start log capacity batch checkpointEvery metrics from_ credit).Inv (P := P) from_ L where
  actor := ⟨h, Nat.zero_le _, trivial, fun e he => absurd he List.not_mem_nil, le_rfl⟩
  stream := ⟨.nil, fun frame hframe => absurd hframe List.not_mem_nil, Nat.zero_le _,
    ⟨le_rfl, fun _ => rfl⟩, fun m t hgap => absurd hgap List.not_mem_nil, trivial⟩
  counter := by
    have hcredit := credit.toNat_lt
    simp only [start, versionMax]
    omega

omit [ReducibleContract D] [LawfulSerde P] in
theorem Inv.delivered {from_ : ℕ} {s : System D S} {L : Ledger V}
    (h : s.Inv (P := P) from_ L) : Delivered (P := P) from_ L s := by
  obtain ⟨hsub, hle⟩ := sent_subset_issued s.stream
  have hknows := h.stream.knows
  refine ⟨h.stream.covers, fun frame hframe => h.stream.committed frame (hsub hframe),
    (hle.trans h.stream.spent.1).trans h.stream.bound, ?_, ?_, ?_, ?_⟩
  · intro m t hgap v hm ht
    exact (h.stream.gaps m t (hsub hgap)).not_readable h.actor.sound.holds hm ht
  · intro g hphase
    have hspent := h.stream.spent.2 (by simp [hphase])
    simp only [Stream.Knows, hphase] at hknows
    simp only [Stream.spent, Stream.issued, hphase] at hspent
    omega
  · intro w hphase
    simpa only [Stream.Knows, hphase] using hknows
  · intro hphase
    simp only [Stream.Knows, hphase] at hknows

/-- In every interleaving whose catch-ups are answered with the ring clear below
the floor of the storage, the subscription delivers what it owes. -/
theorem delivered_of_gapsClear (hu : Unfailing S) {log : Log D S} {L : Ledger V}
    (h : log.Sound L) (capacity batch checkpointEvery : ℕ) (metrics : Metrics)
    (limits : Limits) (from_ : ℕ) (credit : UInt32) {s : System D S}
    (hrun : Relation.ReflTransGen (Step ι limits GapsClear)
      (start log capacity batch checkpointEvery metrics from_ credit) s) :
    ∃ L', Holds s.actor.log.storage L' ∧ Delivered (P := P) from_ L' s := by
  have hinv : ∃ L', s.Inv (P := P) from_ L' := by
    induction hrun with
    | refl => exact ⟨L, start_inv h capacity batch checkpointEvery metrics from_ credit⟩
    | tail _ hstep ih =>
        obtain ⟨L₁, h₁⟩ := ih
        exact step_inv hu h₁ hstep
  obtain ⟨L', h'⟩ := hinv
  exact ⟨L', h'.actor.sound.holds, h'.delivered⟩

end System

end

/-! ### A gap over records the ring still holds -/

section

attribute [local instance] nullText

open Actor

/-- Three records through a ring of two, then a checkpoint: storage starts at 4
and the ring still holds 2 and 3. -/
theorem gap_over_ring : ∃ s : System Noop (Archive Tick false),
    Relation.ReflTransGen (System.Step ℕ ⟨8, 1024⟩ fun _ => True)
      (System.start (freshLog false []) 2 8 0 ⟨0, 0, 0⟩ 0 10) s ∧
    s.stream.sent = [.gap 0 3] ∧ s.actor.shared.ring.entries.map Entry.version = [2, 3] ∧
    ¬ ∃ L, Holds s.actor.log.storage L ∧ Delivered (P := Json) 0 L s := by
  let job : Job Json ℕ := ⟨[.null, .null, .null], [.null, .null, .null], .written, 0⟩
  have hjob : ∀ j ∈ [job], j.Decoded := by
    intro j hj
    obtain rfl := List.mem_singleton.mp hj
    rfl
  refine ⟨_, ((((((((((Relation.ReflTransGen.refl.tail
    (.actor (.append ⟨0, 0, 0⟩ hjob rfl))).tail (.actor (.push (List.cons_ne_nil _ _)))).tail
    (.actor .announce)).tail (.actor .checkpoint)).tail (.actor .floor)).tail
    (.actor (.answer (.checkpoint 1)))).tail .stream).tail .stream).tail .stream).tail
    (.catchUp rfl rfl trivial)).tail .stream, rfl, rfl, ?_⟩
  rintro ⟨L, -, hdelivered⟩
  refine hdelivered.gaps 0 3 List.mem_cons_self 2 (by decide) (by decide) (.inl ?_)
  exact ⟨⟨2, .null, 4⟩, List.mem_cons_self, rfl⟩

/-- The same records through a ring that holds them all are pushed from it. -/
theorem pushed_from_ring : ∃ s : System Noop (Archive Tick false),
    s.stream.phase = .start ∧ s.stream.sent.length = 1 ∧
    ∃ L, Holds s.actor.log.storage L ∧ Delivered (P := Json) 0 L s := by
  let job : Job Json ℕ := ⟨[.null, .null, .null], [.null, .null, .null], .written, 0⟩
  have hjob : ∀ j ∈ [job], j.Decoded := by
    intro j hj
    obtain rfl := List.mem_singleton.mp hj
    rfl
  refine ⟨_, ?_, ?_, System.delivered_of_gapsClear (ι := ℕ) (D := Noop) (S := Archive Tick false)
    Archive.unfailing (freshLog_sound false [])
    4 8 0 ⟨0, 0, 0⟩ ⟨8, 1024⟩ 0 10 ((((((((((Relation.ReflTransGen.refl.tail
    (.actor (.append ⟨0, 0, 0⟩ hjob rfl))).tail (.actor (.push (List.cons_ne_nil _ _)))).tail
    (.actor .announce)).tail (.actor .checkpoint)).tail (.actor .floor)).tail
    (.actor (.answer (.checkpoint 1)))).tail .stream).tail .stream).tail .stream).tail
    .stream)⟩
  · rfl
  · rfl

end

end Lug
