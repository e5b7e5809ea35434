import Lug.Server.Stream

/-!
The actor as a stream sees it, one step at a time: the ring, with what is about
to be pushed, ends at the watermark and holds committed records. Whatever a
stream read in an earlier step still holds, because all of it only grows: the
watermark, the history, and the versions that are gone for good.
-/

namespace Lug

open Reducible ReducibleContract StorageContract Runs

variable {D S P V ι : Type} [Versioned V] [Serde P] [Reducible D P V] [Storage S V]

/-- The version can be had from the ring or from storage. -/
def Actor.Readable (a : Actor D S) (v : ℕ) : Prop :=
  (∃ e ∈ a.shared.ring.entries, e.version = v) ∨
    ∃ after limit rs, Storage.readAfter a.log.storage after limit = .ok rs ∧
      ∃ r ∈ rs, r.version = v

def Publishing.pending : Publishing → List Entry
  | .appended entries => entries
  | _ => []

/-- What the ring holds once the batch in progress is pushed, before eviction. -/
def Actor.held (a : Actor D S) (p : Publishing) : List Entry :=
  a.shared.ring.entries ++ p.pending

variable [StorageContract S]

structure Actor.Inv (a : Actor D S) (p : Publishing) (L : Ledger V) : Prop where
  sound : a.log.Sound L
  fits : (a.held p).length ≤ a.log.watermark
  run : Consecutive Entry.version (a.log.watermark + 1 - (a.held p).length) (a.held p)
  shown : ∀ e ∈ a.held p, ∃ r ∈ L.taken, e.Shows P r
  published : a.shared.watermark ≤ a.log.watermark

/-- The versions in `(m, t]` are behind everything that can still be read. -/
structure Actor.Gone (a : Actor D S) (p : Publishing) (L : Ledger V) (m t : ℕ) : Prop where
  committed : t ≤ a.log.watermark
  held : ∀ e ∈ a.held p, t < e.version
  stored : ∀ r ∈ L.taken, m < r.version → r.version ≤ t → r.version < a.log.oldest

/-- What an earlier look at the actor may rely on later. -/
structure Actor.Later (a : Actor D S) (p : Publishing) (L : Ledger V) (a' : Actor D S)
    (p' : Publishing) (L' : Ledger V) : Prop where
  published : a.shared.watermark ≤ a'.shared.watermark
  taken : ∀ r ∈ L.taken, r ∈ L'.taken
  gone : ∀ m t, a.Gone p L m t → a'.Gone p' L' m t

namespace Actor

omit [Reducible D P V] in
/-- A gone version is not readable. -/
theorem Gone.not_readable {a : Actor D S} {p : Publishing} {L : Ledger V} {m t v : ℕ}
    (h : a.Gone p L m t) (holds : Holds a.log.storage L) (hm : m < v) (ht : v ≤ t) :
    ¬ a.Readable v := by
  rintro (⟨e, he, rfl⟩ | ⟨after, limit, rs, hread, r, hr, rfl⟩)
  · have hheld := h.held e (List.mem_append_left _ he)
    omega
  · obtain ⟨htaken, hfloor⟩ := readAfter_mem holds hread r hr
    have hgone : r.version < Storage.oldest a.log.storage := h.stored r htaken hm ht
    omega

omit [Serde P] [Reducible D P V] [Versioned V] [StorageContract S] in
theorem Later.refl (a : Actor D S) (p : Publishing) (L : Ledger V) : a.Later p L a p L :=
  ⟨le_rfl, fun _ h => h, fun _ _ h => h⟩

/-! ### What a step of the actor preserves -/

omit [Versioned V] [Serde P] [Reducible D P V] [Storage S V] [StorageContract S] in
theorem mem_of_forall₂ {α β : Type*} {R : α → β → Prop} {xs : List α} {ys : List β}
    (h : List.Forall₂ R xs ys) {x : α} (hx : x ∈ xs) : ∃ y ∈ ys, R x y := by
  induction h with
  | nil => cases hx
  | cons hr _ ih =>
      cases hx with
      | head => exact ⟨_, List.mem_cons_self, hr⟩
      | tail _ hx =>
          obtain ⟨y, hy, hr⟩ := ih hx
          exact ⟨y, List.mem_cons_of_mem _ hy, hr⟩

variable [ReducibleContract D] [LawfulSerde P]

/-- A batch is recorded: its entries wait to be pushed behind what the ring
holds. -/
theorem Inv.append {a : Actor D S} {L : Ledger V} {jobs : List (Job P ι)} {views log metrics}
    (h : a.Inv .idle L) (hjobs : ∀ job ∈ jobs, job.Decoded)
    (happend : a.log.append (jobs.flatMap Job.patches) (maxRank (jobs.map Job.durability)) =
      (.ok views, log)) :
    let a' : Actor D S := { a with log, shared := { a.shared with metrics } }
    let p' := Publishing.appended (deal log.synced ((jobs.map Job.taken).zip
      (jobs.map fun job => job.patches.length)) (mintedVersions a.log.watermark views)).1
    ∃ L', a'.Inv p' L' ∧ a.Later .idle L a' p' L' := by
  intro a' p'
  have hsettles := h.sound.append (toVec_of_jobs hjobs) (Log.flushes_of_ok happend)
  have holdest := Log.oldest_append_le h.sound.holds (jobs.flatMap Job.patches)
    (maxRank (jobs.map Job.durability))
  rw [happend] at hsettles holdest
  cases hsettles with
  | @taken rs _ _ folds sound synced =>
      obtain ⟨entries, acks, hdeal, -, hshows⟩ := deal_serial (S := S) hjobs folds
        (fun ⟨job, hjob, hd⟩ => synced (maxRank_durable (List.mem_map.mpr ⟨job, hjob, hd⟩)))
      rw [h.sound.version] at hdeal
      have hpending : p' = .appended entries := by
        simp only [p', hdeal]
      obtain ⟨hversions, hend⟩ := folds.versions
      have hw : log.watermark = a.log.watermark + entries.length := by
        rw [← sound.version, ← h.sound.version, hend, hshows.length_eq]
      have hnew : Consecutive Entry.version (a.log.watermark + 1) entries := by
        rw [← h.sound.version]
        exact hversions.of_forall₂ (hshows.imp fun _ _ hs => hs.1)
      have hheld : a'.held p' = a.held .idle ++ entries := by
        rw [hpending]
        simp [Actor.held, Publishing.pending, a']
      have hfits := h.fits
      refine ⟨L.push rs, ⟨sound, ?_, ?_, ?_, ?_⟩, ⟨le_rfl, ?_, ?_⟩⟩
      · simp only [hheld, List.length_append, a', hw]
        omega
      · rw [hheld, consecutive_append, List.length_append]
        simp only [a', hw]
        constructor
        · rw [show a.log.watermark + entries.length + 1 -
            ((a.held .idle).length + entries.length) =
              a.log.watermark + 1 - (a.held .idle).length by omega]
          exact h.run
        · rwa [show a.log.watermark + entries.length + 1 -
            ((a.held .idle).length + entries.length) + (a.held .idle).length =
              a.log.watermark + 1 by omega]
      · rw [hheld]
        intro e he
        cases List.mem_append.mp he with
        | inl hold =>
            obtain ⟨r, hr, hs⟩ := h.shown e hold
            exact ⟨r, List.mem_append_left _ hr, hs⟩
        | inr hfresh =>
            obtain ⟨r, hr, hs⟩ := mem_of_forall₂ hshows hfresh
            exact ⟨r, List.mem_append_right _ hr, hs⟩
      · have hpublished := h.published
        simp only [a', hw]
        omega
      · exact fun r hr => List.mem_append_left _ hr
      · intro m t hgone
        have hcommitted := hgone.committed
        refine ⟨by simp only [a', hw]; omega, ?_, ?_⟩
        · rw [hheld]
          intro e he
          cases List.mem_append.mp he with
          | inl hold => exact hgone.held e hold
          | inr hfresh =>
              have hbounds := (hnew.bounds hfresh).1
              omega
        · intro r hr hm ht
          cases List.mem_append.mp hr with
          | inl hold => exact (hgone.stored r hold hm ht).trans_le holdest
          | inr hfresh =>
              have hbounds := (hversions.bounds hfresh).1
              rw [h.sound.version] at hbounds
              omega

omit [LawfulSerde P] [ReducibleContract D] in
/-- The log moved without taking records, and what is published did not. -/
theorem Inv.of_log {a : Actor D S} {p : Publishing} {L L' : Ledger V} {log : Log D S}
    {shared : Shared} {checkpointed : ℕ} (h : a.Inv p L) (hsound : log.Sound L')
    (htaken : L'.taken = L.taken) (hw : log.watermark = a.log.watermark)
    (holdest : a.log.oldest ≤ log.oldest) (hring : shared.ring = a.shared.ring)
    (hpublished : shared.watermark = a.shared.watermark) (p' : Publishing)
    (hp' : p'.pending = p.pending) :
    let a' : Actor D S := { a with log, shared, checkpointed }
    a'.Inv p' L' ∧ a.Later p L a' p' L' := by
  intro a'
  have hheld : a'.held p' = a.held p := by simp only [Actor.held, a', hring, hp']
  have hw' : a'.log.watermark = a.log.watermark := hw
  refine ⟨⟨hsound, ?_, ?_, ?_, ?_⟩, ⟨hpublished.ge, ?_, ?_⟩⟩
  · rw [hheld, hw']
    exact h.fits
  · rw [hheld, hw']
    exact h.run
  · rw [hheld, htaken]
    exact h.shown
  · rw [hw']
    exact hpublished.trans_le h.published
  · rw [htaken]
    exact fun r hr => hr
  · intro m t hgone
    refine ⟨by rw [hw']; exact hgone.committed, by rw [hheld]; exact hgone.held, ?_⟩
    rw [htaken]
    exact fun r hr hm ht => (hgone.stored r hr hm ht).trans_le holdest

omit [LawfulSerde P] [ReducibleContract D] in
/-- The pending entries reach the ring, which drops its oldest for them. -/
theorem Inv.push {a : Actor D S} {L : Ledger V} {entries : List Entry}
    (h : a.Inv (.appended entries) L) :
    let a' : Actor D S := { a with shared := { a.shared with ring := a.shared.ring.push entries } }
    a'.Inv .pushed L ∧ a.Later (.appended entries) L a' .pushed L := by
  intro a'
  have hheld : a'.held .pushed = (a.held (.appended entries)).rtake a.shared.ring.capacity := by
    simp [Actor.held, Publishing.pending, a', Ring.push_entries]
  have hsub : ∀ e ∈ a'.held .pushed, e ∈ a.held (.appended entries) := by
    rw [hheld]
    exact fun e he => List.mem_of_mem_drop he
  have hfits := h.fits
  have hlength : (a'.held .pushed).length = (a.held (.appended entries)).length -
      ((a.held (.appended entries)).length - a.shared.ring.capacity) := by
    rw [hheld, List.rtake, List.length_drop]
  have hw : a'.log.watermark = a.log.watermark := rfl
  refine ⟨⟨h.sound, by omega, ?_, fun e he => h.shown e (hsub e he), h.published⟩,
    ⟨le_rfl, fun r hr => hr, fun m t hgone => ?_⟩⟩
  · have hrun := h.run.rtake a.shared.ring.capacity
    rw [← hheld] at hrun
    rwa [show a.log.watermark + 1 - (a.held (.appended entries)).length +
      ((a.held (.appended entries)).length - a.shared.ring.capacity) =
        a'.log.watermark + 1 - (a'.held .pushed).length by omega] at hrun
  · exact ⟨hgone.committed, fun e he => hgone.held e (hsub e he), hgone.stored⟩

omit [LawfulSerde P] [ReducibleContract D] in
theorem Inv.announce {a : Actor D S} {L : Ledger V} (h : a.Inv .pushed L) :
    let a' : Actor D S := { a with shared := { a.shared with watermark := a.log.watermark } }
    a'.Inv .announced L ∧ a.Later .pushed L a' .announced L := by
  intro a'
  exact ⟨⟨h.sound, h.fits, h.run, h.shown, le_rfl⟩,
    ⟨h.published, fun r hr => hr, fun m t hgone =>
      ⟨hgone.committed, hgone.held, hgone.stored⟩⟩⟩

omit [LawfulSerde P] [ReducibleContract D] in
/-- A checkpoint may reclaim, and the log keeps its records all the same. -/
theorem checkpoint_inv {a : Actor D S} {p : Publishing} {L : Ledger V} (h : a.Inv p L)
    (checkpointed : ℕ) (p' : Publishing) (hp' : p'.pending = p.pending) :
    ∃ L', ({ a with log := a.log.checkpoint.2, checkpointed } : Actor D S).Inv p' L' ∧
      a.Later p L { a with log := a.log.checkpoint.2, checkpointed } p' L' := by
  obtain ⟨L', hsound, htaken, -, hw⟩ := h.sound.checkpoint
  exact ⟨L', h.of_log hsound htaken hw (Log.oldest_checkpoint_le h.sound.holds) rfl rfl p' hp'⟩

omit [LawfulSerde P] [Serde P] [ReducibleContract D] [StorageContract S] [Versioned V] in
theorem autoCheckpoint_eq (a : Actor D S) : a.autoCheckpoint = a ∨
    ∃ checkpointed, a.autoCheckpoint = { a with log := a.log.checkpoint.2, checkpointed } := by
  unfold autoCheckpoint
  split
  · right
    rcases hcheck : a.log.checkpoint with ⟨e | ⟨⟩, log⟩
    · exact ⟨a.checkpointed, rfl⟩
    · exact ⟨log.watermark, rfl⟩
  · exact .inl rfl

variable [TextCodec]

omit [LawfulSerde P] [Serde P] [ReducibleContract D] [StorageContract S] in
theorem answer_eq (a : Actor D S) (command : Command ι) : (a.answer command).2 = a ∨
    ∃ checkpointed, (a.answer command).2 =
      { a with log := a.log.checkpoint.2, checkpointed } := by
  cases command with
  | append => exact .inl rfl
  | view => exact .inl rfl
  | catchUp => exact .inl rfl
  | checkpoint reply =>
      right
      rw [answer]
      rcases hcheck : a.log.checkpoint with ⟨e | ⟨⟩, log⟩
      · exact ⟨a.checkpointed, rfl⟩
      · exact ⟨log.watermark, rfl⟩

/-- Storage that does not fail takes no record of a batch it refuses. -/
theorem steady_of_unfailing (hu : Unfailing S) {a a' : Actor D S} {p p' : Publishing}
    {L : Ledger V} (h : a.Inv p L) (hmove : Moves ι (a, p) (a', p')) :
    p' = .idle → a'.log.watermark = a.log.watermark := by
  intro hidle
  cases hmove with
  | @fail _ jobs e log decoded happend =>
      have hflush := h.sound.flushes hu (jobs.flatMap Job.patches)
        (maxRank (jobs.map Job.durability))
      have hsound := h.sound.append_error (toVec_of_jobs decoded) hflush happend
      exact hsound.top.symm.trans h.sound.top
  | nothing => rfl
  | floor => rfl
  | answer command =>
      obtain heq | ⟨checkpointed, heq⟩ := answer_eq a command
      · rw [heq]
      · rw [heq]
        obtain ⟨L', -, -, -, hw⟩ := h.sound.checkpoint
        exact hw
  | append | push | announce | checkpoint => cases hidle

/-- Every step of the actor that publishes what it recorded keeps its half, and
breaks nothing that a stream has seen. -/
theorem moves_steady {a a' : Actor D S} {p p' : Publishing} {L : Ledger V} (h : a.Inv p L)
    (hmove : Moves ι (a, p) (a', p'))
    (hsteady : p' = .idle → a'.log.watermark = a.log.watermark) :
    ∃ L', a'.Inv p' L' ∧ a.Later p L a' p' L' := by
  cases hmove with
  | append _ decoded happend => exact h.append decoded happend
  | @fail _ jobs e log decoded happend =>
      obtain ⟨rs, hsound, hw⟩ := h.sound.appends (maxRank (jobs.map Job.durability))
        (toVec_of_jobs decoded)
      have holdest := Log.oldest_append_le h.sound.holds (jobs.flatMap Job.patches)
        (maxRank (jobs.map Job.durability))
      rw [happend] at hsound hw holdest
      have hmoved : log.watermark = a.log.watermark + rs.length := hw
      have hkept : log.watermark = a.log.watermark := hsteady rfl
      have hnil : rs = [] := List.length_eq_zero_iff.mp (by omega)
      rw [hnil, Ledger.push_nil] at hsound
      exact ⟨L, h.of_log hsound rfl hkept holdest rfl rfl .idle rfl⟩
  | nothing => exact ⟨L, h.of_log h.sound rfl rfl le_rfl rfl rfl .idle rfl⟩
  | push => exact ⟨L, h.push⟩
  | announce => exact ⟨L, h.announce⟩
  | checkpoint =>
      obtain heq | ⟨checkpointed, heq⟩ := autoCheckpoint_eq a
      · rw [heq]
        exact ⟨L, h.of_log h.sound rfl rfl le_rfl rfl rfl .checkpointed rfl⟩
      · rw [heq]
        exact checkpoint_inv h checkpointed .checkpointed rfl
  | floor =>
      refine ⟨L, h.of_log h.sound rfl rfl le_rfl ?_ ?_ .idle rfl⟩
      · rfl
      · rfl
  | answer command =>
      obtain heq | ⟨checkpointed, heq⟩ := answer_eq a command
      · rw [heq]
        exact ⟨L, h, Later.refl a .idle L⟩
      · rw [heq]
        exact checkpoint_inv h checkpointed .idle rfl

theorem moves_spec (hu : Unfailing S) {a a' : Actor D S} {p p' : Publishing} {L : Ledger V}
    (h : a.Inv p L) (hmove : Moves ι (a, p) (a', p')) :
    ∃ L', a'.Inv p' L' ∧ a.Later p L a' p' L' :=
  moves_steady h hmove (steady_of_unfailing hu h hmove)

end Actor

end Lug
