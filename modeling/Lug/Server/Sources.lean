import Lug.Cavlc.Reencode
import Lug.Cavlc.Reopen
import Lug.Server.Delivery

/-!
A subscriber gets a patch out of the ring, as it was sent, or out of storage, as
it was encoded again. What the two have to do with each other, in every state the
actor passes through, whatever its storage answers.
-/

namespace Lug

open Reducible ReducibleContract StorageContract Runs

section

variable {D S P V ι : Type} [Versioned V] [Serde P] [Reducible D P V] [Storage S V]
  [ReducibleContract D] [StorageContract S]

namespace Actor

/-- What the ring holds, or is about to, was recorded; nothing is said of what was
recorded besides. -/
structure Shows (a : Actor D S) (p : Publishing) (L : Ledger V) : Prop where
  sound : a.log.Sound L
  shown : ∀ e ∈ a.held p, ∃ r ∈ L.taken, e.Shows P r

variable [LawfulSerde P]

theorem Shows.append {a : Actor D S} {L : Ledger V} {jobs : List (Job P ι)} {views log metrics}
    (h : a.Shows .idle L) (hjobs : ∀ job ∈ jobs, job.Decoded)
    (happend : a.log.append (jobs.flatMap Job.patches) (maxRank (jobs.map Job.durability)) =
      (.ok views, log)) :
    let a' : Actor D S := { a with log, shared := { a.shared with metrics } }
    let p' := Publishing.appended (deal log.synced ((jobs.map Job.taken).zip
      (jobs.map fun job => job.patches.length)) (mintedVersions a.log.watermark views)).1
    ∃ L', a'.Shows p' L' := by
  intro a' p'
  have hsettles := h.sound.append (toVec_of_jobs hjobs) (Log.flushes_of_ok happend)
  rw [happend] at hsettles
  cases hsettles with
  | @taken rs _ _ folds sound synced =>
      obtain ⟨entries, acks, hdeal, -, hshows⟩ := deal_serial (S := S) hjobs folds
        (fun ⟨job, hjob, hd⟩ => synced (maxRank_durable (List.mem_map.mpr ⟨job, hjob, hd⟩)))
      rw [h.sound.version] at hdeal
      refine ⟨L.push rs, sound, fun e he => ?_⟩
      have he' : e ∈ a.held .idle ∨ e ∈ entries := by
        simpa [Actor.held, Publishing.pending, a', p', hdeal] using he
      cases he' with
      | inl hold =>
          obtain ⟨r, hr, hs⟩ := h.shown e hold
          exact ⟨r, List.mem_append_left _ hr, hs⟩
      | inr hfresh =>
          obtain ⟨r, hr, hs⟩ := mem_of_forall₂ hshows hfresh
          exact ⟨r, List.mem_append_right _ hr, hs⟩

omit [LawfulSerde P] [ReducibleContract D] in
/-- The log moved without losing records, and the ring did not grow. -/
theorem Shows.of_log {a a' : Actor D S} {p p' : Publishing} {L L' : Ledger V}
    (h : a.Shows p L) (hsound : a'.log.Sound L') (htaken : ∀ r ∈ L.taken, r ∈ L'.taken)
    (hheld : ∀ e ∈ a'.held p', e ∈ a.held p) : a'.Shows p' L' := by
  refine ⟨hsound, fun e he => ?_⟩
  obtain ⟨r, hr, hs⟩ := h.shown e (hheld e he)
  exact ⟨r, htaken r hr, hs⟩

omit [LawfulSerde P] [ReducibleContract D] in
theorem Shows.checkpoint {a : Actor D S} {p p' : Publishing} {L : Ledger V} (h : a.Shows p L)
    (checkpointed : ℕ) (hp : p'.pending = p.pending) :
    ∃ L', ({ a with log := a.log.checkpoint.2, checkpointed } : Actor D S).Shows p' L' := by
  obtain ⟨L', hsound, htaken, -⟩ := h.sound.checkpoint
  refine ⟨L', h.of_log hsound (fun r hr => by rwa [htaken]) fun e he => ?_⟩
  simpa [Actor.held, hp] using he

variable [TextCodec]

theorem Shows.moves {a a' : Actor D S} {p p' : Publishing} {L : Ledger V} (h : a.Shows p L)
    (hmove : Moves ι (a, p) (a', p')) : ∃ L', a'.Shows p' L' := by
  have hquiet : ∀ {a' : Actor D S} {p' : Publishing}, a'.log = a.log →
      (∀ e ∈ a'.held p', e ∈ a.held p) → ∃ L', a'.Shows p' L' := by
    intro a' p' hlog hheld
    exact ⟨L, h.of_log (by rw [hlog]; exact h.sound) (fun r hr => hr) hheld⟩
  cases hmove with
  | append _ decoded happend => exact h.append decoded happend
  | @fail _ jobs e log decoded happend =>
      obtain ⟨rs, hsound, -⟩ := h.sound.appends (maxRank (jobs.map Job.durability))
        (toVec_of_jobs decoded)
      rw [happend] at hsound
      exact ⟨_, h.of_log hsound (fun r hr => List.mem_append_left _ hr) fun e he => he⟩
  | nothing => exact hquiet rfl fun e he => he
  | @push _ entries =>
      refine hquiet rfl fun e he => ?_
      have he' : e ∈ (a.shared.ring.entries ++ entries).rtake a.shared.ring.capacity := by
        simpa [Actor.held, Publishing.pending, Ring.push_entries] using he
      exact List.mem_of_mem_drop he'
  | announce => exact hquiet rfl fun e he => he
  | checkpoint =>
      obtain heq | ⟨checkpointed, heq⟩ := autoCheckpoint_eq a
      · rw [heq]
        exact hquiet rfl fun e he => he
      · rw [heq]
        exact h.checkpoint checkpointed rfl
  | floor => exact hquiet rfl fun e he => he
  | answer command =>
      obtain heq | ⟨checkpointed, heq⟩ := answer_eq a command
      · rw [heq]
        exact ⟨L, h⟩
      · rw [heq]
        exact h.checkpoint checkpointed rfl

open Relation

theorem Shows.run {a a' : Actor D S} {p p' : Publishing} {L : Ledger V} (h : a.Shows p L)
    (hrun : ReflTransGen (Moves ι) (a, p) (a', p')) : ∃ L', a'.Shows p' L' := by
  have hall : ∀ s, ReflTransGen (Moves ι) (a, p) s → ∃ L', s.1.Shows s.2 L' := by
    intro s hs
    induction hs with
    | refl => exact ⟨L, h⟩
    | tail _ hmove ih =>
        obtain ⟨L', hshows⟩ := ih
        exact hshows.moves hmove
  exact hall (a', p') hrun

omit [LawfulSerde P] [ReducibleContract D] in
/-- A version that is read from storage while the ring still holds it is the
other one encoded and read back. -/
theorem Shows.reencoded {a : Actor D S} {p : Publishing} {L : Ledger V} (h : a.Shows p L)
    {e e' : Entry} {es : List Entry} {after limit : ℕ} (he : e ∈ a.shared.ring.entries)
    (hread : a.catchUp after limit = .ok (.records es)) (he' : e' ∈ es)
    (hversion : e'.version = e.version) : ∃ (q : P) (b : Bytes),
      Serde.fromValue e.patch = .ok q ∧ Serde.toVec q = .ok b ∧
        TextCodec.fromSlice b = .ok e'.patch := by
  obtain ⟨r, hr, hv, q, hq, hb⟩ := h.shown e (List.mem_append_left _ he)
  obtain ⟨records, hstored, hentries⟩ : ∃ records,
      Storage.readAfter a.log.storage after limit = .ok records ∧
        entriesOf records = .ok es := by
    unfold catchUp at hread
    simp only at hread
    split at hread
    · cases hread
    · rcases hstored : Storage.readAfter a.log.storage after limit with e | records
      · simp [Log.readAfter, hstored, Except.mapError] at hread
      · simp only [Log.readAfter, hstored, Except.mapError] at hread
        cases records with
        | nil =>
            simp only at hread
            split at hread
            · cases hread
              cases he'
            · cases hread
        | cons record records =>
            simp only at hread
            split at hread
            · split at hread
              · cases hread
              · rename_i entries hentries
                cases hread
                exact ⟨_, rfl, hentries⟩
            · cases hread
  obtain ⟨r', hr', hv', hdecoded⟩ := mem_of_forall₂ (entriesOf_spec hentries) he'
  have htaken := (readAfter_mem h.sound.holds hstored r' hr').1
  have hsame : r' = r := h.sound.run.eq_of_eq htaken hr (by omega)
  rw [hsame] at hdecoded
  exact ⟨q, r.patch, hq, hb, hdecoded⟩

/-- For every version in both places, storage gives back what this function makes of
the patch in the ring. -/
def Served (given : Json → Json) (a : Actor D S) : Prop :=
  ∀ e ∈ a.shared.ring.entries, e.patch.Canonical → ∀ after limit es,
    a.catchUp after limit = .ok (.records es) → ∀ e' ∈ es, e'.version = e.version →
      e'.patch = given e.patch

/-- What an actor over this structure serves in every state it passes through, from
an empty ring on. -/
def Serves (D S : Type) {P V : Type} [Versioned V] [Serde P] [Reducible D P V]
    [Storage S V] [ReducibleContract D] [StorageContract S] (given : Json → Json) : Prop :=
  ∀ (ι : Type) (log : Log D S) (L : Ledger V) (capacity batch checkpointEvery : ℕ)
    (metrics : Metrics) (a : Actor D S) (p : Publishing), log.Sound L →
      ReflTransGen (Moves ι)
        (Actor.new log ⟨Ring.new capacity, 0, 0, metrics⟩ batch checkpointEvery, .idle) (a, p) →
      a.Served given

theorem serves_of_reencoded {given : Json → Json}
    (h : ∀ {j : Json} {q : P} {b : Bytes}, j.Canonical → Serde.fromValue j = .ok q →
      Serde.toVec q = .ok b → TextCodec.fromSlice b = .ok (given j)) : Serves D S given := by
  intro ι log L capacity batch checkpointEvery metrics a p hlog hrun
  have hfirst : (Actor.new log ⟨Ring.new capacity, 0, 0, metrics⟩ batch
      checkpointEvery).Shows .idle L := by
    refine ⟨hlog, fun e he => ?_⟩
    simp [Actor.held, Actor.new, Ring.new, Publishing.pending] at he
  obtain ⟨L', hshows⟩ := hfirst.run hrun
  intro e he hcanonical after limit es hread e' he' hversion
  obtain ⟨q, b, hq, hb, hdecoded⟩ := hshows.reencoded he hread he' hversion
  rw [h hcanonical hq hb] at hdecoded
  exact (Except.ok.inj hdecoded).symm

end Actor

end

namespace Actor

/-- A plain log serves the same patch from both places. A reducible one leaves the
void operations out of what it reads from storage. -/
theorem ring_and_storage [TextCodec] (h : TextCodec.RoundTrips) :
    (∀ (S : Type) [Storage S Tick] [StorageContract S], Serves Noop S id) ∧
      ∀ (S : Type) [Storage S Cavlc.Snapshot] [StorageContract S],
        Serves Cavlc.Store S Cavlc.Patch.prune := by
  refine ⟨fun S _ _ => serves_of_reencoded ?_, fun S _ _ => serves_of_reencoded ?_⟩
  · intro j q b hj hq hb
    cases hq
    cases hb
    rw [h, hj.normal_eq]
    rfl
  · intro j q b hj hq hb
    exact Cavlc.OrderedPatch.toVec_prune h hj hq hb

attribute [local instance] codec

/-- A patch that creates one field and updates none, and says so. -/
def voidUpdate : Json := .object [("Create", .object [("a", .null)]), ("Update", .object [])]

theorem voidUpdate_canonical : voidUpdate.Canonical := by
  refine .object (List.pairwise_pair.mpr (by decide)) fun f hf => ?_
  simp only [List.mem_cons, List.not_mem_nil, or_false] at hf
  obtain rfl | rfl := hf
  · refine .object (by simp [SortedMap.Sorted]) fun g hg => ?_
    rw [List.mem_singleton.mp hg]
    exact .null
  · exact .object SortedMap.sorted_nil fun g hg => absurd hg List.not_mem_nil

def onStore : Actor Cavlc.Store (Archive Cavlc.Snapshot false) :=
  Actor.new emptyLog ⟨Ring.new 4, 0, 0, ⟨0, 0, 0⟩⟩ 8 0

/-- The document that its encoding leaves of it. -/
def prunedUpdate : Json := .object [("Create", .object [("a", .null)])]

/-- The ring keeps it as it was sent, storage does not. -/
theorem ring_keeps_void :
    (onStore.drain [.append [voidUpdate] .written 0]).2.shared.ring.entries.map Entry.patch =
      [voidUpdate] ∧
    (onStore.drain [.append [voidUpdate] .written 0]).2.catchUp 0 8 =
      .ok (.records [⟨1, prunedUpdate, (TextCodec.toVec prunedUpdate).length⟩]) ∧
    ¬ Serves Cavlc.Store (Archive Cavlc.Snapshot false) id := by
  have hring : (onStore.drain [.append [voidUpdate] .written 0]).2.shared.ring.entries =
      [⟨1, voidUpdate, estimate voidUpdate⟩] := rfl
  have hread : (onStore.drain [.append [voidUpdate] .written 0]).2.catchUp 0 8 =
      .ok (.records [⟨1, prunedUpdate, (TextCodec.toVec prunedUpdate).length⟩]) := by
    have hdecode : (TextCodec.fromSlice (TextCodec.toVec prunedUpdate) : Except String Json) =
        .ok prunedUpdate := codec_roundTrips prunedUpdate
    have hrecords : (onStore.drain [.append [voidUpdate] .written 0]).2.log.readAfter 0 8 =
        .ok [⟨1, TextCodec.toVec prunedUpdate⟩] := rfl
    have holdest : (onStore.drain [.append [voidUpdate] .written 0]).2.log.oldest = 1 := rfl
    simp [catchUp, hrecords, holdest, succ64, entriesOf, hdecode]
  refine ⟨by rw [hring]; rfl, hread, fun hserves => ?_⟩
  obtain ⟨a, ha, hrun⟩ : ∃ a, a = (onStore.drain [.append [voidUpdate] .written 0]).2 ∧
      Relation.ReflTransGen (Moves ℕ) (onStore, .idle) (a, .idle) :=
    ⟨_, rfl, drainFrom_moves onStore decoded_nil⟩
  rw [← ha] at hring hread
  have hserved := hserves ℕ onStore.log ⟨[], none⟩ 4 8 0 ⟨0, 0, 0⟩ a .idle emptyLog_sound hrun
  have hsame := hserved ⟨1, voidUpdate, estimate voidUpdate⟩
    (by rw [hring]; exact List.mem_singleton_self _) voidUpdate_canonical 0 8 _ hread
    _ (List.mem_singleton_self _) rfl
  cases hsame

/-- What storage serves of it is what the encoding leaves. -/
theorem ring_and_storage_void :
    (onStore.drain [.append [voidUpdate] .written 0]).2.Served Cavlc.Patch.prune :=
  (ring_and_storage codec_roundTrips).2 (Archive Cavlc.Snapshot false) ℕ onStore.log ⟨[], none⟩
    4 8 0 ⟨0, 0, 0⟩ _ .idle emptyLog_sound (drainFrom_moves onStore decoded_nil)

end Actor

end Lug
