import Lug.Server.Serial

/-!
The group commit, from the inside out: how the acknowledgement loop deals the
minted versions back to the requests, what `publish` adds to the ring, and from
these the specification of `Actor::commit` and of the replay of a failed run.
-/

namespace Lug

open Reducible ReducibleContract StorageContract Runs

variable {D S P V ι : Type} [Versioned V] [Serde P] [Reducible D P V] [Storage S V]

/-- The ring entry a request left for a record: the patch as it was sent, the
record as it was written. -/
def Entry.Shows (P : Type) [Serde P] (e : Entry) (r : Record) : Prop :=
  e.version = r.version ∧ ∃ p : P, Serde.fromValue e.patch = .ok p ∧ Serde.toVec p = .ok r.patch

theorem decode_eq_ok_iff {raw : List Json} {ps : List P} :
    decode raw = .ok ps ↔ List.Forall₂ (fun j p => Serde.fromValue j = .ok p) raw ps := by
  induction raw generalizing ps with
  | nil => cases ps <;> simp [decode, pure, Except.pure]
  | cons j raw ih =>
      rw [decode, List.mapM_cons]
      cases hj : (Serde.fromValue j : Except String P) with
      | error e => cases ps <;> simp [bind, Except.bind, hj]
      | ok p =>
          cases hrest : (raw.mapM Serde.fromValue : Except String (List P)) with
          | error e => cases ps <;> simp [bind, Except.bind, hj, ← ih, decode, hrest]
          | ok rest =>
              cases ps <;>
                simp [bind, Except.bind, pure, Except.pure, hj, ← ih, decode, hrest]

theorem toVec_of_decode [LawfulSerde P] {raw : List Json} {ps : List P}
    (h : decode raw = .ok ps) : ∀ p ∈ ps, ∃ b, Serde.toVec p = .ok b := by
  rw [decode_eq_ok_iff] at h
  induction h with
  | nil => simp
  | cons hp _ ih =>
      intro q hq
      cases hq with
      | head => exact LawfulSerde.toVec_of_fromValue hp
      | tail _ hq => exact ih q hq

theorem toVec_of_jobs [LawfulSerde P] {jobs : List (Job P ι)}
    (hjobs : ∀ job ∈ jobs, decode job.raw = .ok job.patches) :
    ∀ p ∈ jobs.flatMap Job.patches, ∃ b, Serde.toVec p = .ok b := by
  intro p hp
  obtain ⟨job, hjob, hp⟩ := List.mem_flatMap.mp hp
  exact toVec_of_decode (hjobs job hjob) p hp

section Minted

variable [ReducibleContract D] {d d₁ : D} {ps : List P} {rs : List Record} {vs : List V}

omit [Serde P] in
theorem mintedVersions_length (last : ℕ) (vs : List V) :
    (mintedVersions last vs).length = vs.length := by
  induction vs generalizing last with
  | nil => rfl
  | cons v vs ih => simp [mintedVersions, ih]

omit [Serde P] in
theorem minted_cons_mint {p : P} {v : V} (applied : apply d p = (.ok (some v), d₁))
    (vs : List V) : mintedVersions (version d) (v :: vs) =
      some (Versioned.version v) :: mintedVersions (version d₁) vs := by
  obtain ⟨hview, hv⟩ := apply_mint (d := d) (p := p) (by rw [applied])
  rw [applied] at hview
  have hd₁ : version d₁ = version d + 1 := by rw [version, hview, hv]
  have hlt : version d < Versioned.version v := by omega
  rw [mintedVersions, if_pos hlt, max_eq_right hlt.le, hv, hd₁]

omit [Serde P] in
theorem minted_cons_identity {p : P} (applied : apply d p = (.ok none, d₁)) (vs : List V) :
    mintedVersions (version d) (Reducible.view d₁ :: vs) =
      none :: mintedVersions (version d₁) vs := by
  have hsame : Same d₁ d := by
    simpa [applied] using apply_identity (d := d) (p := p) (by rw [applied])
  have hd₁ : Versioned.version (Reducible.view d₁) = version d := same_version hsame
  rw [mintedVersions, hd₁, if_neg (lt_irrefl _), max_self, same_version hsame]

/-- The slots of a batch do not depend on what is folded behind it. -/
theorem mintedVersions_append (h : Log.Folds d ps rs vs d₁) (rest : List V) :
    mintedVersions (version d) (vs ++ rest) =
      mintedVersions (version d) vs ++ mintedVersions (version d₁) rest := by
  induction h with
  | nil d => rfl
  | mint encoded applied _ ih =>
      rw [List.cons_append, minted_cons_mint applied, minted_cons_mint applied, ih,
        List.cons_append]
  | identity encoded applied _ ih =>
      rw [List.cons_append, minted_cons_identity applied, minted_cons_identity applied, ih,
        List.cons_append]

/-- The patches a request sent, paired with its slots, are its records. -/
theorem kept_shows (h : Log.Folds d ps rs vs d₁) {raw : List Json}
    (hraw : List.Forall₂ (fun j p => Serde.fromValue j = .ok p) raw ps) :
    List.Forall₂ (Entry.Shows P) (kept raw (mintedVersions (version d) vs)) rs := by
  induction h generalizing raw with
  | nil d =>
      cases hraw
      exact .nil
  | mint encoded applied _ ih =>
      cases hraw with
      | cons hp hps =>
          rw [minted_cons_mint applied, kept_cons_some]
          exact .cons ⟨rfl, _, hp, encoded⟩ (ih hps)
  | identity encoded applied _ ih =>
      cases hraw with
      | cons hp hps =>
          rw [minted_cons_identity applied, kept_cons_none]
          exact ih hps

end Minted

theorem Entry.versions_of_shows {es : List Entry} {rs : List Record}
    (h : List.Forall₂ (Entry.Shows P) es rs) :
    es.map Entry.version = rs.map Record.version := by
  induction h with
  | nil => rfl
  | cons hhead _ ih => rw [List.map_cons, List.map_cons, hhead.1, ih]

/-! ### Requests and their commands -/

/-- The command a request came from. -/
def Job.command (job : Job P ι) : Command ι := .append job.raw job.durability job.reply

def Job.Decoded (job : Job P ι) : Prop := decode job.raw = .ok job.patches

theorem decoded_nil : ∀ job ∈ ([] : List (Job P ι)), job.Decoded := by simp

omit [Serde P] in
theorem giveBack_taken (jobs : List (Job P ι)) :
    giveBack (jobs.map Job.taken) (jobs.map fun job => job.patches.length)
      (jobs.flatMap Job.patches) = jobs := by
  induction jobs with
  | nil => rfl
  | cons job jobs ih =>
      simp only [List.map_cons, List.flatMap_cons, giveBack, List.take_left, List.drop_left]
      rw [ih]
      rfl

theorem rank_le_maxRank {asked : List Durability} {d : Durability} (h : d ∈ asked) :
    rank d ≤ rank (maxRank asked) := by
  have hgrows : ∀ (ds : List Durability) (best : Durability),
      rank best ≤ rank (ds.foldl (fun best d => if rank best ≤ rank d then d else best) best) ∧
      ∀ d ∈ ds,
        rank d ≤ rank (ds.foldl (fun best d => if rank best ≤ rank d then d else best) best) := by
    intro ds
    induction ds with
    | nil => simp
    | cons d ds ih =>
        intro best
        obtain ⟨hbest, hall⟩ := ih (if rank best ≤ rank d then d else best)
        have hstep : rank best ≤ rank (if rank best ≤ rank d then d else best) ∧
            rank d ≤ rank (if rank best ≤ rank d then d else best) := by
          split <;> omega
        refine ⟨hstep.1.trans hbest, fun d' hd' => ?_⟩
        cases hd' with
        | head => exact hstep.2.trans hbest
        | tail _ hd' => exact hall d' hd'
  exact (hgrows asked .memory).2 d h

theorem maxRank_durable {asked : List Durability} (h : .durable ∈ asked) :
    maxRank asked = .durable := by
  have hle := rank_le_maxRank h
  cases hmax : maxRank asked with
  | memory => simp [hmax, rank] at hle
  | written => simp [hmax, rank] at hle
  | durable => rfl

@[simp] theorem maxRank_singleton (d : Durability) : maxRank [d] = d := by
  cases d <;> rfl

/-! ### What a commit does -/

variable [ReducibleContract D] [StorageContract S]

/-- The loop hands every request its own records. -/
theorem deal_serial {jobs : List (Job P ι)} (hjobs : ∀ job ∈ jobs, job.Decoded) {d d' : D}
    {rs : List Record} {vs : List V} {synced : ℕ}
    (h : Log.Folds d (jobs.flatMap Job.patches) rs vs d')
    (hsynced : (∃ job ∈ jobs, job.durability = .durable) → ∀ r ∈ rs, r.version ≤ synced) :
    ∃ entries acks,
      deal synced ((jobs.map Job.taken).zip (jobs.map fun job => job.patches.length))
        (mintedVersions (version d) vs) =
          (entries, acks) ∧
      Serial S d (jobs.map Job.command)
        (acks.map fun (reply, ack) => (reply, .append (.ok ack))) rs d' ∧
      List.Forall₂ (Entry.Shows P) entries rs := by
  induction jobs generalizing d rs vs with
  | nil =>
      cases h
      exact ⟨[], [], rfl, .nil (same_refl _), .nil⟩
  | cons job jobs ih =>
      obtain ⟨rs₁, rs₂, vs₁, vs₂, d₁, h₁, h₂, rfl, rfl⟩ := h.split
      have hlength : (mintedVersions (version d) vs₁).length = job.patches.length := by
        rw [mintedVersions_length, h₁.views_length]
      obtain ⟨entries, acks, hdeal, hserial, hshows⟩ := ih
        (fun j hj => hjobs j (List.mem_cons_of_mem _ hj)) h₂
        (fun ⟨j, hj, hdurable⟩ r hr => hsynced ⟨j, List.mem_cons_of_mem _ hj, hdurable⟩ r
          (List.mem_append_right _ hr))
      have hdecoded : decode job.raw = .ok job.patches := hjobs job List.mem_cons_self
      have hkept := kept_shows h₁ (decode_eq_ok_iff.mp hdecoded)
      refine ⟨kept job.raw (mintedVersions (version d) vs₁) ++ entries,
        (job.reply, ⟨(kept job.raw (mintedVersions (version d) vs₁)).map Entry.version, synced⟩) ::
          acks, ?_, ?_, List.rel_append hkept hshows⟩
      · rw [mintedVersions_append h₁, List.map_cons, List.map_cons, List.zip_cons_cons, deal,
          ← hlength, List.take_left, List.drop_left, hdeal]
        rfl
      · refine .accepted hdecoded h₁ (Entry.versions_of_shows hkept) (fun hdurable r hr => ?_)
          hserial
        exact hsynced ⟨job, List.mem_cons_self, hdurable⟩ r (List.mem_append_left _ hr)

namespace Actor

/-- What serving a queue makes of an actor on its history: the records it left,
in storage and in the ring. -/
structure Advances (a : Actor D S) (L : Ledger V) (queue : List (Command ι))
    (out : List (ι × Reply)) (rs : List Record) (a' : Actor D S) (L' : Ledger V) : Prop where
  serial : Serial S a.log.data queue out rs a'.log.data
  sound : a'.log.Sound L'
  taken : L'.taken = L.taken ++ rs
  entries : ∃ es, List.Forall₂ (Entry.Shows P) es rs ∧
    a'.shared.ring.entries = (a.shared.ring.entries ++ es).rtake a.shared.ring.capacity
  capacity : a'.shared.ring.capacity = a.shared.ring.capacity
  watermark : a.shared.watermark = a.log.watermark → a'.shared.watermark = a'.log.watermark
  batch : a'.batch = a.batch

theorem Advances.trans {a a' a'' : Actor D S} {L L' L'' : Ledger V}
    {queue queue' : List (Command ι)} {out out' : List (ι × Reply)} {rs rs' : List Record}
    (h : Advances a L queue out rs a' L') (h' : Advances a' L' queue' out' rs' a'' L'') :
    Advances a L (queue ++ queue') (out ++ out') (rs ++ rs') a'' L'' where
  serial := h.serial.append h'.serial
  sound := h'.sound
  taken := by rw [h'.taken, h.taken, List.append_assoc]
  entries := by
    obtain ⟨es, hes, hring⟩ := h.entries
    obtain ⟨es', hes', hring'⟩ := h'.entries
    refine ⟨es ++ es', List.rel_append hes hes', ?_⟩
    rw [hring', hring, h.capacity, rtake_rtake_append, List.append_assoc]
  capacity := h'.capacity.trans h.capacity
  watermark hw := h'.watermark (h.watermark hw)
  batch := h'.batch.trans h.batch

/-- Nothing was recorded and the log is as good as it was. -/
theorem Advances.of_log {a : Actor D S} {L L' : Ledger V} {queue : List (Command ι)}
    {out : List (ι × Reply)} {log : Log D S} {checkpointed : ℕ}
    (hserial : Serial S a.log.data queue out [] log.data) (hsound : log.Sound L')
    (htaken : L'.taken = L.taken) (hw : log.watermark = a.log.watermark) :
    Advances a L queue out [] { a with log, checkpointed } L' where
  serial := hserial
  sound := hsound
  taken := by rw [htaken, List.append_nil]
  entries := by
    refine ⟨[], .nil, ?_⟩
    have hbounded := a.shared.ring.bounded
    rw [List.append_nil, List.rtake, Nat.sub_eq_zero_of_le hbounded, List.drop_zero]
  capacity := rfl
  watermark h := h.trans hw.symm
  batch := rfl

omit [Serde P] [ReducibleContract D] in
theorem autoCheckpoint_spec {a : Actor D S} {L : Ledger V} (h : a.log.Sound L) :
    ∃ L', a.autoCheckpoint.log.Sound L' ∧ L'.taken = L.taken ∧
      a.autoCheckpoint.log.data = a.log.data ∧
      a.autoCheckpoint.log.watermark = a.log.watermark ∧
      a.autoCheckpoint.shared = a.shared ∧ a.autoCheckpoint.batch = a.batch := by
  obtain ⟨L', hsound, htaken, hdata, hw⟩ := h.checkpoint
  unfold autoCheckpoint
  split
  · split
    · rename_i log hlog
      rw [hlog] at hsound hdata hw
      exact ⟨L', hsound, htaken, hdata, hw, rfl, rfl⟩
    · rename_i log hlog
      rw [hlog] at hsound hdata hw
      exact ⟨L', hsound, htaken, hdata, hw, rfl, rfl⟩
  · exact ⟨L, h, rfl, rfl, rfl, rfl, rfl⟩

omit [Serde P] [ReducibleContract D] in
/-- Publishing pushes the entries and moves the watermark to where the log is. -/
theorem publish_spec {a : Actor D S} {L : Ledger V} (h : a.log.Sound L) (entries : List Entry) :
    ∃ L', (a.publish entries).log.Sound L' ∧ L'.taken = L.taken ∧
      (a.publish entries).log.data = a.log.data ∧
      (a.publish entries).log.watermark = a.log.watermark ∧
      (a.publish entries).shared.ring = a.shared.ring.push entries ∧
      (a.publish entries).shared.watermark =
        (if entries = [] then a.shared.watermark else a.log.watermark) ∧
      (a.publish entries).batch = a.batch := by
  cases entries with
  | nil => exact ⟨L, h, rfl, rfl, rfl, rfl, rfl, rfl⟩
  | cons entry entries =>
      simp only [publish, List.isEmpty_cons, Bool.false_eq_true, if_false, reduceCtorEq]
      generalize ha₁ : ({ a with shared := { a.shared with
        ring := a.shared.ring.push (entry :: entries),
        watermark := a.log.watermark } } : Actor D S) = a₁
      have h₁ : a₁.log.Sound L := by rw [← ha₁]; exact h
      obtain ⟨L', hsound, htaken, hdata, hw, hshared, hbatch⟩ := autoCheckpoint_spec h₁
      refine ⟨L', hsound, htaken, ?_, ?_, ?_, ?_, ?_⟩
      · rw [hdata, ← ha₁]
      · rw [hw, ← ha₁]
      · rw [hshared, ← ha₁]
      · rw [hshared, ← ha₁]
      · rw [hbatch, ← ha₁]

/-- A log that took records, published with their entries. -/
theorem Advances.publish {a : Actor D S} {L : Ledger V} {queue : List (Command ι)}
    {out : List (ι × Reply)} {rs : List Record} {entries : List Entry} {log : Log D S}
    (h : a.log.Sound L) (hserial : Serial S a.log.data queue out rs log.data)
    (hsound : log.Sound (L.push rs)) (hshows : List.Forall₂ (Entry.Shows P) entries rs)
    (hend : version log.data = version a.log.data + rs.length) (metrics : Metrics) :
    ∃ L', Advances a L queue out rs
      (Actor.publish { a with log, shared := { a.shared with metrics } } entries) L' := by
  obtain ⟨L', hsound', htaken, hdata, hw, hring, hwater, hbatch⟩ := publish_spec
    (a := { a with log, shared := { a.shared with metrics } }) hsound entries
  refine ⟨L', ?_, hsound', by rw [htaken, Ledger.push_taken], ⟨entries, hshows, ?_⟩, ?_, ?_,
    hbatch⟩
  · rw [hdata]
    exact hserial
  · rw [hring, Ring.push_entries]
  · rw [hring, Ring.push_capacity]
  · intro hpublished
    rw [hwater, hw]
    split
    · rename_i hnil
      -- Nothing minted, so the log has not moved either.
      have hrs : rs = [] := by
        subst hnil
        cases hshows
        rfl
      rw [hsound.version, h.version, hrs, List.length_nil, Nat.add_zero] at hend
      exact hpublished.trans hend.symm
    · rfl

end Actor

end Lug
