import Lug.Core.Recovery

/-!
What a history is good for: every cold start that finds it leads to the structure it was
recorded from. It stays so when records are added to it that lead on from there, whoever
made them, and it outlives the process.
-/

namespace Lug

open Reducible ReducibleContract StorageContract Resumable Runs

variable {D S P V : Type} [Versioned V] [Serde P] [Reducible D P V] [Storage S V]
  [ReducibleContract D]

namespace Log

/-! ### Replaying -/

/-- The structure folds the record: it is the next one, and its patch mints its version. -/
inductive Folded (d : D) (r : Record) : D → Prop
  | mk {patch : P} {view : Option V} {d₁ : D} (next : ¬ r.version ≤ version d)
      (decoded : Serde.fromSlice r.patch = .ok patch) (applied : apply d patch = (.ok view, d₁))
      (minted : view.elim 0 Versioned.version = r.version) : Folded d r d₁

omit [ReducibleContract D] in
theorem Folded.replay {d d₁ : D} {r : Record} (h : Folded d r d₁) (rs : List Record) :
    replay (S := S) d (r :: rs) = replay d₁ rs := by
  cases h with
  | mk next decoded applied minted =>
      rw [replay_cons, if_neg next, decoded]
      simp [applied, minted]

omit [ReducibleContract D] in
/-- A record that is replayed is either skipped or folded. -/
theorem replay_cons_ok {d e : D} {r : Record} {rs : List Record}
    (h : replay (S := S) d (r :: rs) = .ok e) :
    (r.version ≤ version d ∧ replay (S := S) d rs = .ok e) ∨
      ∃ d₁, Folded d r d₁ ∧ replay (S := S) d₁ rs = .ok e := by
  rw [replay_cons] at h
  split_ifs at h with hcovered
  · exact Or.inl ⟨hcovered, h⟩
  · cases hpatch : Serde.fromSlice (P := P) r.patch with
    | error msg => simp [hpatch] at h
    | ok patch =>
        rcases happly : apply d patch with ⟨_ | view, d₁⟩
        · simp [hpatch, happly] at h
        · simp only [hpatch, happly] at h
          split_ifs at h with hminted
          exact Or.inr ⟨d₁, .mk hcovered hpatch happly (not_not.mp hminted), h⟩

omit [ReducibleContract D] in
/-- A replay goes on from where it led. -/
theorem replay_append {d e : D} {xs : List Record} (h : replay (S := S) d xs = .ok e)
    (ys : List Record) : replay (S := S) d (xs ++ ys) = replay e ys := by
  induction xs generalizing d with
  | nil =>
      cases h
      rfl
  | cons r xs ih =>
      rw [List.cons_append]
      rcases replay_cons_ok h with ⟨hcovered, hrest⟩ | ⟨d₁, hfolded, hrest⟩
      · rw [replay_cons, if_pos hcovered]
        exact ih hrest
      · rw [hfolded.replay]
        exact ih hrest

/-- A record that comes next moves the version by one. -/
theorem Folded.version {d d₁ : D} {r : Record} (h : Folded d r d₁) :
    Reducible.version d₁ = Reducible.version d + 1 := by
  cases h with
  | @mk patch view _ next decoded applied minted =>
      have hd₁ := version_apply_ok (d := d) (p := patch) (o := view) (by rw [applied])
      rw [applied] at hd₁
      cases view with
      | none => exact absurd (minted.symm.trans_le (Nat.zero_le _)) next
      | some v => exact hd₁

/-- Replaying records that come next moves the version by one for each of them. -/
theorem version_replay {d e : D} {rs : List Record}
    (hrun : Consecutive Record.version (version d + 1) rs) (h : replay (S := S) d rs = .ok e) :
    version e = version d + rs.length := by
  induction rs generalizing d with
  | nil =>
      cases h
      rfl
  | cons r rs ih =>
      obtain ⟨hr, hrest⟩ := hrun
      rcases replay_cons_ok h with ⟨hcovered, -⟩ | ⟨d₁, hfolded, hafter⟩
      · omega
      · have hd₁ := hfolded.version
        have hend := ih (by rwa [hd₁]) hafter
        rw [hend, hd₁, List.length_cons]
        omega

variable [Resumable D]

/-- Structures that show the same fold a record alike. -/
theorem Folded.alike {d e d₁ : D} {r : Record} (hlike : Alike d e) (h : Folded d r d₁) :
    ∃ e₁, Folded e r e₁ ∧ Alike d₁ e₁ := by
  cases h with
  | @mk patch view _ next decoded applied minted =>
      have hresult := alike_apply hlike patch
      have hstate := alike_apply_state hlike patch
      rw [applied] at hresult hstate
      obtain ⟨view', hview', hrel⟩ := hresult.ok_left
      have hminted : view'.elim 0 Versioned.version = r.version := by
        rw [← minted]
        cases hrel with
        | none => rfl
        | some hview => exact hview.version.symm
      exact ⟨_, .mk (alike_version hlike ▸ next) decoded (Prod.ext hview' rfl) hminted, hstate⟩

/-- Structures that show the same replay alike. -/
theorem replay_alike {d e d' : D} {rs : List Record} (hlike : Alike d e)
    (h : replay (S := S) d rs = .ok d') : ∃ e', replay (S := S) e rs = .ok e' ∧ Alike d' e' := by
  induction rs generalizing d e with
  | nil =>
      cases h
      exact ⟨e, rfl, hlike⟩
  | cons r rs ih =>
      rcases replay_cons_ok h with ⟨hcovered, hrest⟩ | ⟨d₁, hfolded, hrest⟩
      · obtain ⟨e', hreplay, halike⟩ := ih hlike hrest
        rw [alike_version hlike] at hcovered
        exact ⟨e', by rw [replay_cons, if_pos hcovered, hreplay], halike⟩
      · obtain ⟨e₁, hfolded', halike₁⟩ := hfolded.alike hlike
        obtain ⟨e', hreplay, halike⟩ := ih halike₁ hrest
        exact ⟨e', by rw [hfolded'.replay, hreplay], halike⟩

variable (S) in
/-- The records lead from one structure to the other, whatever shows the same as the one. -/
def Leads (d : D) (rs : List Record) (d' : D) : Prop :=
  ∀ e, Alike d e → ∃ e', replay (S := S) e rs = .ok e' ∧ Alike d' e'

theorem Leads.of_replays (hd : Decodes D) {d d' : D} {rs : List Record} (h : Replays d rs d') :
    Leads S d rs d' := by
  intro e hlike
  obtain ⟨e', hreplay, halike⟩ := replay_of_replays (S := S) hd (h.congr_left hlike)
  exact ⟨e', hreplay, alike_symm halike⟩

theorem Leads.of_replay {d d' : D} {rs : List Record} (h : replay (S := S) d rs = .ok d') :
    Leads S d rs d' := fun _ hlike => replay_alike hlike h

theorem Leads.congr_left {d d' e : D} {rs : List Record} (h : Leads S d rs d')
    (hlike : Alike d e) : Leads S e rs d' := fun _ h' => h _ (alike_trans hlike h')

/-- One run of records leads on from another. -/
theorem Leads.trans {d e f : D} {rs rs' : List Record} (h : Leads S d rs e)
    (h' : Leads S e rs' f) : Leads S d (rs ++ rs') f := by
  intro d' hlike
  obtain ⟨e', hreplay, halike⟩ := h d' hlike
  obtain ⟨f', hreplay', halike'⟩ := h' e' halike
  exact ⟨f', by rw [replay_append hreplay, hreplay'], halike'⟩

/-- The log `l'` shows what `l` does, with the records on top that come next. -/
def Grown (l l' : Log D S) : Prop :=
  ∃ rs, Consecutive Record.version (l.watermark + 1) rs ∧
    l'.watermark = l.watermark + rs.length ∧ Leads S l.data rs l'.data

theorem Grown.of_alike {l l' : Log D S} (hwatermark : l'.watermark = l.watermark)
    (hlike : Alike l'.data l.data) : Grown l l' :=
  ⟨[], trivial, hwatermark, fun e h => ⟨e, rfl, alike_trans hlike h⟩⟩

theorem Grown.trans {l l' l'' : Log D S} (h : Grown l l') (h' : Grown l' l'') : Grown l l'' := by
  obtain ⟨rs, hrun, hwatermark, hleads⟩ := h
  obtain ⟨rs', hrun', hwatermark', hleads'⟩ := h'
  refine ⟨rs ++ rs', consecutive_append.mpr ⟨hrun, ?_⟩, ?_, hleads.trans hleads'⟩
  · rwa [hwatermark, Nat.add_right_comm] at hrun'
  · rw [hwatermark', hwatermark, List.length_append, Nat.add_assoc]

/-! ### Cold starts -/

/-- What a cold start begins with. -/
def resumed (zero : D) : Option V → Except (Reducible.Err D) D
  | some view => Reducible.resume view
  | none => .ok zero

omit [Serde P] [Storage S V] [ReducibleContract D] [Resumable D] in
/-- What was appended last to a history is what a cold start finds last. -/
theorem found_push {H : Ledger V} {rs : List Record} {found : Recovered V}
    (hnew : ∀ v, H.header = some v → ∀ r ∈ rs, Versioned.version v < r.version)
    (hf : found.Resumes (H.push rs)) :
    ∃ tail, found.tail = tail ++ rs ∧ (⟨found.header, tail⟩ : Recovered V).Resumes H := by
  obtain ⟨covered, htaken, hcovered⟩ := hf.tail
  have hheader := hf.header
  rw [Ledger.push_taken] at htaken
  obtain ⟨tail, htail, hold⟩ : ∃ tail, found.tail = tail ++ rs ∧ H.taken = covered ++ tail := by
    rcases List.append_eq_append_iff.mp htaken with ⟨x, rfl, hrs⟩ | ⟨tail, htaken, htail⟩
    · have hx : x = [] := by
        rw [List.eq_nil_iff_forall_not_mem]
        intro r hr
        obtain ⟨v, hv, hle⟩ := hcovered r (List.mem_append_right _ hr)
        have hlt := hnew v hv r (by rw [hrs]; exact List.mem_append_left _ hr)
        omega
      subst hx
      exact ⟨[], hrs.symm, by simp⟩
    · exact ⟨tail, htail, htaken⟩
  exact ⟨tail, htail, hheader, covered, hold, hcovered⟩

variable (S) in
/-- Every cold start that finds the history leads to a structure like `d`. -/
structure Recalls (zero : D) (H : Ledger V) (d : D) : Prop where
  header_le : ∀ v, H.header = some v → Versioned.version v ≤ version d
  taken_le : ∀ r ∈ H.taken, r.version ≤ version d
  found {found : Recovered V} : found.Resumes H → ∃ start e, resumed zero found.header = .ok start ∧
    replay (S := S) start found.tail = .ok e ∧ Alike e d

namespace Recalls

variable {zero d d' : D} {H : Ledger V}

theorem start (zero : D) : Recalls S zero ⟨[], none⟩ zero where
  header_le v hv := by cases hv
  taken_le r hr := absurd hr List.not_mem_nil
  found {found} hf := by
    have hheader : found.header = none := by simpa using hf.header
    obtain ⟨covered, htaken, -⟩ := hf.tail
    have htail : found.tail = [] := (List.append_eq_nil_iff.mp htaken.symm).2
    exact ⟨zero, zero, by rw [hheader]; rfl, by rw [htail]; rfl, alike_refl zero⟩

theorem congr (h : Recalls S zero H d) (hlike : Alike d d') : Recalls S zero H d' where
  header_le v hv := (alike_version hlike) ▸ h.header_le v hv
  taken_le r hr := (alike_version hlike) ▸ h.taken_le r hr
  found hf := by
    obtain ⟨start, e, hstart, hreplay, halike⟩ := h.found hf
    exact ⟨start, e, hstart, hreplay, alike_trans halike hlike⟩

theorem push (h : Recalls S zero H d) {rs : List Record}
    (hrun : Consecutive Record.version (version d + 1) rs)
    (hend : version d' = version d + rs.length) (hrs : Leads S d rs d') :
    Recalls S zero (H.push rs) d' where
  header_le v hv := by
    have hle := h.header_le v hv
    omega
  taken_le r hr := by
    rw [Ledger.push_taken, List.mem_append] at hr
    cases hr with
    | inl hr =>
        have hle := h.taken_le r hr
        omega
    | inr hr =>
        have hbounds := hrun.bounds hr
        omega
  found {found} hf := by
    obtain ⟨tail, htail, hold⟩ := found_push (fun v hv r hr => by
      have hle := h.header_le v hv
      have hbounds := hrun.bounds hr
      omega) hf
    obtain ⟨start, e, hstart, hreplay, halike⟩ := h.found hold
    obtain ⟨e', hreplay', halike'⟩ := hrs e (alike_symm halike)
    refine ⟨start, e', hstart, ?_, alike_symm halike'⟩
    rw [htail, replay_append hreplay]
    exact hreplay'

theorem checkpoint (h : Recalls S zero H d) :
    Recalls S zero (H.checkpoint (Reducible.view d)) d where
  header_le v hv := by
    cases hv
    exact le_rfl
  taken_le := h.taken_le
  found {found} hf := by
    obtain ⟨v, hv, hview⟩ : ∃ v, found.header = some v ∧ SameView v (Reducible.view d) := by
      have hheader := hf.header
      rw [Ledger.checkpoint_header, Option.map_some, Option.map_eq_some_iff] at hheader
      obtain ⟨v, hv, hsame⟩ := hheader
      exact ⟨v, hv, congrArg Prod.fst hsame, congrArg Prod.snd hsame⟩
    obtain ⟨e, hresume, hlike⟩ := resume_ok (D := D) v
    have halike := hlike d hview
    obtain ⟨covered, htaken, -⟩ := hf.tail
    have hold : ∀ r ∈ found.tail, r.version ≤ version e := fun r hr => by
      rw [alike_version halike]
      refine h.taken_le r ?_
      rw [Ledger.checkpoint_taken] at htaken
      rw [htaken]
      exact List.mem_append_right _ hr
    refine ⟨e, e, by rw [hv]; exact hresume, ?_, halike⟩
    have hskip := replay_covered (S := S) hold []
    rwa [List.append_nil] at hskip

end Recalls

/-! ### Logs that can be recalled -/

variable [StorageContract S]

/-- The invariant of a log that cold starts lead to, whoever opened it. -/
structure Recalled (zero : D) (l : Log D S) (H : Ledger V) : Prop where
  holds : Holds l.storage H
  version : version l.data = l.watermark
  length : H.taken.length = l.watermark
  recalls : Recalls S zero H l.data

/-- The log `l'` goes on from `l`, and so does its history from `H`. -/
def Onwards (zero : D) (l : Log D S) (H : Ledger V) (l' : Log D S) : Prop :=
  ∃ H', Recalled zero l' H' ∧ H.taken <+: H'.taken ∧ Grown l l'

namespace Recalled

variable {zero : D} {l : Log D S} {H : Ledger V}

theorem append (hd : Decodes D) (h : Recalled zero l H) (ps : List P) (durability : Durability) :
    Onwards zero l H (l.append ps durability).2 := by
  have houtcome := append_outcome ps durability (fun p _ => hd.encodes p) h.holds h.version
  generalize (l.append ps durability).1 = o at houtcome
  generalize (l.append ps durability).2 = l' at houtcome
  have hkept : Same l'.data l.data → l'.watermark = l.watermark → Holds l'.storage H →
      Onwards zero l H l' := by
    intro hsame hwatermark hholds
    have hlike := alike_of_same hsame
    exact ⟨H, ⟨hholds, by rw [same_version hsame, hwatermark, h.version], hwatermark ▸ h.length,
      h.recalls.congr (alike_symm hlike)⟩, List.prefix_rfl, .of_alike hwatermark hlike⟩
  cases houtcome with
  | rejected _ same watermark holds => exact hkept same watermark holds
  | refused same watermark holds => exact hkept same watermark holds
  | @taken _ rs vs _ folds watermark holds _ =>
      obtain ⟨hrun, hend⟩ := folds.versions
      have hleads : Leads S l.data rs l'.data := .of_replays hd (.of_folds folds)
      have hwatermark : l'.watermark = l.watermark + rs.length := by
        rw [watermark, hend, h.version]
      refine ⟨H.push rs, ⟨holds, watermark.symm, ?_, h.recalls.push hrun hend hleads⟩,
        List.prefix_append .., rs, h.version ▸ hrun, hwatermark, hleads⟩
      rw [hwatermark, Ledger.push_taken, List.length_append, h.length]

theorem checkpoint (h : Recalled zero l H) : Onwards zero l H l.checkpoint.2 := by
  obtain ⟨s, synced, H', hlog, hholds, hH'⟩ := checkpoint_holds h.holds
  rw [hlog]
  cases hH' with
  | inl hkept =>
      subst hkept
      exact ⟨_, ⟨hholds, h.version, h.length, h.recalls⟩, List.prefix_rfl,
        .of_alike rfl (alike_refl l.data)⟩
  | inr hmoved =>
      subst hmoved
      exact ⟨_, ⟨hholds, h.version, h.length, h.recalls.checkpoint⟩, List.prefix_rfl,
        .of_alike rfl (alike_refl l.data)⟩

theorem sync (h : Recalled zero l H) : Onwards zero l H l.sync.2 := by
  have hheld := sync_holds h.holds
  unfold Log.sync
  rcases hs : Storage.sync l.storage with ⟨e | ⟨⟩, s⟩
  · rw [hs] at hheld
    exact ⟨H, ⟨hheld, h.version, h.length, h.recalls⟩, List.prefix_rfl,
      .of_alike rfl (alike_refl l.data)⟩
  · rw [hs] at hheld
    exact ⟨H, ⟨hheld, h.version, h.length, h.recalls⟩, List.prefix_rfl,
      .of_alike rfl (alike_refl l.data)⟩

theorem step (hd : Decodes D) (h : Recalled zero l H) (op : Operation P) :
    Onwards zero l H (l.step op) := by
  cases op with
  | append ps durability => exact h.append hd ps durability
  | checkpoint => exact h.checkpoint
  | sync => exact h.sync

end Recalled

omit [ReducibleContract D] [Resumable D] [StorageContract S] in
/-- A log opens with what its storage found, replayed. -/
theorem open_replayed {zero start : D} {s : S} {l : Log D S} {found : Recovered V}
    (hload : (Storage.load s).1 = .ok found) (hstart : resumed zero found.header = .ok start)
    (hopen : Log.open zero s = .ok l) : replay (S := S) start found.tail = .ok l.data := by
  unfold Log.open at hopen
  rcases hloaded : Storage.load s with ⟨_, s'⟩
  rw [hloaded] at hload
  obtain rfl := hload
  simp only [hloaded] at hopen
  split at hopen
  · cases hopen
  · rename_i data hdata
    obtain rfl : data = start := by
      cases hheader : found.header with
      | none =>
          rw [hheader] at hstart
          simp only [hheader] at hdata
          cases hdata
          cases hstart
          rfl
      | some view =>
          rw [hheader] at hstart
          have hstart : Reducible.resume view = .ok start := hstart
          simp only [hheader, hstart, Except.mapError] at hdata
          exact (Except.ok.inj hdata).symm
    split at hopen
    · cases hopen
    · cases hopen
      assumption

/-- A log that opens on a history and the records behind it shows both. -/
theorem Recalls.opens {zero d : D} {H : Ledger V} {extra : List Record} {s : S} {l : Log D S}
    {found : Recovered V} (h : Recalls S zero H d) (hversion : version d = H.taken.length)
    (hrun : Consecutive Record.version (version d + 1) extra)
    (hload : (Storage.load s).1 = .ok found) (hfound : found.Resumes (H.push extra))
    (hopen : Log.open zero s = .ok l) :
    Leads S d extra l.data ∧ l.watermark = version d + extra.length ∧
      (Holds (Storage.load s).2 (H.push extra) → Recalled zero l (H.push extra)) := by
  obtain ⟨tail, htail, hold⟩ := found_push (fun v hv r hr => by
    have hle := h.header_le v hv
    have hbounds := hrun.bounds hr
    omega) hfound
  obtain ⟨start, e, hstart, hreplay, halike⟩ := h.found hold
  have hreplay : replay (S := S) start tail = .ok e := hreplay
  -- the log folds the rest of what it found from there on
  have hfolded : replay (S := S) e extra = .ok l.data := by
    rw [← replay_append hreplay, ← htail]
    exact open_replayed hload hstart hopen
  have hbegin := alike_version halike
  have hend := version_replay (by rw [hbegin]; exact hrun) hfolded
  rw [hbegin] at hend
  have hleads := (Leads.of_replay hfolded).congr_left halike
  obtain ⟨hwatermark, -, hstorage⟩ := open_data hopen
  have hgrown : l.watermark = version d + extra.length := hwatermark.symm.trans hend
  refine ⟨hleads, hgrown, fun hholds =>
    ⟨hstorage ▸ hholds, hwatermark, ?_, h.push hrun hend hleads⟩⟩
  rw [Ledger.push_taken, List.length_append, ← hversion, hgrown]

/-! ### What the storage is asked for -/

end Log

end Lug
