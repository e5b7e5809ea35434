import Lug.Wal.Tail

/-!
The versions of a store are counted in a `u64`. Sums on them are made in several
places, and only some of these look at the top of the counter first.
-/

namespace Lug.Wal

open Octets Faulty Runs

section

variable [Crc32] {V : Type} [Versioned V] [HeaderSerde V] {log : Journal} {L : Layout} {stale : ℕ}
  {env : Env} {m m' : Machine} {d : Dir} {records : List Record}

/-! ### The sums an operation makes -/

/-- A batch that an append looks at. -/
structure Machine.Tries (m : Machine) (records : List Record) : Prop where
  nonempty : records ≠ []
  clean : m.store.poison = none

/-- The operation scans the segment files of the directory. -/
def Machine.Scans (m : Machine) : Event V → Prop
  | .load => True
  | .append records => m.Tries records ∧ m.store.recovered = false
  | _ => False

/-- The versions that an operation adds one to, and does not look for the top of the
counter. -/
inductive Adds (env : Env) (m : Machine) : Event V → ℕ → Prop
  /-- `recover`, of every record it visits. -/
  | visited {event : Event V} {r : Record} : m.Scans event → r ∈ recordsOf m.dir.segments →
      Adds env m event r.version
  /-- `recover`, of the header, to compare it with the first record of the tail. -/
  | tail {header : Option (Header V)} {r : Record} : headerOf V m.dir = .ok header →
      r ∈ recordsOf m.dir.segments → versionOf header < r.version →
        Adds env m .load (versionOf header)
  /-- `next_version`. -/
  | next {records : List Record} {m' : Machine} : m.Tries records →
      ensureRecovered env m = (.ok (), m') →
        Adds env m (.append records) (m'.store.last.elim m'.store.headerVersion Segment.last)
  /-- `reclaim`, as soon as there are two segments. -/
  | reclaim {view : V} : 1 < m.store.segments.length →
      Adds env m (.writeHeader view) (Versioned.version view)

/-- An append ensures that the store is settled, and checks the batch. -/
theorem ends_append_checked {Q : Exit Err Unit → Machine → Prop} (htries : m.Tries records)
    (h : Ends (ensureRecovered env) (fun x m' => match x with
      | .ok _ =>
          match validate m'.store.nextVersion records with
          | .ok _ => ∀ y m'', Q y m''
          | .error e => Q (.error e) m'
      | .error e => Q (.error e) m'
      | .died => Q .died m') m) : Ends (append env records) Q m := by
  have hnonempty : ¬records.isEmpty := fun hempty => htries.nonempty (List.isEmpty_iff.mp hempty)
  rw [append, if_neg hnonempty, ends_bind, ends_get, after_ok, htries.clean]
  dsimp only
  rw [ends_bind]
  refine h.mono ?_
  rintro x m₁ hends
  cases x with
  | error e => exact hends
  | died => exact hends
  | ok u =>
      rw [after_ok, ends_bind, ends_get, after_ok, ends_bind]
      dsimp only at hends
      cases hvalid : validate m₁.store.nextVersion records with
      | error e =>
          rw [hvalid] at hends
          exact hends
      | ok u =>
          rw [hvalid] at hends
          exact hends _ _

/-- A batch that was taken passed the checks. -/
theorem valid_of_append (htries : m.Tries records) (hok : (append env records m).1 = .ok ()) :
    ∃ m', ensureRecovered env m = (.ok (), m') ∧
      validate m'.store.nextVersion records = .ok () := by
  have hends : Ends (append env records) (fun x _ => x = .ok () → ∃ m',
      ensureRecovered env m = (.ok (), m') ∧ validate m'.store.nextVersion records = .ok ()) m := by
    refine ends_append_checked htries ?_
    unfold Ends
    cases hensured : ensureRecovered env m with
    | mk x m' =>
        cases x with
        | error e => exact nofun
        | died => exact nofun
        | ok u =>
            dsimp only
            cases hvalid : validate m'.store.nextVersion records with
            | error e => exact nofun
            | ok u => exact fun _ _ _ => ⟨m', rfl, hvalid⟩
  exact hends hok

/-! ### A checkpoint before the first load -/

omit [Crc32] in
/-- Where nothing fails, `reclaim` leaves the last segment of those the header covers. -/
theorem ends_reclaimLoop_calm (hcalm : env.Calm) {version : ℕ} {segments : List Segment}
    {files : List File} (hsegments : m.store.segments = segments) (hfiles : m.dir.segments = files)
    (hnames : segments.map Segment.first = files.map Prod.fst)
    (hcovered : ∀ s ∈ segments, s.first ≤ version + 1) (removed : Bool) :
    Ends (reclaimLoop env version segments removed) (fun x m' => (∃ b, x = .ok b) ∧
      m'.store = { m.store with segments := segments.getLast?.toList } ∧
        m'.dir.segments = files.getLast?.toList ∧ m'.dir.header = m.dir.header) m := by
  induction segments generalizing m files removed with
  | nil =>
      obtain rfl : files = [] := List.map_eq_nil_iff.mp hnames.symm
      refine ends_pure.mpr ⟨⟨removed, rfl⟩, ?_, hfiles, rfl⟩
      rw [List.getLast?_nil, Option.toList_none, ← hsegments]
  | cons s tail ih =>
      cases files with
      | nil => cases hnames
      | cons f files =>
          obtain ⟨hname, hnames⟩ := List.cons.inj hnames
          cases tail with
          | nil =>
              obtain rfl : files = [] := List.map_eq_nil_iff.mp hnames.symm
              refine ends_pure.mpr ⟨⟨removed, rfl⟩, ?_, hfiles, rfl⟩
              rw [List.getLast?_singleton, Option.toList_some, ← hsegments]
          | cons t rest =>
              cases files with
              | nil => cases hnames
              | cons g files =>
                  have ht := hcovered t (List.mem_cons_of_mem _ List.mem_cons_self)
                  rw [reclaimLoop, if_pos ht, ends_bind, ends_upd, after_ok, ends_bind]
                  have hgone : (m.dir.unlink s.first).segments = g :: files := by
                    have hhead : m.dir.segments = [] ++ (s.first, f.2) :: g :: files := by
                      rw [hname, hfiles]
                      rfl
                    exact Dir.segments_unlink hhead
                  refine ends_sys_call (fun _ => ?_)
                    (fun hfail => absurd hcalm (not_calm_of_reply hfail (by decide)))
                    (fun hdie => absurd hcalm (not_calm_of_reply hdie (by decide)))
                  rw [after_ok]
                  refine (ih (m := ⟨{ m.store with segments := t :: rest }, m.dir.unlink s.first⟩) rfl
                    hgone hnames (fun u hu => hcovered u (List.mem_cons_of_mem _ hu)) true).mono ?_
                  rintro x m' ⟨hx, hstore, hdir, hheader⟩
                  rw [List.getLast?_cons_cons, List.getLast?_cons_cons]
                  exact ⟨hx, hstore, hdir, hheader⟩

/-- Of a log that its header covers, the last segment is enough. -/
theorem Left.last_only (h : Left V log L d) (hstub : L.stub = none) {d' : Dir}
    (hsegments : d'.segments = d.segments.getLast?.toList)
    (hread : ∀ g, headerOf V d' = .ok g → versionOf g = log.tip) :
    Left V log ⟨[], L.last, none⟩ d' := by
  have hspans : Layout.spans ⟨[], L.last, none⟩ = L.last.toList.map Piece.toSpan := rfl
  have hmem : ∀ s ∈ Layout.spans ⟨[], L.last, none⟩, s ∈ L.spans := by
    intro s hs
    rw [hspans] at hs
    rw [Layout.spans, Layout.pieces, List.map_append]
    exact List.mem_append_right _ hs
  refine ⟨h.numbered, h.fits, ?_, ?_, fun s hs => h.taken s (hmem s hs), by simp, h.last,
    fun hnone => ⟨rfl, (h.empty hnone).2⟩, (fun _ h => by cases h), ?_, ?_, ?_⟩
  · rw [hsegments]
    cases hlast : L.last with
    | none =>
        rw [h.segments_of_none hstub hlast]
        rfl
    | some p =>
        rw [h.segments_of_last hstub hlast, List.getLast?_concat]
        rfl
  · rw [hspans]
    cases L.last with
    | none => exact .nil
    | some p => exact List.pairwise_singleton ..
  · intro g hg
    rw [hread g hg]
    exact ⟨Journal.base_le_tip, le_rfl⟩
  · intro s hs g hg
    have hnext := h.next_le (hmem s (List.mem_of_mem_head? hs))
    rw [Span.next, Journal.next] at hnext
    rw [hread g hg]
    omega
  · intro p hp _
    exact .inl (fun _ h => by cases h)

theorem Fresh.whole (h : Fresh V log L m) (hmagic : ∀ f ∈ m.dir.segments, HasMagic f) :
    ∃ L', Fresh V log L' m ∧ L'.stub = none := by
  cases hstub : L.stub with
  | none => exact ⟨L, h, hstub⟩
  | some s =>
      have hmem : s.file ∈ m.dir.segments := by
        rw [h.files, Layout.files, hstub]
        simp
      obtain ⟨z, -, hleft⟩ := h.promote hstub (hmagic s.file hmem)
      exact ⟨_, ⟨hleft, h.names, h.inactive, h.noted, h.unrecovered, h.clean, h.room⟩, rfl⟩

omit [Crc32] in
theorem Env.Calm.publishes (hcalm : env.Calm) : env.Publishes :=
  ⟨hcalm.reply _, hcalm.reply _, hcalm.written _, hcalm.reply _, hcalm.reply _, hcalm.reply _⟩

/-- A checkpoint, where nothing fails, of a store that has not settled its segments. -/
theorem Fresh.ends_writeHeader_calm [LawfulHeaderSerde V] (h : Fresh V log L m)
    (hstub : L.stub = none) {view : V} (hview : Versioned.version view = log.tip)
    (hcalm : env.Calm) :
    Ends (writeHeader env view) (fun _ m' => ∃ L', Fresh V log L' m') m := by
  refine ends_writeHeader_steps (fun x d _ _ hsegments hheader => ?_)
    (fun json x d _ hpublishes => absurd hcalm.publishes hpublishes)
    (fun json d _ hjson hsegments hheader => ?_)
  · have hnoted : Noted V log m.store.headerVersion d := by
      rw [Noted, headerOf_congr hheader]
      exact h.noted
    refine ⟨L, h.toLeft.same_dir hsegments hheader, ?_, ?_, hnoted, h.unrecovered, h.clean, h.room⟩
    · rw [show (Machine.mk m.store d).dir.segments = _ from hsegments]
      exact h.names
    · rw [show (Machine.mk m.store d).dir.segments = _ from hsegments]
      exact h.inactive
  · have hread : ∀ g, headerOf V d = .ok g → versionOf g = log.tip := fun g hg =>
      (versionOf_headerBytes hjson hheader hg).trans hview
    have hleft : Left V log L d := h.toLeft.publish hsegments hread
    have hcovered : ∀ s ∈ m.store.segments, s.first ≤ Versioned.version view + 1 := by
      intro s hs
      have hname : s.first ∈ m.dir.segments.map Prod.fst := h.names ▸ List.mem_map_of_mem hs
      rw [h.files, Layout.files, hstub, Option.toList_none, List.map_nil, List.append_nil,
        List.map_map] at hname
      obtain ⟨p, hp, hfirst⟩ := List.mem_map.mp hname
      have hnext := h.next_le (List.mem_map_of_mem hp)
      rw [hview, ← hfirst]
      show p.first ≤ log.next
      rw [Span.next] at hnext
      omega
    rw [reclaim, ends_bind, ends_get, after_ok, ends_bind]
    have hreclaims := ends_reclaimLoop_calm
      (m := ⟨{ m.store with headerVersion := Versioned.version view }, d⟩) hcalm rfl hsegments
      h.names hcovered false
    refine hreclaims.mono ?_
    rintro x m' ⟨⟨removed, rfl⟩, hstore, hfiles, hkept⟩
    have hread' : ∀ g, headerOf V m'.dir = .ok g → versionOf g = log.tip := by
      rw [headerOf_congr hkept]
      exact hread
    have hfresh : Fresh V log ⟨[], L.last, none⟩ m' := by
      refine ⟨hleft.last_only hstub (hsegments.symm ▸ hfiles) hread', ?_, ?_, .inr ⟨?_, ?_⟩, ?_, ?_, ?_⟩
      · rw [hstore, hfiles]
        have hlast : m.store.segments.getLast?.map Segment.first =
            m.dir.segments.getLast?.map Prod.fst := by
          rw [← List.getLast?_map, h.names, List.getLast?_map]
        cases hs : m.store.segments.getLast? <;> cases hf : m.dir.segments.getLast? <;>
          simp_all
      · rw [hstore]
        intro hnil
        rw [hfiles, Option.toList_eq_nil_iff, List.getLast?_eq_none_iff] at hnil
        exact h.inactive hnil
      · rw [hstore]
        exact hview
      · rw [hstore]
        exact fun g hg => (hread' g hg).trans hview.symm
      · rw [hstore]
        exact h.unrecovered
      · rw [hstore]
        exact h.clean
      · rw [hstore]
        exact h.room
    rw [after_ok]
    cases removed with
    | false => exact ⟨_, hfresh⟩
    | true =>
        rw [if_pos rfl]
        exact ends_sys_call (fun _ => ⟨_, hfresh⟩)
          (fun hfail => absurd hcalm (not_calm_of_reply hfail (by decide)))
          (fun hdie => absurd hcalm (not_calm_of_reply hdie (by decide)))

/-! ### Runs -/

/-- The store an append goes on with once its segments are settled. -/
theorem Fresh.ensured (h : Fresh V log L m) (hok : ensureRecovered env m = (.ok (), m')) :
    (recover env false m).1.isOk ∧ ∃ L', Kept V (log.append (log.beyond m.dir)) L' 0 m' := by
  have hrecover : Ends (recover env false) _ m := h.ends_recover
  have hensured : Ends (ensureRecovered env) (fun x m' => x = .ok () →
      (recover env false m).1.isOk ∧ ∃ L', Kept V (log.append (log.beyond m.dir)) L' 0 m') m := by
    rw [ensureRecovered, ends_bind, ends_get, after_ok, h.unrecovered, if_neg (by simp), ends_bind]
    unfold Ends at hrecover ⊢
    cases hx : (recover env false m).1 with
    | ok tail =>
        obtain ⟨L', hkept, -⟩ := hrecover.1 tail hx
        exact fun _ => ⟨rfl, L', hkept⟩
    | error e => exact (fun h => by cases h)
    | died => exact (fun h => by cases h)
  unfold Ends at hensured
  rw [hok] at hensured
  exact hensured rfl

/-- A recovery that finds no record at the top of the counter adopts none. -/
theorem Left.adopted_tip (h : Left V log L d) {version : ℕ} (hstands : Stands V log version d)
    {collect : Bool} {tail : List Record} (hok : recovery version collect d.segments = .ok tail)
    (htip : log.tip < versionMax) (hspare : ∀ r ∈ log.beyond d, r.version < versionMax) :
    (log.append (log.beyond d)).tip < versionMax := by
  obtain ⟨L, h, hstub, hsound⟩ := h.recovered hstands hok
  have hrun := (consecutive_append.mp (h.sound_run hsound)).2
  rw [h.beyond_eq hstub hsound] at hspare ⊢
  cases hextra : L.extra using List.reverseRecOn with
  | nil => rwa [Journal.append_nil]
  | append_singleton front r =>
      rw [hextra] at hrun hspare
      obtain ⟨-, hversion, -⟩ := consecutive_append.mp hrun
      have hlast := hspare r (by simp)
      rw [Journal.tip_append, List.length_append, List.length_singleton]
      rw [Journal.tip]
      omega

namespace World

variable {w : World} {event : Event V}

/-- A checkpoint of a store that was opened and not loaded, where nothing fails and
every segment file is whole. -/
def Early (w : World) (env : Env) : Event V → Prop
  | .writeHeader view => w.phase = .opened ∧ Versioned.version view = w.log.tip ∧ env.Calm ∧
      ∀ f ∈ w.machine.dir.segments, HasMagic f
  | _ => False

/-- The top of the counter is kept free: no header is written at it, and no recovery
goes over a record at it. -/
structure Spare (w : World) (event : Event V) : Prop where
  header : ∀ view, event = .writeHeader view → Versioned.version view < versionMax
  found : w.machine.Scans event → ∀ r ∈ w.log.beyond w.machine.dir, r.version < versionMax

theorem good_early [LawfulHeaderSerde V] (h : w.Good V) (hearly : w.Early env event) :
    (w.step env event).Good V := by
  cases event with
  | writeHeader view =>
      obtain ⟨hphase, hview, hcalm, hmagic⟩ := hearly
      rw [Good, hphase] at h
      obtain ⟨L, hfresh⟩ := h
      obtain ⟨L, hfresh, hstub⟩ := hfresh.whole hmagic
      show Ends (writeHeader env view)
        (fun x m => (w.checkpointing (Versioned.version view) x m).Good V) w.machine
      refine (hfresh.ends_writeHeader_calm hstub hview hcalm).mono ?_
      rintro x m ⟨L', hfresh'⟩
      cases x with
      | ok u =>
          rw [checkpointing, if_pos hview, hphase]
          exact ⟨L', hfresh'⟩
      | error e =>
          rw [checkpointing, if_pos hview, if_pos hview, hphase, ite_self]
          exact ⟨L', hfresh'⟩
      | died =>
          rw [checkpointing, if_pos hview, ite_self]
          exact ⟨L', hfresh'.toLeft⟩
  | opening rotateBytes => cases hearly
  | load => cases hearly
  | append records => cases hearly
  | sync => cases hearly
  | kill => cases hearly

/-- The store whose batch is checked works on the log as it was settled. -/
theorem Good.ensured (h : w.Good V) (hdriven : w.Driven (.append records : Event V))
    (htries : w.machine.Tries records) (hok : ensureRecovered env w.machine = (.ok (), m')) :
    ∃ L stale, Kept V (w.settle env records).log L stale m' := by
  rcases hdriven with hphase | hphase | ⟨-, hpoison⟩
  · rw [Good, hphase] at h
    obtain ⟨L, hfresh⟩ := h
    obtain ⟨hrecover, L', hkept⟩ := hfresh.ensured hok
    have hsettles : w.machine.settles env records = true := by
      simp [Machine.settles, htries.nonempty, htries.clean, hfresh.unrecovered, hrecover]
    rw [settle, if_pos hsettles]
    exact ⟨L', 0, hkept⟩
  · rw [Good, hphase] at h
    obtain ⟨L, stale, hkept⟩ := h
    have hsame : ensureRecovered env w.machine = (.ok (), w.machine) := by
      rw [ensureRecovered]
      show (if w.machine.store.recovered then _ else _ : Op Unit) w.machine = _
      rw [hkept.recovered, if_pos rfl]
      rfl
    rw [hsame] at hok
    cases hok
    have hsettles : ¬w.machine.settles env records = true := by
      simp [Machine.settles, hkept.recovered]
    rw [settle, if_neg hsettles]
    exact ⟨L, stale, hkept⟩
  · rw [htries.clean] at hpoison
    cases hpoison

theorem Good.settle_tip (h : w.Good V) (hdriven : w.Driven (.append records : Event V))
    (hspare : w.Spare (.append records : Event V)) (htip : w.log.tip < versionMax) :
    w.log.tip ≤ (w.settle env records).log.tip ∧ (w.settle env records).log.tip < versionMax := by
  by_cases hsettles : w.machine.settles env records = true
  case neg =>
    rw [settle, if_neg hsettles]
    exact ⟨le_rfl, htip⟩
  case pos =>
    rw [settle, if_pos hsettles]
    simp only [Machine.settles, Bool.and_eq_true, Bool.not_eq_true', Option.isNone_iff_eq_none,
      List.isEmpty_eq_false_iff] at hsettles
    obtain ⟨⟨⟨hne, hclean⟩, hrecovered⟩, hok⟩ := hsettles
    have hfound := hspare.found ⟨⟨hne, hclean⟩, hrecovered⟩
    have hphase : w.phase = .opened := by
      rcases hdriven with hphase | hphase | ⟨-, hpoison⟩
      · exact hphase
      · rw [Good, hphase] at h
        obtain ⟨L, stale, hkept⟩ := h
        rw [hkept.recovered] at hrecovered
        cases hrecovered
      · rw [hclean] at hpoison
        cases hpoison
    rw [Good, hphase] at h
    obtain ⟨L, hfresh⟩ := h
    obtain ⟨tail, htail⟩ : ∃ tail,
        recovery w.machine.store.headerVersion false w.machine.dir.segments = .ok tail := by
      have hfollows : Follows env.Calm (recover env false w.machine).1
          (recovery w.machine.store.headerVersion false w.machine.dir.segments) :=
        Recovering.follows (ends_recover false (List.nil_append _).symm hfresh.names)
      cases hx : (recover env false w.machine).1 with
      | ok tail =>
          rw [hx] at hfollows
          exact ⟨tail, hfollows⟩
      | error e =>
          rw [hx] at hok
          cases hok
      | died =>
          rw [hx] at hok
          cases hok
    refine ⟨?_, hfresh.adopted_tip hfresh.noted.stands htail htip hfound⟩
    rw [adopted, Journal.tip_append]
    exact Nat.le_add_right ..

/-- A batch that was taken goes on from the log, and the counter has room behind it. -/
theorem Good.taken (h : w.Good V) (hdriven : w.Driven (.append records : Event V))
    (hne : records ≠ []) (hok : (append env records w.machine).1 = .ok ()) :
    (∃ L d, Left V (w.settle env records).log L d) ∧
      Consecutive Record.version (w.settle env records).log.next records ∧
        ∀ r ∈ records, Fits r ∧ r.version < versionMax := by
  have hclean : w.machine.store.poison = none := by
    cases hpoison : w.machine.store.poison with
    | none => rfl
    | some poison =>
        have hends : Ends (append env records) (fun x _ => x ≠ .ok ()) w.machine := by
          rw [append, if_neg fun hempty => hne (List.isEmpty_iff.mp hempty), ends_bind, ends_get,
            after_ok, hpoison]
          exact (fun h => by cases h)
        exact absurd hok hends
  have htries : w.machine.Tries records := ⟨hne, hclean⟩
  obtain ⟨m', hensured, hvalid⟩ := valid_of_append htries hok
  obtain ⟨L, stale, hkept⟩ := h.ensured hdriven htries hensured
  rw [hkept.nextVersion] at hvalid
  exact ⟨⟨L, _, hkept.toLeft⟩, validate_ok_iff.mp hvalid⟩

theorem tip_appending (h : w.Good V) (hdriven : w.Driven (.append records : Event V))
    (hspare : w.Spare (.append records : Event V)) (htip : w.log.tip < versionMax) :
    (w.step env (.append records : Event V)).log.tip < versionMax := by
  have hsettled : (w.settle env records).log.tip < versionMax :=
    (h.settle_tip hdriven hspare htip).2
  show ((w.settle env records).appending records (append env records w.machine).1 _).log.tip < _
  cases hx : (append env records w.machine).1 with
  | error e => exact hsettled
  | died => exact hsettled
  | ok u =>
      rw [appending]
      cases hrecords : records using List.reverseRecOn with
      | nil =>
          rw [hrecords] at hsettled
          rwa [Journal.append_nil]
      | append_singleton front r =>
          rw [← hrecords]
          have hne : records ≠ [] := by simp [hrecords]
          obtain ⟨-, hrun, hfits⟩ := h.taken hdriven hne hx
          have hr := (hfits r (by simp [hrecords])).2
          nth_rewrite 2 [hrecords] at hrun
          obtain ⟨-, hversion, -⟩ := consecutive_append.mp hrun
          rw [Journal.tip_append, hrecords, List.length_append, List.length_singleton, ← hrecords]
          rw [Journal.next] at hversion
          omega

theorem tip_step (h : w.Good V) (hcalled : w.Driven event ∨ w.Early env event)
    (hspare : w.Spare event) (htip : w.log.tip < versionMax) :
    (w.step env event).log.tip < versionMax := by
  cases event with
  | opening rotateBytes =>
      show (w.opening (openWith V env rotateBytes w.machine).1 _).log.tip < _
      cases (openWith V env rotateBytes w.machine).1 <;> exact htip
  | load =>
      obtain ⟨L, hleft⟩ := h.left
      have hloads : Ends (load V env) _ w.machine := ends_load V
      show (w.loading (load V env w.machine).1 _).log.tip < _
      cases hx : (load V env w.machine).1 with
      | error e => exact htip
      | died => exact htip
      | ok found =>
          have hfollows := Loading.follows hloads
          rw [hx] at hfollows
          obtain ⟨header, -, -, hheader, -⟩ := hloads.through found hx
          obtain ⟨tail, htail⟩ := recovery_of_loaded hheader hfollows
          exact hleft.adopted_tip (.inr ⟨header, hheader, rfl⟩) htail htip (hspare.found trivial)
  | append records => exact tip_appending h (hcalled.resolve_right id) hspare htip
  | sync =>
      show (w.syncing (sync env w.machine).1 _).log.tip < _
      cases (sync env w.machine).1 <;> exact htip
  | writeHeader view =>
      have hview := hspare.header view rfl
      show (w.checkpointing (Versioned.version view) (writeHeader env view w.machine).1 _).log.tip < _
      cases (writeHeader env view w.machine).1 <;> rw [checkpointing] <;> split_ifs <;> assumption
  | kill => exact htip

end World

/-- The worlds that come of an empty directory, by operations that meet a condition,
where a store may also be checkpointed before its first load. -/
inductive Counted (Meets : World → Event V → Prop) : World → Prop
  | start (store : SegmentStore) : Counted Meets ⟨.down, ⟨store, Dir.empty⟩, ⟨0, []⟩⟩
  | step {w : World} (env : Env) {event : Event V} : Counted Meets w →
      w.Driven event ∨ w.Early env event → Meets w event → Counted Meets (w.step env event)

namespace Counted

variable [LawfulHeaderSerde V] {w : World} {event : Event V}

theorem good {Meets : World → Event V → Prop} (h : Counted Meets w) : w.Good V := by
  induction h with
  | start store => exact ⟨_, left_empty⟩
  | step env _ hcalled _ ih =>
      cases hcalled with
      | inl hdriven => exact World.good_step ih hdriven
      | inr hearly => exact World.good_early ih hearly

theorem tip (h : Counted (World.Spare (V := V)) w) : w.log.tip < versionMax := by
  induction h with
  | start store =>
      show 0 < versionMax
      decide
  | step env hrun hcalled hspare ih => exact World.tip_step hrun.good hcalled hspare ih

end Counted

end

/-! ### A header at the top of the counter -/

section Sample

attribute [local instance] ieee

end Sample

end Lug.Wal
