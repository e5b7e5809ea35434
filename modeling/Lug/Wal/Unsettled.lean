import Lug.Wal.Mark
import Lug.Wal.Run

/-!
A store that failed to load: nothing is appended to it before a recovery gets
through, unless it had been settled before it failed.
-/

namespace Lug.Wal

open Octets Faulty Runs

section

variable [Crc32] {env : Env} {m m' : Machine}

/-! ### What a recovery leaves of the records -/

theorem contents_trimmed {f f' : File} (h : Trimmed f f') :
    (contents f').records = (contents f).records := by
  cases h with
  | inl hsame => rw [hsame]
  | inr hcut =>
      obtain ⟨hmagic, z, hz, rfl⟩ := hcut
      obtain ⟨hbytes, hfits, -⟩ := found_spec (f.2.drop segPrologue)
      have hprologue : (f.2.take segPrologue).length = segPrologue := hmagic.1
      have hfile : (cut f).2 = f.2.take segPrologue ++ encodeRecords (contents f).records := by
        show f.2.take (segPrologue + (encodeRecords (contents f).records).length) = _
        rw [List.take_add, contents]
        congr 1
        exact (List.prefix_iff_eq_take.mp ⟨_, hbytes.symm⟩).symm
      have hdrop : ((cut f).2 ++ z).drop segPrologue = encodeRecords (contents f).records ++ z := by
        rw [hfile, List.append_assoc, List.drop_left' hprologue]
      show (found (((cut f).2 ++ z).drop segPrologue)).records = _
      rw [hdrop, found_encodeRecords (show ∀ r ∈ (contents f).records, Fits r from hfits),
        found_blank hz, List.append_nil]

/-! ### Stores that stay settled -/

/-- A program that leaves a settled store settled. -/
def Stays {α : Type} (p : Op α) : Prop :=
  ∀ m, m.store.recovered = true → (p m).2.store.recovered = true

namespace Stays

variable {α β : Type}

omit [Crc32] in
theorem pure (a : α) : Stays (Pure.pure a : Op α) := fun _ h => h

omit [Crc32] in
theorem throw (e : Err) : Stays (Act.throw e : Op α) := fun _ h => h

omit [Crc32] in
theorem get : Stays (Act.get : Op Machine) := fun _ h => h

omit [Crc32] in
theorem lift (r : Except Err α) : Stays (Act.lift r : Op α) := fun _ h => by
  cases r <;> exact h

omit [Crc32] in
theorem sys (path : Path) (p : Sys α) : Stays (Wal.sys path p) := fun _ h => h

omit [Crc32] in
theorem upd {f : SegmentStore → SegmentStore}
    (h : ∀ s, s.recovered = true → (f s).recovered = true) : Stays (Wal.upd f) := fun m => h m.store

omit [Crc32] in
theorem attempt {p : Op α} (h : Stays p) : Stays (Act.attempt p : Op (Except Err α)) := h

omit [Crc32] in
theorem readFile (env : Env) (site : Site) (path : Path) : Stays (Wal.readFile env site path) := by
  intro m h
  rw [Wal.readFile]
  split <;> exact h

omit [Crc32] in
theorem bind {p : Op α} {f : α → Op β} (hp : Stays p) (hf : ∀ a, Stays (f a)) :
    Stays (p >>= f) := by
  intro m h
  show (Act.bind p f m).2.store.recovered = true
  have hfirst := hp m h
  rw [Act.bind]
  generalize p m = ended at hfirst ⊢
  obtain ⟨x, m'⟩ := ended
  cases x with
  | ok a => exact hf a m' hfirst
  | error e => exact hfirst
  | died => exact hfirst

end Stays

omit [Crc32] in
theorem stays_truncate (first len : ℕ) : Stays (truncate env first len) :=
  .bind (.sys _ _) fun _ => .bind (.sys _ _) fun _ => .sys _ _

theorem stays_settle (headerVersion : ℕ) (collect : Bool) (segments : List Segment) (index : ℕ)
    (acc : Option ℕ × List Record) : Stays (settle env headerVersion collect index segments acc) := by
  induction segments generalizing index acc with
  | nil => exact .pure _
  | cons segment rest ih =>
      rw [settle]
      refine .bind (.readFile _ _ _) fun bytes => .bind (.lift _) fun scanned => ?_
      obtain ⟨acc, scanned⟩ := scanned
      dsimp only
      have hrest : Stays (do
          upd fun s => { s with
            segments := s.segments.set index
              ⟨segment.first, scanned.stop, lastVersion segment.first acc.1⟩ }
          settle env headerVersion collect (index + 1) rest acc) :=
        .bind (.upd fun _ h => h) fun _ => ih _ _
      split_ifs
      · exact .throw _
      · exact .bind (stays_truncate _ _) fun _ => hrest
      · exact hrest

omit [Crc32] in
theorem stays_openLast (headerVersion : ℕ) : Stays (openLast env headerVersion) := by
  rw [openLast]
  refine .bind .get fun m => ?_
  cases m.store.last with
  | none => exact .pure _
  | some segment =>
      dsimp only
      split_ifs
      · exact .throw _
      · exact .bind (.sys _ _) fun _ => .bind (.upd fun _ h => h) fun _ => .bind (.sys _ _) fun _ =>
          .upd fun _ h => h

theorem stays_recover (collect : Bool) : Stays (recover env collect) := by
  rw [recover]
  refine .bind .get fun m => .bind (stays_settle _ _ _ _ _) fun found => ?_
  obtain ⟨-, tail⟩ := found
  refine .bind (stays_openLast _) fun _ => ?_
  have hend : Stays (do
      upd fun s => { s with recovered := true, poison := none }
      pure tail) := .bind (.upd fun _ _ => rfl) fun _ => .pure _
  cases tail.head? with
  | none => exact hend
  | some first =>
      dsimp only
      split_ifs
      · exact .throw _
      · exact hend

omit [Crc32] in
theorem stays_rotate (first : ℕ) : Stays (rotate env first) := by
  have hclose : Stays (closeActive env) := by
    rw [closeActive]
    refine .bind .get fun m => .bind (.upd fun _ h => h) fun _ => ?_
    cases m.store.active with
    | none => exact .pure _
    | some file =>
        cases m.store.last with
        | none => exact .pure _
        | some segment => exact .bind (.sys _ _) fun _ => .sys _ _
  rw [rotate]
  exact .bind hclose fun _ => .bind .get fun _ => .bind (.sys _ _) fun _ => .bind (.sys _ _) fun _ =>
    .bind (.sys _ _) fun _ => .bind (.sys _ _) fun _ => .bind (.sys _ _) fun _ => .upd fun _ h => h

theorem stays_writeBatch (records : List Record) : Stays (writeBatch env records) := by
  rw [writeBatch]
  refine .bind .get fun m => ?_
  cases m.store.last with
  | none => exact fun _ h => h
  | some segment =>
      cases m.store.active with
      | none => exact fun _ h => h
      | some file =>
          have hgrow : Stays (grow env segment file (batchTotal records)) := by
            rw [grow]
            refine .bind .get fun m => ?_
            split_ifs
            · exact .bind (.sys _ _) fun _ => .upd fun _ h => h
            · exact .pure _
          refine .bind hgrow fun _ => .bind (Stays.attempt (.sys _ _)) fun wrote => ?_
          cases wrote with
          | ok u => exact .upd fun _ h => h
          | error failure =>
              dsimp only
              rw [cleanUp]
              refine .bind (Stays.attempt (.sys _ _)) fun cleaned => ?_
              cases cleaned with
              | ok u => exact .throw _
              | error e => exact .bind (.upd fun _ h => h) fun _ => .throw _

theorem stays_append (records : List Record) : Stays (append env records) := by
  rw [append]
  split_ifs
  · exact .pure _
  refine .bind .get fun m => ?_
  cases m.store.poison with
  | some poison => exact .throw _
  | none =>
      have hensure : Stays (ensureRecovered env) := by
        rw [ensureRecovered]
        refine .bind .get fun m => ?_
        split_ifs
        · exact .pure _
        · exact .bind (stays_recover _) fun _ => .pure _
      refine .bind hensure fun _ => .bind .get fun m => .bind (.lift _) fun _ => ?_
      split_ifs
      · exact .bind (stays_rotate _) fun _ => stays_writeBatch _
      · exact stays_writeBatch _

/-! ### Stores that go by the files of the directory -/

/-- The segments of a store stand for the last files of its directory. -/
def Machine.Listed (m : Machine) : Prop :=
  ∃ done files, m.dir.segments = done ++ files ∧
    m.store.segments.map Segment.first = files.map Prod.fst

theorem Machine.Listed.trimmed (h : m.Listed) {files' : List File}
    (htrimmed : List.Forall₂ Trimmed m.dir.segments files') (hfiles : m'.dir.segments = files')
    (hsegs : m'.store.segments.map Segment.first = m.store.segments.map Segment.first) :
    m'.Listed := by
  obtain ⟨done, files, hdir, hnames⟩ := h
  rw [hdir] at htrimmed
  obtain ⟨done', files'', rfl, -, hlater⟩ := forall₂_append_left htrimmed
  exact ⟨done', files'', hfiles, by rw [hsegs, hnames, names_trimmed hlater]⟩

omit [Crc32] in
/-- Reclaiming removes the file of the segment it drops. -/
theorem Machine.Listed.pop (h : m.Listed) {s t : Segment} {rest : List Segment}
    (hsegments : m.store.segments = s :: t :: rest) :
    Machine.Listed ⟨{ m.store with segments := t :: rest }, m.dir⟩ ∧
      Machine.Listed ⟨{ m.store with segments := t :: rest }, m.dir.unlink s.first⟩ := by
  obtain ⟨done, files, hdir, hnames⟩ := h
  rw [hsegments] at hnames
  cases files with
  | nil => cases hnames
  | cons f files =>
      obtain ⟨hname, hnames⟩ := List.cons.inj hnames
      refine ⟨⟨done ++ [f], files, by rw [hdir, List.append_assoc]; rfl, hnames⟩,
        ⟨done, files, ?_, hnames⟩⟩
      rw [show s.first = f.1 from hname]
      exact Dir.segments_unlink hdir

omit [Crc32] in
theorem listed_reclaimLoop {headerVersion : ℕ} {segments : List Segment}
    (hsegments : m.store.segments = segments) (removed : Bool) :
    Ends (reclaimLoop env headerVersion segments removed) (fun _ m' =>
      (m.Listed → m'.Listed) ∧ m'.store = { m.store with segments := m'.store.segments }) m := by
  induction segments generalizing m removed with
  | nil => exact ⟨id, rfl⟩
  | cons s tail ih =>
      cases tail with
      | nil => exact ⟨id, rfl⟩
      | cons t rest =>
          rw [reclaimLoop]
          split_ifs
          case neg => exact ⟨id, rfl⟩
          have hpopped : m.Listed →
              Machine.Listed ⟨{ m.store with segments := t :: rest }, m.dir⟩ := fun h =>
            (h.pop hsegments).1
          rw [ends_bind, ends_upd, after_ok, ends_bind]
          refine ends_sys_call (fun _ => ?_) (fun _ => ⟨hpopped, rfl⟩) (fun _ => ⟨hpopped, rfl⟩)
          rw [after_ok]
          refine (ih (m := ⟨{ m.store with segments := t :: rest }, m.dir.unlink s.first⟩) rfl
            true).mono ?_
          rintro x m' ⟨hlisted, hstore⟩
          exact ⟨fun h => hlisted (h.pop hsegments).2, hstore⟩

omit [Crc32] in
theorem listed_reclaim : Ends (reclaim env) (fun _ m' =>
    (m.Listed → m'.Listed) ∧ m'.store = { m.store with segments := m'.store.segments }) m := by
  rw [reclaim, ends_bind, ends_get, after_ok, ends_bind]
  refine (listed_reclaimLoop rfl false).mono ?_
  rintro x m₁ hends
  cases x with
  | error e => exact hends
  | died => exact hends
  | ok removed =>
      rw [after_ok]
      split_ifs
      · exact ends_sys_call (fun _ => hends) (fun _ => hends) (fun _ => hends)
      · exact hends

/-! ### The life of a store -/

variable {V : Type} [Versioned V] [HeaderSerde V]

/-- A checkpoint neither settles a store nor unsettles it. -/
theorem listed_writeHeader (view : V) : Ends (writeHeader env view) (fun _ m' =>
    (m.Listed → m'.Listed) ∧ m'.store.recovered = m.store.recovered ∧
      m'.store.poison = m.store.poison) m := by
  have hkept : ∀ d : Dir, d.segments = m.dir.segments → m.Listed →
      Machine.Listed ⟨m.store, d⟩ := by
    rintro d hsegments ⟨done, files, hdir, hnames⟩
    exact ⟨done, files, hsegments.trans hdir, hnames⟩
  refine ends_writeHeader_steps (fun x d _ _ hsegments _ => ⟨hkept d hsegments, rfl, rfl⟩)
    (fun json x d _ _ _ hsegments _ => ⟨hkept d hsegments, rfl, rfl⟩)
    (fun json d _ _ hsegments _ => ?_)
  refine listed_reclaim.mono ?_
  rintro x m' ⟨hlisted, hstore⟩
  refine ⟨fun h => hlisted ?_, by rw [hstore], by rw [hstore]⟩
  obtain ⟨done, files, hdir, hnames⟩ := h
  exact ⟨done, files, hsegments.trans hdir, hnames⟩

/-- A store on some directory, and whether it failed to load and was not settled since. -/
structure Watched where
  machine : Machine
  unsettled : Bool

/-- The life of one store, from its opening on whatever directory. A load may be asked
to meet a condition, on the store it is called on and how it ends. -/
inductive Life (Meets : Machine → Exit Err (Recovered V) → Prop) : Watched → Prop
  | opened (env : Env) (rotateBytes : ℕ) (m : Machine) :
      (openWith V env rotateBytes m).1 = .ok () →
        Life Meets ⟨(openWith V env rotateBytes m).2, false⟩
  | load (env : Env) {w : Watched} : Life Meets w → (Wal.load V env w.machine).1.survived = true →
      Meets w.machine (Wal.load V env w.machine).1 →
        Life Meets ⟨(Wal.load V env w.machine).2, !(Wal.load V env w.machine).1.isOk⟩
  | append (env : Env) (records : List Record) {w : Watched} : Life Meets w →
      (Wal.append env records w.machine).1.survived = true →
        Life Meets ⟨(Wal.append env records w.machine).2,
          w.unsettled && !w.machine.settles env records⟩
  | sync (env : Env) {w : Watched} : Life Meets w →
      (Wal.sync env w.machine).1.survived = true →
        Life Meets ⟨(Wal.sync env w.machine).2, w.unsettled⟩
  | writeHeader (env : Env) (view : V) {w : Watched} : Life Meets w →
      (Wal.writeHeader env view w.machine).1.survived = true →
        Life Meets ⟨(Wal.writeHeader env view w.machine).2, w.unsettled⟩

/-- A load gets through, or is one of a store that was not settled or is poisoned. -/
def Heeds (V : Type) (m : Machine) (x : Exit Err (Recovered V)) : Prop :=
  x.isOk = true ∨ m.store.recovered = false ∨ m.store.poison.isSome = true

/-- What holds of a store all its life if its loads meet that. -/
structure Watched.Safe (w : Watched) : Prop where
  listed : w.machine.store.recovered = false → w.machine.Listed
  clean : w.machine.store.recovered = false → w.machine.store.poison = none
  held : w.unsettled = true →
    w.machine.store.recovered = false ∨ w.machine.store.poison.isSome = true

/-- An append on a store that is not settled settles it, or fails and leaves the records
of the files alone. -/
theorem ends_append_listed {records : List Record} (hne : records ≠ [])
    (hclean : m.store.poison = none) (hrecovered : m.store.recovered = false) (hlisted : m.Listed) :
    Ends (append env records) (fun x m' =>
      if m.settles env records then m'.store.recovered = true
      else x ≠ .ok () ∧ m'.store.recovered = false ∧ m'.store.poison = none ∧ m'.Listed ∧
        List.Forall₂ Trimmed m.dir.segments m'.dir.segments) m := by
  have hsettles : m.settles env records = (recover env false m).1.isOk := by
    simp [Machine.settles, hclean, hrecovered, hne]
  rw [hsettles]
  obtain ⟨done, files, hdir, hnames⟩ := id hlisted
  have hrecover : Ends (recover env false) _ m := ends_recover false hdir hnames
  refine ends_append_unsettled hne hclean hrecovered ?_
  unfold Ends at hrecover ⊢
  -- where the recovery fails the append is over
  have hstopped : (∀ tail, (recover env false m).1 ≠ .ok tail) →
      (recover env false m).2.store.recovered = false ∧
        (recover env false m).2.store.poison = none ∧ (recover env false m).2.Listed ∧
          List.Forall₂ Trimmed m.dir.segments (recover env false m).2.dir.segments := by
    intro hx
    obtain ⟨files', htrimmed, hbecomes⟩ := hrecover.trimmed
    obtain ⟨segs, active, capacity, hsegs, -, hstore⟩ := hrecover.stopped hx
    have hall : List.Forall₂ Trimmed m.dir.segments (done ++ files') := by
      rw [hdir]
      exact List.rel_append (List.forall₂_same.mpr fun _ _ => .inl rfl) htrimmed
    refine ⟨by rw [hstore]; exact hrecovered, by rw [hstore]; exact hclean,
      hlisted.trimmed hall hbecomes.1 (by rw [hstore]; exact hsegs), ?_⟩
    rw [hbecomes.1]
    exact hall
  cases hx : (recover env false m).1 with
  | ok tail =>
      obtain ⟨z, capacity, -, -, hstore⟩ := hrecover.through tail hx
      have hset : (recover env false m).2.store.recovered = true := by rw [hstore]
      refine ⟨by rw [hstore], hset, ?_⟩
      exact stays_append records _ hset
  | error e => exact ⟨(fun h => by cases h), hstopped fun _ h => by rw [hx] at h; cases h⟩
  | died => exact ⟨(fun h => by cases h), hstopped fun _ h => by rw [hx] at h; cases h⟩

/-- A poisoned store refuses every batch. -/
theorem append_poisoned {records : List Record} (hne : records ≠ [])
    (hpoison : m.store.poison.isSome = true) :
    Ends (append env records) (fun x m' => x ≠ .ok () ∧ m' = m) m := by
  obtain ⟨poison, hpoison⟩ := Option.isSome_iff_exists.mp hpoison
  rw [append, if_neg fun hempty => hne (List.isEmpty_iff.mp hempty), ends_bind, ends_get, after_ok,
    hpoison]
  exact ⟨(fun h => by cases h), rfl⟩

namespace Watched

variable {w : Watched}

theorem Safe.ends_load (h : w.Safe) : Ends (load V env)
    (fun x m' => Heeds V w.machine x → Safe ⟨m', !x.isOk⟩) w.machine := by
  refine (Wal.ends_load V).mono ?_
  rintro x m' hloading hheeds
  cases x with
  | ok found =>
      obtain ⟨header, z, capacity, -, -, -, hstore⟩ := hloading.through found rfl
      have hset : m'.store.recovered = true := by rw [hstore]
      refine ⟨fun hno => ?_, fun hno => ?_, nofun⟩
      · exact absurd (hset.symm.trans hno) (by decide)
      · exact absurd (hset.symm.trans hno) (by decide)
  | _ =>
      obtain ⟨segs, active, capacity, version, -, hsegs, -, hstore⟩ := hloading.stopped nofun
      have hsame : m'.store.recovered = w.machine.store.recovered ∧
          m'.store.poison = w.machine.store.poison := by
        rw [hstore]
        exact ⟨rfl, rfl⟩
      have hheld := hheeds.resolve_left nofun
      refine ⟨fun hno => ?_, fun hno => ?_, fun _ => ?_⟩
      · rw [show (Watched.machine ⟨m', _⟩).store.recovered = _ from hsame.1] at hno
        cases hsegs with
        | inl hold =>
            exact (h.listed hno).trimmed hloading.trimmed rfl (by rw [hstore]; exact congrArg _ hold)
        | inr hnew =>
            refine ⟨[], m'.dir.segments, rfl, ?_⟩
            rw [names_trimmed hloading.trimmed]
            show m'.store.segments.map Segment.first = _
            rw [hstore]
            exact hnew
      · rw [show (Watched.machine ⟨m', _⟩).store.recovered = _ from hsame.1] at hno
        exact hsame.2.trans (h.clean hno)
      · show m'.store.recovered = false ∨ m'.store.poison.isSome = true
        rw [hsame.1, hsame.2]
        exact hheld

theorem Safe.ends_append (h : w.Safe) (records : List Record) : Ends (append env records)
    (fun _ m' => Safe ⟨m', w.unsettled && !w.machine.settles env records⟩) w.machine := by
  by_cases hnil : records = []
  · have hsame : w.machine.settles env records = false := by simp [Machine.settles, hnil]
    rw [hsame, Bool.not_false, Bool.and_true, append, if_pos (List.isEmpty_iff.mpr hnil)]
    exact h
  cases hrecovered : w.machine.store.recovered with
  | false =>
      refine (ends_append_listed hnil (h.clean hrecovered) hrecovered (h.listed hrecovered)).mono ?_
      intro x m' hends
      split_ifs at hends with hsettles
      · have hset : m'.store.recovered = true := hends
        rw [hsettles, Bool.not_true, Bool.and_false]
        refine ⟨fun hno => ?_, fun hno => ?_, (fun h => by cases h)⟩
        · exact absurd (hset.symm.trans hno) (by decide)
        · exact absurd (hset.symm.trans hno) (by decide)
      · obtain ⟨-, hno, hclean, hlisted, -⟩ := hends
        exact ⟨fun _ => hlisted, fun _ => hclean, fun _ => .inl hno⟩
  | true =>
      have hsame : w.machine.settles env records = false := by simp [Machine.settles, hrecovered]
      rw [hsame, Bool.not_false, Bool.and_true]
      have hset : (append env records w.machine).2.store.recovered = true :=
        stays_append records _ hrecovered
      refine ⟨fun hno => ?_, fun hno => ?_, fun hunsettled => .inr ?_⟩
      · exact absurd (hset.symm.trans hno) (by decide)
      · exact absurd (hset.symm.trans hno) (by decide)
      · have hpoison := (h.held hunsettled).resolve_left fun hno =>
          absurd (hrecovered.symm.trans hno) (by decide)
        have hends : Ends (append env records) _ w.machine := append_poisoned hnil hpoison
        unfold Ends at hends
        rw [show (Watched.machine ⟨(append env records w.machine).2, _⟩) = _ from hends.2]
        exact hpoison

end Watched

theorem Life.safe {w : Watched} (h : Life (Heeds V) w) : w.Safe := by
  induction h with
  | opened env rotateBytes m hopen =>
      obtain ⟨hdir, hok⟩ : Ends (openWith V env rotateBytes) _ m := ends_openWith V rotateBytes
      obtain ⟨header, -, hstore⟩ := hok hopen
      refine ⟨fun _ => ⟨[], (openWith V env rotateBytes m).2.dir.segments, rfl, ?_⟩, fun _ => ?_,
        nofun⟩
      · rw [hdir]
        show (openWith V env rotateBytes m).2.store.segments.map Segment.first = _
        rw [hstore, List.map_map]
        rfl
      · show (openWith V env rotateBytes m).2.store.poison = none
        rw [hstore]
  | load env _ _ hheeds ih => exact ih.ends_load hheeds
  | append env records _ _ ih => exact ih.ends_append records
  | @sync env w _ _ ih =>
      have hends : (Wal.sync env w.machine).2 = w.machine := ends_sync.1
      rw [hends]
      exact ih
  | @writeHeader env view w _ _ ih =>
      obtain ⟨hlisted, hrecovered, hpoison⟩ : Ends (Wal.writeHeader env view) _ w.machine :=
        listed_writeHeader view
      refine ⟨fun hno => hlisted (ih.listed (hrecovered.symm.trans hno)),
        fun hno => hpoison.trans (ih.clean (hrecovered.symm.trans hno)), fun hunsettled => ?_⟩
      show (Wal.writeHeader env view w.machine).2.store.recovered = false ∨
        (Wal.writeHeader env view w.machine).2.store.poison.isSome = true
      rw [hrecovered, hpoison]
      exact ih.held hunsettled

/-- An append begins with a recovery that gets through, or is refused and leaves every
file as it was, but for what is behind its records. -/
def Machine.Guards (m : Machine) (env : Env) (records : List Record) : Prop :=
  m.settles env records = true ∨ (Wal.append env records m).1 ≠ .ok () ∧
    List.Forall₂ (fun f f' => Trimmed f f' ∧ (contents f').records = (contents f).records)
      m.dir.segments (Wal.append env records m).2.dir.segments

/-- Where only loads of stores that were not settled, or are poisoned, have failed, no
append gets past a load that failed. -/
theorem Life.append_guarded {w : Watched} (h : Life (Heeds V) w) (hunsettled : w.unsettled = true)
    (env : Env) {records : List Record} (hne : records ≠ []) : w.machine.Guards env records := by
  have hsafe := h.safe
  have hsame : ∀ {files files' : List File}, List.Forall₂ Trimmed files files' →
      List.Forall₂ (fun f f' => Trimmed f f' ∧ (contents f').records = (contents f).records)
        files files' := fun htrimmed => htrimmed.imp fun f f' hf => ⟨hf, contents_trimmed hf⟩
  cases hrecovered : w.machine.store.recovered with
  | false =>
      have hends : Ends (Wal.append env records) _ w.machine :=
        ends_append_listed hne (hsafe.clean hrecovered) hrecovered (hsafe.listed hrecovered)
      unfold Ends at hends
      split_ifs at hends with hsettles
      · exact .inl hsettles
      · exact .inr ⟨hends.1, hsame hends.2.2.2.2⟩
  | true =>
      have hpoison := (hsafe.held hunsettled).resolve_left fun hno =>
        absurd (hrecovered.symm.trans hno) (by decide)
      have hends : Ends (Wal.append env records) _ w.machine := append_poisoned hne hpoison
      unfold Ends at hends
      rw [Machine.Guards, hends.2]
      exact .inr ⟨hends.1, hsame (List.forall₂_same.mpr fun _ _ => .inl rfl)⟩

end

/-! ### A load that fails on a settled store -/

section Sample

attribute [local instance] ieee

/-- The first segment cannot be read. -/
def unreadable : Env where
  fallocate := true
  locked := false
  reply
    | .scan 1 => .fail
    | _ => .ok
  written _ := []

/-- A store before its first load. -/
def Machine.vacant : Machine :=
  (openWith Mark calm 64 ⟨⟨[], none, 0, 0, 0, false, none⟩, Dir.empty⟩).2

def Machine.loaded : Machine := (load Mark calm Machine.vacant).2

/-- A store that took one record. -/
def Machine.filled : Machine := (append calm [⟨1, [7]⟩] Machine.loaded).2

/-- It failed to load once more. -/
def Machine.shaken : Machine := (load Mark unreadable Machine.filled).2

theorem life_filled {Meets : Machine → Exit Err (Recovered Mark) → Prop}
    (hmeets : ∀ m x, x.isOk = true → Meets m x) : Life Meets ⟨Machine.filled, false⟩ := by
  have hvacant : Life Meets ⟨Machine.vacant, false⟩ := .opened calm 64 _ rfl
  have hok : (load Mark calm Machine.vacant).1.isOk = true := by decide +kernel
  have hloaded : Life Meets ⟨Machine.loaded, false⟩ := by
    have h := Life.load calm hvacant (by decide +kernel) (hmeets _ _ hok)
    rwa [hok] at h
  have h := Life.append calm [⟨1, [7]⟩] hloaded (by decide +kernel)
  rwa [Bool.false_and] at h

/-- The failed load is forgotten, and the record goes. -/
theorem filled_overwritten : ¬∀ w : Watched,
    Life (V := Mark) (fun _ _ => True) w → w.unsettled = true → ∀ env records, records ≠ [] →
      w.machine.Guards env records := by
  intro h
  have hfails : (load Mark unreadable Machine.filled).1.isOk = false := by decide +kernel
  have hlife : Life (V := Mark) (fun _ _ => True) ⟨Machine.shaken, true⟩ := by
    have hfilled : Life (V := Mark) (fun _ _ => True) ⟨Machine.filled, false⟩ :=
      life_filled fun _ _ _ => trivial
    have hstep := Life.load unreadable hfilled (by decide +kernel) trivial
    rwa [hfails] at hstep
  have hguarded := h _ hlife rfl calm [⟨1, [9]⟩] nofun
  cases hguarded with
  | inl hsettles =>
      have hno : Machine.shaken.settles calm [⟨1, [9]⟩] = false := by decide +kernel
      exact absurd (hno.symm.trans hsettles) (by decide)
  | inr hrefused =>
      have hok : (append calm [⟨1, [9]⟩] Machine.shaken).1.isOk = true := by decide +kernel
      exact hrefused.1 (Exit.eq_ok hok)

/-- A second store on the directory of the first. -/
def Machine.reopened : Machine := (openWith Mark calm 64 Machine.filled).2

/-- The witness of `Life.append_guarded`. -/
theorem reopened_guarded :
    (load Mark unreadable Machine.reopened).2.Guards calm [⟨1, [9]⟩] := by
  have hopened : Life (Heeds Mark) ⟨Machine.reopened, false⟩ :=
    .opened calm 64 Machine.filled (Exit.eq_ok (by decide +kernel))
  have hunsettled : Machine.reopened.store.recovered = false := by decide +kernel
  have hfails : (load Mark unreadable Machine.reopened).1.isOk = false := by decide +kernel
  have hlife : Life (Heeds Mark) ⟨(load Mark unreadable Machine.reopened).2, true⟩ := by
    have hheeds : Heeds Mark Machine.reopened (load Mark unreadable Machine.reopened).1 := by
      rw [Heeds, hunsettled]
      exact .inr (.inl rfl)
    have hsurvived : (load Mark unreadable Machine.reopened).1.survived = true := by
      decide +kernel
    have hstep := Life.load unreadable hopened hsurvived hheeds
    rwa [hfails] at hstep
  exact hlife.append_guarded rfl calm nofun

end Sample

end Lug.Wal
