import Lug.Wal.Run

/-!
What a failed append must not leave behind. The file of a segment it started has to begin
as a segment does, and the file in front of it must not end in what a scan takes for the
beginning of a record.
-/

namespace Lug.Wal

open Octets Faulty Runs

variable [Crc32] {V : Type} [Versioned V] [HeaderSerde V] {log log' : Journal} {L L' : Layout}
  {stale : ℕ} {env : Env} {m m' : Machine} {p : Piece} {records : List Record}

/-- Whatever segment is started behind its files, none of them is in the way of a load. -/
structure Layout.Firm (L : Layout) (active : Option ℕ) : Prop where
  whole : ∀ p ∈ L.closed, Untorn p.rest
  stamped : ∀ s, L.stub = some s → 8 ≤ s.stamped
  apart : active = none → ∀ p, L.last = some p → Untorn p.rest

/-- Where the segments of the store start. -/
def Layout.front (next stale : ℕ) (L : Layout) : ℕ :=
  (L.spans.drop stale).head?.elim next Span.first

/-! ### What an append must not fail at -/

/-- An append of these records starts a segment. -/
structure Machine.Rotates (m : Machine) (records : List Record) : Prop where
  nonempty : records ≠ []
  clean : m.store.poison = none
  recovered : m.store.recovered = true
  valid : validate m.store.nextVersion records = .ok ()
  rotating : m.store.rotating = true

/-- A file that a rotation creates gets its magic, unless it is there already. A file that
it fails to cut does not end within the first bytes of a record. -/
structure Machine.Spares (m : Machine) (env : Env) : Prop where
  stamps : m.store.closing env = true → env.reply .create = .ok →
    (∃ f ∈ m.dir.segments, f.1 = m.store.nextVersion) ∨
      env.reply .reserve = .ok ∧ 8 ≤ landed (env.written .stamp) segPrologue
  cuts : env.reply .closeLen ≠ .ok → ∀ segment content, m.store.last = some segment →
    m.store.active = some segment.first → m.dir.bytes segment.path = some content →
      Untorn (content.drop segment.stop)

/-! ### Appends -/

/-- The store of the layout `L` goes on with `L'`, from the same segment on. -/
structure Steady (V : Type) [Versioned V] [HeaderSerde V] (log : Journal) (L : Layout) (stale : ℕ)
    (m : Machine) (log' : Journal) (L' : Layout) (m' : Machine) : Prop where
  kept : Kept V log' L' stale m'
  firm : L'.Firm m'.store.active
  clean : m'.store.poison = m.store.poison
  given : L'.closed.take stale = L.closed.take stale
  front : L'.front log'.next stale = L.front log.next stale

theorem Steady.refl (h : Kept V log L stale m) (hfirm : L.Firm m.store.active) :
    Steady V log L stale m log L m :=
  ⟨h, hfirm, rfl, rfl, rfl⟩

omit [Crc32] in
theorem Layout.front_of_last (hstale : stale ≤ L.closed.length) (hlast : L.last = some p)
    (next : ℕ) : L.front next stale =
      (L.closed.drop stale).head?.elim p.first fun c => c.first := by
  rw [Layout.front, Layout.spans_of_last hlast,
    List.drop_append_of_le_length (by rwa [List.length_map]), ← List.map_drop]
  cases L.closed.drop stale with
  | nil => rfl
  | cons c closed => rfl

omit [Crc32] in
/-- What is written to the last segment leaves the store its first one. -/
theorem Layout.front_with_last (hstale : stale ≤ L.closed.length) (hlast : L.last = some p)
    {last : Piece} (hfirst : last.first = p.first) (n n' : ℕ) :
    Layout.front n' stale { L with last := some last } = L.front n stale := by
  rw [Layout.front_of_last (L := { L with last := some last }) hstale rfl,
    Layout.front_of_last hstale hlast, hfirst]

/-- A rotation leaves the store its first segment, if it had one. -/
theorem Kept.front_started (h : Kept V log L stale m) (cut : Bool) (z : Bytes) :
    Layout.front log.next stale ⟨(L.seal cut).pieces, some ⟨⟨log.next, []⟩, z⟩, none⟩ =
      L.front log.next stale := by
  have hspans : Layout.spans ⟨(L.seal cut).pieces, some ⟨⟨log.next, []⟩, z⟩, none⟩ =
      L.spans ++ [⟨log.next, []⟩] := by
    rw [← L.spans_seal cut]
    exact Layout.spans_of_last (p := ⟨⟨log.next, []⟩, z⟩) rfl
  have hstale : stale ≤ L.spans.length := by
    have hle := h.stale_le
    rw [Layout.spans, Layout.pieces, List.length_map, List.length_append]
    omega
  rw [Layout.front, hspans, List.drop_append_of_le_length hstale, Layout.front]
  cases L.spans.drop stale with
  | nil => rfl
  | cons s spans => rfl

/-- What an append leaves of a layout that is firm, where it goes on. -/
def Continues (V : Type) [Versioned V] [HeaderSerde V] (log : Journal) (records : List Record)
    (L : Layout) (stale : ℕ) (m : Machine) : Exit Err Unit → Machine → Prop
  | .ok _, m' => ∃ L', Steady V log L stale m (log.append records) L' m'
  | .error (.cleanupFailed _ _), m' => ∃ L', Kept V log L' stale m' ∧ L'.Firm m'.store.active
  | .error _, m' => ∃ L', Steady V log L stale m log L' m'
  | .died, _ => True

theorem Wrote.continues (h : Kept V log L stale m) (hwhole : ∀ c ∈ L.closed, Untorn c.rest)
    (hstub : L.stub = none) (hlast : L.last = some p) (hactive : m.store.active = some p.first)
    {x : Exit Err Unit} (hwrote : Wrote V log records L stale p m x m') :
    Continues V log records L stale m x m' := by
  have hfirm : ∀ last : Piece, m'.store.active = m.store.active →
      Layout.Firm { L with last := some last } m'.store.active := by
    intro last hsame
    refine ⟨hwhole, fun s hs => ?_, fun hnone => ?_⟩
    · rw [show Layout.stub { L with last := some last } = L.stub from rfl, hstub] at hs
      cases hs
    · rw [hsame, hactive] at hnone
      cases hnone
  have hfront : ∀ (last : Piece) (n n' : ℕ), last.first = p.first →
      Layout.front n' stale { L with last := some last } = L.front n stale := fun _ n n' hfirst =>
    Layout.front_with_last h.stale_le hlast hfirst n n'
  cases x with
  | died => trivial
  | ok u =>
      obtain ⟨z, -, hkept, hpoison, -, -, hsame⟩ := hwrote
      exact ⟨_, hkept, hfirm _ hsame, hpoison, rfl, hfront _ _ _ rfl⟩
  | error e =>
      cases e with
      | cleanupFailed path offset =>
          obtain ⟨rest, poison, capacity, hkept, hstore⟩ := hwrote
          exact ⟨_, hkept, hfirm _ (by rw [hstore])⟩
      | _ =>
          obtain ⟨-, z, capacity, -, hkept, hstore⟩ := hwrote
          exact ⟨_, hkept, hfirm _ (by rw [hstore]), by rw [hstore], rfl, hfront _ _ _ rfl⟩

/-- Where an append goes on from the layout of a segment that was started. -/
theorem Continues.trans {m₁ : Machine} {L₁ : Layout} {x : Exit Err Unit}
    (h : Continues V log records L₁ stale m₁ x m') (hclean : m₁.store.poison = m.store.poison)
    (hgiven : L₁.closed.take stale = L.closed.take stale)
    (hfront : L₁.front log.next stale = L.front log.next stale) :
    Continues V log records L stale m x m' := by
  have hsteady : ∀ log', (∃ L', Steady V log L₁ stale m₁ log' L' m') →
      ∃ L', Steady V log L stale m log' L' m' := by
    rintro log' ⟨L', hkept, hfirm, hpoison, htake, hsame⟩
    exact ⟨L', hkept, hfirm, hpoison.trans hclean, htake.trans hgiven, hsame.trans hfront⟩
  cases x with
  | died => trivial
  | ok u => exact hsteady _ h
  | error e =>
      cases e with
      | cleanupFailed path offset => exact h
      | _ => exact hsteady _ h

omit [Crc32] in
/-- A rotation that gets stuck leaves the records where they were. -/
theorem Stuck.same (h : Stuck env m L L') : L'.closed = L.closed ∧ L'.spans = L.spans := by
  rw [Stuck] at h
  by_cases hcreated : m.store.closing env = true ∧ env.reply .create = .ok
  · rw [if_pos hcreated] at h
    obtain ⟨s, rfl, -⟩ := h
    exact ⟨rfl, L.spans_seal _⟩
  · rw [if_neg hcreated] at h
    subst h
    exact ⟨rfl, L.spans_seal _⟩

/-- The files of a store that starts a segment are named for versions before it. -/
theorem Kept.below_next (h : Kept V log L stale m)
    (hfull : ∀ p, L.last = some p → p.records ≠ [] ∧ Blank p.rest) (hstub : L.stub = none) :
    ∀ f ∈ m.dir.segments, f.1 < log.next := by
  intro f hf
  have hfiles : m.dir.segments = L.pieces.map Piece.file := by
    rw [h.files, Layout.files, hstub]
    exact List.append_nil _
  rw [hfiles] at hf
  obtain ⟨p, hp, rfl⟩ := List.mem_map.mp hf
  have hnext := h.next_le (List.mem_map_of_mem hp)
  have hrecords : p.records ≠ [] := by
    cases List.mem_append.mp hp with
    | inl hclosed => exact (h.closed p hclosed).1
    | inr hlast => exact (hfull p (Option.mem_toList.mp hlast)).1
  have hlong := List.length_pos_of_ne_nil hrecords
  rw [Span.next] at hnext
  show p.first < log.next
  omega

/-- A rotation that gets stuck, and spares the log, leaves its files firm. -/
theorem Kept.firm_stuck (h : Kept V log L stale m) (hfirm : L.Firm m.store.active)
    (hfull : ∀ p, L.last = some p → p.records ≠ [] ∧ Blank p.rest) (hspares : m.Spares env)
    (hstuck : Stuck env m L L') : L'.Firm none := by
  have hapart : ∀ q, (L.seal (m.store.cutting env)).last = some q → Untorn q.rest := by
    intro q hq
    obtain ⟨p, hlast, rfl⟩ := Option.map_eq_some_iff.mp hq
    cases hcut : m.store.cutting env with
    | true => exact fun hshort => absurd hshort.1 (Nat.lt_irrefl 0)
    | false =>
        show Untorn p.rest
        cases hactive : m.store.active with
        | none => exact hfirm.apart hactive p hlast
        | some file =>
            obtain ⟨hstub, q, hlast', hname⟩ := h.open_last (by rw [hactive]; rfl)
            rw [hlast] at hlast'
            cases hlast'
            have hlen : env.reply .closeLen ≠ .ok := by
              intro hok
              rw [SegmentStore.cutting, hactive, hok] at hcut
              cases hcut
            have hbytes : m.dir.bytes p.segment.path = some (p.body ++ p.rest) :=
              Dir.bytes_segment (h.segments_of_last hstub hlast)
            have huntorn := hspares.cuts hlen p.segment _ (by rw [h.last_segment, hlast]; rfl)
              hname hbytes
            rwa [show p.segment.stop = p.stop from rfl, ← Span.length_body, List.drop_left]
              at huntorn
  rw [Stuck] at hstuck
  by_cases hcreated : m.store.closing env = true ∧ env.reply .create = .ok
  · rw [if_pos hcreated] at hstuck
    obtain ⟨s, rfl, hstamped⟩ := hstuck
    refine ⟨hfirm.whole, ?_, fun _ => hapart⟩
    rintro t ht
    cases ht
    rw [hstamped]
    cases hstub : L.stub with
    | some t => exact (hfirm.stamped t hstub).trans (le_max_left ..)
    | none =>
        refine le_max_of_le_right ?_
        cases hspares.stamps hcreated.1 hcreated.2 with
        | inl hthere =>
            obtain ⟨f, hf, hname⟩ := hthere
            rw [h.nextVersion] at hname
            exact absurd hname (h.below_next hfull hstub f hf).ne
        | inr hstamps =>
            rw [if_pos hstamps.1]
            exact hstamps.2
  · rw [if_neg hcreated] at hstuck
    subst hstuck
    exact ⟨hfirm.whole, hfirm.stamped, fun _ => hapart⟩

/-- An append that spares the log goes on with a firm layout, unless it fails to clean
up. -/
theorem Appending.continues (h : Kept V log L stale m) (hfirm : L.Firm m.store.active)
    (hspares : m.Rotates records → m.Spares env) {x : Exit Err Unit}
    (happend : Appending V env log records L stale m x m') :
    Continues V log records L stale m x m' := by
  have hrotates : Accepted log records m → m.store.rotating = true → m.Rotates records :=
    fun haccepted hrotating => ⟨haccepted.nonempty, haccepted.clean, h.recovered,
      h.nextVersion ▸ haccepted.valid, hrotating⟩
  cases happend with
  | nothing hnil =>
      refine ⟨L, ?_⟩
      rw [hnil, Journal.append_nil]
      exact .refl h hfirm
  | poisoned q hne hpoison => exact ⟨L, .refl h hfirm⟩
  | refused e hne hclean hvalid =>
      have hkeep : ∃ L', Steady V log L stale m log L' m := ⟨L, .refl h hfirm⟩
      cases e with
      | cleanupFailed path offset => exact ⟨L, h, hfirm⟩
      | _ => exact hkeep
  | stuck x L' m' haccepted hrotating hx hio hstuck hkept hstore =>
      have hfull := h.full_of_rotating haccepted.clean hrotating
      cases x with
      | ok u => exact absurd rfl hx
      | died => trivial
      | error e =>
          obtain ⟨path, rfl⟩ := hio e rfl
          have hspared := h.firm_stuck hfirm hfull (hspares (hrotates haccepted hrotating)) hstuck
          obtain ⟨hclosed, hspans⟩ := hstuck.same
          refine ⟨L', hkept, ?_, ?_, by rw [hclosed], by rw [Layout.front, Layout.front, hspans]⟩
          · rw [hstore]
            exact hspared
          · rw [hstore]
  | rotated z m₁ x m' haccepted hrotating hz hclosing hkept hstore hwrote =>
      have hwhole : ∀ c ∈ (L.seal (m.store.cutting env)).pieces, Untorn c.rest := by
        intro c hc
        cases List.mem_append.mp hc with
        | inl hc => exact hfirm.whole c hc
        | inr hc =>
            obtain ⟨q, hlast, rfl⟩ := Option.map_eq_some_iff.mp (Option.mem_toList.mp hc)
            cases hcut : m.store.cutting env with
            | true => exact fun hshort => absurd hshort.1 (Nat.lt_irrefl 0)
            | false =>
                refine hfirm.apart ?_ q hlast
                cases hactive : m.store.active with
                | none => rfl
                | some file =>
                    rw [SegmentStore.closing, hactive] at hclosing
                    have hthrough := of_decide_eq_true hclosing
                    rw [SegmentStore.cutting, hactive, hthrough.1] at hcut
                    cases hcut
      have hcontinues := hwrote.continues hkept hwhole rfl rfl (by rw [hstore])
      refine hcontinues.trans ?_ ?_ ?_
      · rw [hstore]
      · have hstale := h.stale_le
        exact List.take_append_of_le_length hstale
      · exact h.front_started _ z
  | wrote p x m' haccepted hrotating hlast hstub hactive hwrote =>
      exact hwrote.continues h hfirm.whole hstub hlast hactive

/-! ### Loads and checkpoints -/

/-- A cut takes no record. -/
theorem contents_cut (f : File) : (contents (cut f)).records = (contents f).records := by
  obtain ⟨hbytes, hfits, -⟩ := found_spec (f.2.drop segPrologue)
  have hdrop : (cut f).2.drop segPrologue = encodeRecords (contents f).records ++ [] := by
    show (f.2.take (segPrologue + (encodeRecords (contents f).records).length)).drop segPrologue = _
    rw [List.drop_take, Nat.add_sub_cancel_left, List.append_nil, contents]
    exact (List.prefix_iff_eq_take.mp ⟨_, hbytes.symm⟩).symm
  rw [contents, hdrop, found_encodeRecords (show ∀ r ∈ (contents f).records, Fits r from hfits),
    found_blank blank_nil, List.append_nil]

/-- A recovery leaves a firm layout. -/
theorem Kept.firm_recovered (h : Kept V log L stale m) {files : List File} {z : Bytes}
    (hfiles : m.dir.segments = padLast z (files.map cut))
    (hactive : m.store.active = none → files = []) : L.Firm m.store.active := by
  cases List.eq_nil_or_concat files with
  | inl hnil =>
      subst hnil
      obtain ⟨rfl, -⟩ := h.toLeft.eq_nil hfiles
      exact ⟨by simp, (fun s hs => by cases hs), (fun _ p hp => by cases hp)⟩
  | inr hcons =>
      obtain ⟨pre, f, rfl⟩ := hcons
      have hopen : m.store.active.isSome := by
        rw [Option.isSome_iff_ne_none]
        intro hnone
        simpa using hactive hnone
      obtain ⟨hstub, q, hlast, hname⟩ := h.open_last hopen
      refine ⟨fun p hp => ?_, fun s hs => ?_, fun hnone => ?_⟩
      · rw [h.segments_of_last hstub hlast, List.concat_eq_append, List.map_append,
          List.map_singleton, padLast_append] at hfiles
        have hpre := List.append_inj_left' hfiles rfl
        have hmem : p.file ∈ pre.map cut := by
          rw [← hpre]
          exact List.mem_map_of_mem hp
        obtain ⟨g, -, hg⟩ := List.mem_map.mp hmem
        -- the file ends where its records do
        have hstop : stopOf p.file = stopOf g := by
          rw [stopOf, stopOf, ← hg, contents_cut]
        have hlength : p.file.2.length ≤ stopOf p.file := by
          rw [hstop, ← hg, cut, List.length_take]
          exact min_le_left ..
        rw [Piece.stopOf_file (h.closed_fits p hp), found_blank (h.closed p hp).2] at hlength
        have hlong : p.file.2.length = p.stop + p.rest.length := by
          rw [← Span.length_body]
          exact List.length_append
        rw [encodeRecords_nil, List.length_nil] at hlength
        intro hshort
        omega
      · rw [hstub] at hs
        cases hs
      · rw [hnone] at hopen
        cases hopen

/-- A checkpoint takes no file but closed ones. -/
theorem Checkpointing.firm {view : V} {x : Exit Err Unit}
    (h : Checkpointing V env log L stale m view x m') (hfirm : L.Firm m.store.active) :
    ∃ L' stale', Kept V log L' stale' m' ∧ L'.Firm m'.store.active := by
  cases h with
  | unpublished _ _ _ _ hkept hstore =>
      exact ⟨L, stale, hkept, hstore ▸ hfirm⟩
  | published _ _ _ _ _ _ hkept hstore =>
      exact ⟨L, stale, hkept, hstore ▸ hfirm⟩
  | taken _ gone stale' _ _ _ hkept _ hstore =>
      refine ⟨_, stale', hkept, fun p hp => hfirm.whole p ?_, hfirm.stamped, ?_⟩
      · refine (List.mem_append.mp hp).elim List.mem_of_mem_take List.mem_of_mem_drop
      · rw [hstore]
        exact hfirm.apart

/-! ### Runs -/

/-- The worlds that come of an empty directory by operations that meet a condition, with
what becomes of their calls. -/
inductive Course (Meets : World → Env → Event V → Prop) : World → Prop
  | start (store : SegmentStore) : Course Meets ⟨.down, ⟨store, Dir.empty⟩, ⟨0, []⟩⟩
  | step {w : World} (env : Env) {event : Event V} : Course Meets w → w.Driven event →
      Meets w env event → Course Meets (w.step env event)

theorem Course.run {Meets : World → Env → Event V → Prop} {w : World} (h : Course Meets w) :
    Run (fun _ (_ : Event V) => True) w := by
  induction h with
  | start store => exact .start store
  | step env _ hdriven _ ih => exact .step env ih hdriven trivial

namespace World

variable {w : World}

/-- The machine an append works on, which may have to recover first. -/
def ready (w : World) (env : Env) (records : List Record) : Machine :=
  if w.machine.settles env records then (recover env false w.machine).2 else w.machine

/-- An append that starts a segment spares the log, if the process lives. -/
def Spares (w : World) (env : Env) : Event V → Prop
  | .append records => (w.step env (.append records : Event V)).phase ≠ .down →
      (w.ready env records).Rotates records → (w.ready env records).Spares env
  | _ => True

/-- The files of a loaded store are firm. -/
def Firm (V : Type) [Versioned V] [HeaderSerde V] (w : World) : Prop :=
  w.phase = .up → ∃ L stale, Kept V w.log L stale w.machine ∧ L.Firm w.machine.store.active

theorem Good.firm (h : w.Good V) {files : List File} {z : Bytes}
    (hfiles : w.machine.dir.segments = padLast z (files.map cut))
    (hactive : w.machine.store.active = none → files = []) : w.Firm V := by
  intro hup
  rw [Good, hup] at h
  obtain ⟨L, stale, hkept⟩ := h
  exact ⟨L, stale, hkept, hkept.firm_recovered hfiles hactive⟩

theorem firm_load [LawfulHeaderSerde V] (h : w.Good V) (hdown : w.phase ≠ .down) :
    (w.step env (.load : Event V)).Firm V := by
  have hgood : (w.step env (.load : Event V)).Good V := good_load h hdown
  intro hup
  have hends : Ends (load V env) (Loading V env w.machine) w.machine := ends_load V
  have hstep : w.step env (.load : Event V) =
      w.loading (load V env w.machine).1 (load V env w.machine).2 := rfl
  rw [Ends] at hends
  rw [hstep] at hgood hup ⊢
  generalize load V env w.machine = ended at hends hgood hup ⊢
  obtain ⟨x, m'⟩ := ended
  cases x with
  | died => cases hup
  | error e =>
      rw [loading] at hup
      split_ifs at hup
  | ok found =>
      obtain ⟨header, z, capacity, -, -, hfiles, hstore⟩ := hends.through found rfl
      refine hgood.firm hfiles (fun hnone => ?_) hup
      have hnone : m'.store.active = none := hnone
      rw [hstore, Option.map_eq_none_iff, List.getLast?_eq_none_iff] at hnone
      exact hnone

theorem firm_of_continues {x : Exit Err Unit}
    (h : Continues V w.log records L stale m x m') : (w.appending records x m').Firm V := by
  intro hup
  cases x with
  | died => cases hup
  | ok u =>
      obtain ⟨L', hsteady⟩ := h
      exact ⟨L', stale, hsteady.kept, hsteady.firm⟩
  | error e =>
      cases e with
      | cleanupFailed path offset =>
          obtain ⟨L', hkept, hfirm⟩ := h
          exact ⟨L', stale, hkept, hfirm⟩
      | _ =>
          obtain ⟨L', hsteady⟩ := h
          exact ⟨L', stale, hsteady.kept, hsteady.firm⟩

/-- A recovery that an append begins with leaves a firm layout. -/
theorem firm_recover (h : Fresh V log L m) : Ends (recover env false) (fun x m' => x.isOk = true →
    m'.store.poison = none ∧
      ∃ L', Kept V (log.append (log.beyond m.dir)) L' 0 m' ∧ L'.Firm m'.store.active) m := by
  refine (h.ends_recover.and
    (Wal.ends_recover false (List.nil_append _).symm h.names)).mono ?_
  rintro x m' ⟨⟨hok, -⟩, hrecovering⟩ hx
  obtain ⟨tail, rfl⟩ := Exit.exists_of_isOk hx
  obtain ⟨L', hkept, hclean⟩ := hok tail rfl
  obtain ⟨z, capacity, -, hfiles, hstore⟩ := hrecovering.through tail rfl
  refine ⟨hclean, L', hkept, hkept.firm_recovered hfiles fun hnone => ?_⟩
  rw [hstore] at hnone
  have hnone : (m.dir.segments.getLast?.map Prod.fst).or m.store.active = none := hnone
  rw [Option.or_eq_none_iff, Option.map_eq_none_iff, List.getLast?_eq_none_iff] at hnone
  exact hnone.1

theorem firm_append (h : w.Good V) (hfirm : w.Firm V)
    (hdriven : w.Driven (.append records : Event V))
    (hspares : w.Spares env (.append records : Event V)) :
    (w.step env (.append records : Event V)).Firm V := by
  intro hup
  have hspares := hspares (by rw [hup]; decide)
  have hstep : w.step env (.append records : Event V) = (w.settle env records).appending records
      (append env records w.machine).1 (append env records w.machine).2 := rfl
  by_cases hsettles : w.machine.settles env records = true
  · -- the store recovers first, and goes on from there
    have hsettled : w.settle env records = ⟨.up, w.machine, w.adopted⟩ := by
      rw [settle, if_pos hsettles]
    rw [ready, if_pos hsettles] at hspares
    rw [hstep, hsettled] at hup ⊢
    obtain ⟨⟨⟨hne, hclean⟩, hunrecovered⟩, hok⟩ :
        ((records ≠ [] ∧ w.machine.store.poison = none) ∧
          w.machine.store.recovered = false) ∧ (recover env false w.machine).1.isOk = true := by
      simpa [Machine.settles] using hsettles
    have hopened : w.phase = .opened := by
      rcases hdriven with hphase | hphase | ⟨-, hpoison⟩
      · exact hphase
      · rw [Good, hphase] at h
        obtain ⟨L, stale, hkept⟩ := h
        rw [hkept.recovered] at hunrecovered
        cases hunrecovered
      · rw [hclean] at hpoison
        cases hpoison
    rw [Good, hopened] at h
    obtain ⟨L, hfresh⟩ := h
    have hrecover : Ends (recover env false) _ w.machine := firm_recover hfresh
    obtain ⟨hclean', L', hkept, hfirm'⟩ := hrecover hok
    have hends : Ends (append env records) (fun x m' =>
        Continues V w.adopted records L' 0 (recover env false w.machine).2 x m') w.machine := by
      refine ends_append_unsettled hne hclean hunrecovered ?_
      obtain ⟨tail, htail⟩ := Exit.exists_of_isOk hok
      unfold Ends
      rw [htail]
      have happend : Ends (append env records) _ (recover env false w.machine).2 :=
        ends_append hkept
      exact ⟨hclean', hkept.recovered, happend.1.continues hkept hfirm' hspares⟩
    exact firm_of_continues (w := ⟨.up, w.machine, w.adopted⟩) hends hup
  · have hsame : w.settle env records = w := by
      rw [settle, if_neg hsettles]
    rw [ready, if_neg hsettles] at hspares
    rw [hstep, hsame] at hup ⊢
    have hphase : w.phase = .up := by
      generalize append env records w.machine = ended at hup
      obtain ⟨x, m'⟩ := ended
      cases x with
      | died => cases hup
      | ok u => exact hup
      | error e => exact hup
    obtain ⟨L, stale, hkept, hfirm⟩ := hfirm hphase
    have hends : Ends (append env records) _ w.machine := ends_append hkept
    exact firm_of_continues (hends.1.continues hkept hfirm hspares) hup

omit [Crc32] in
theorem machine_checkpointing (version : ℕ) (x : Exit Err Unit) (m : Machine) :
    (w.checkpointing version x m).machine = m := by
  cases x <;> rfl

omit [Crc32] in
theorem log_checkpointing (x : Exit Err Unit) (m : Machine) :
    (w.checkpointing w.log.tip x m).log = w.log := by
  cases x <;> simp [checkpointing]

theorem firm_writeHeader [LawfulHeaderSerde V] (h : w.Good V) (hfirm : w.Firm V) {view : V}
    (hdriven : w.Driven (.writeHeader view)) : (w.step env (.writeHeader view)).Firm V := by
  have hgood : (w.step env (.writeHeader view)).Good V := good_writeHeader h hdriven
  have hstep : w.step env (.writeHeader view) = w.checkpointing (Versioned.version view)
      (writeHeader env view w.machine).1 (writeHeader env view w.machine).2 := rfl
  by_cases hwhole : w.phase = .up ∧ Versioned.version view = w.log.tip
  · obtain ⟨hphase, hview⟩ := hwhole
    obtain ⟨L, stale, hkept, hfirm⟩ := hfirm hphase
    have hends : Ends (writeHeader env view) _ w.machine := ends_writeHeader hkept hview
    obtain ⟨L', stale', hkept', hfirm'⟩ := hends.firm hfirm
    rw [hstep, hview]
    intro _
    rw [machine_checkpointing, log_checkpointing]
    exact ⟨L', stale', hkept', hfirm'⟩
  · obtain ⟨-, hsegs, hfiles⟩ := hdriven.resolve_left hwhole
    have hends : Ends (writeHeader env view) _ w.machine := ends_writeHeader_empty hsegs
    have hempty : (w.step env (.writeHeader view)).machine.dir.segments =
        padLast [] ([].map cut) := by
      rw [hstep, machine_checkpointing]
      exact hends.1.trans hfiles
    exact hgood.firm hempty fun _ => rfl

theorem firm_step [LawfulHeaderSerde V] (h : w.Good V) (hfirm : w.Firm V) {event : Event V}
    (hdriven : w.Driven event) (hspares : w.Spares env event) : (w.step env event).Firm V := by
  cases event with
  | load => exact firm_load h hdriven
  | append records => exact firm_append h hfirm hdriven hspares
  | writeHeader view => exact firm_writeHeader h hfirm hdriven
  | kill => exact fun hup => by cases hup
  | opening rotateBytes =>
      intro hup
      have hstep : w.step env (.opening rotateBytes : Event V) = w.opening
          (openWith V env rotateBytes w.machine).1 (openWith V env rotateBytes w.machine).2 := rfl
      rw [hstep] at hup
      generalize openWith V env rotateBytes w.machine = ended at hup
      obtain ⟨x, m'⟩ := ended
      cases x <;> cases hup
  | sync =>
      have hends : Ends (sync env) _ w.machine := ends_sync
      have hstep : w.step env (.sync : Event V) =
          w.syncing (sync env w.machine).1 (sync env w.machine).2 := rfl
      rw [hstep, hends.1]
      intro hup
      generalize (sync env w.machine).1 = x at hup ⊢
      cases x with
      | died => cases hup
      | ok u => exact hfirm hup
      | error e => exact hfirm hup

end World

/-- The files of a loaded store are firm in a run whose appends spare the log. -/
theorem Course.firm [LawfulHeaderSerde V] {w : World} (h : Course (V := V) World.Spares w) :
    w.Firm V := by
  induction h with
  | start store => exact fun hup => by cases hup
  | step env hcourse hdriven hspares ih =>
      exact World.firm_step hcourse.run.good ih hdriven hspares

end Lug.Wal
