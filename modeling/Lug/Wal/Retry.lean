import Lug.Lib.Agree
import Lug.Wal.Firm
import Lug.Wal.Publish
import Lug.Wal.Reading

/-!
A failed append and the store it leaves: whoever goes on with it cannot tell that the
append was made, if it spared the log and could clean up.
-/

namespace Lug.Wal

open Octets Faulty Runs

section

variable [Crc32] {V : Type} [Versioned V] [HeaderSerde V] {log log' : Journal} {L L' : Layout}
  {stale : ℕ} {env env' : Env} {m m' : Machine} {p : Piece} {records : List Record}

/-! ### What a recovery makes of a firm layout -/

/-- Files in front that are not torn are surveyed by themselves. -/
theorem survey_append {version : ℕ} {collect : Bool} {files rest : List File}
    {acc : Option ℕ × List Record} (hwhole : ∀ f ∈ files, (contents f).torn = false) :
    survey version collect (files ++ rest) acc =
      (survey version collect files acc).bind (survey version collect rest) := by
  induction files generalizing acc with
  | nil => rfl
  | cons f files ih =>
      have huntorn : ∀ more : List File, ¬((contents f).torn = true ∧ more ≠ []) := by
        rintro more ⟨htorn, -⟩
        rw [hwhole f List.mem_cons_self] at htorn
        cases htorn
      rw [List.cons_append, survey, survey]
      by_cases hmagic : HasMagic f
      · rw [if_neg (not_not.mpr hmagic), if_neg (not_not.mpr hmagic)]
        cases (contents f).records.foldlM (visitRecord version collect f.1) acc with
        | error e => rfl
        | ok acc =>
            dsimp only
            rw [if_neg (huntorn _), if_neg (huntorn _)]
            exact ih fun g hg => hwhole g (List.mem_cons_of_mem _ hg)
      · rw [if_pos hmagic, if_pos hmagic]
        rfl

/-- Once a version is due, every record adds one to it. -/
theorem dueAfter_some (n : ℕ) (files : List File) :
    dueAfter (some n) files = some (n + (recordsOf files).length) := by
  induction files generalizing n with
  | nil => rfl
  | cons f files ih =>
      have hdue : due (some n) f = some (n + (contents f).records.length) := by
        rw [due]
        split_ifs with hnil
        · rw [hnil]
          rfl
        · rfl
      rw [dueAfter_cons, hdue, ih, recordsOf_cons, List.length_append, Nat.add_assoc]

/-- What the records from version `front` on add to a survey. -/
def resume (version : ℕ) (collect : Bool) (front : ℕ) (records : List Record)
    (acc : Option ℕ × List Record) : Except Err (Option ℕ × List Record) :=
  if records = [] then .ok acc
  else if acc.1.getD front = front then
    .ok (some (front + records.length),
      acc.2 ++ records.filter fun r => collect && decide (version < r.version))
  else .error (.gap (.segment front) (acc.1.getD front) front)

/-- A record that is not due stops a survey. -/
theorem survey_gap {version : ℕ} {collect : Bool} {f : File} {rest : List File}
    {acc : Option ℕ × List Record} (hmagic : HasMagic f)
    (hrun : Consecutive Record.version f.1 (contents f).records)
    (hnonempty : (contents f).records ≠ []) (hdue : acc.1.getD f.1 ≠ f.1) :
    survey version collect (f :: rest) acc =
      .error (.gap (.segment f.1) (acc.1.getD f.1) f.1) := by
  obtain ⟨expect, tail⟩ := acc
  obtain ⟨r, records, hrecords⟩ := List.exists_cons_of_ne_nil hnonempty
  rw [survey, if_neg (not_not.mpr hmagic), hrecords, List.foldlM_cons]
  rw [hrecords] at hrun
  have hr : r.version = f.1 := hrun.1
  cases expect with
  | none => exact absurd rfl hdue
  | some e =>
      have hvisit : visitRecord version collect f.1 (some e, tail) r =
          .error (.gap (.segment f.1) e r.version) := by
        rw [visitRecord]
        exact if_pos fun hsame => hdue (hsame.symm.trans hr)
      rw [hvisit, hr]
      rfl

/-- The survey of segments that follow one another from version `n` on, nothing torn but
perhaps the last. -/
theorem survey_pieces {n version : ℕ} {collect : Bool} {ps : List Piece}
    {acc : Option ℕ × List Record}
    (hfits : ∀ c ∈ ps, ∀ r ∈ c.records, Fits r)
    (hrun : ∀ c ∈ ps, Consecutive Record.version c.first c.records)
    (hclosed : ∀ c ∈ ps, c.records ≠ [] ∧ Blank c.rest) (hwhole : ∀ c ∈ ps, Untorn c.rest)
    (hpfits : ∀ r ∈ p.records, Fits r)
    (hprun : Consecutive Record.version p.first p.records) (hblank : Blank p.rest)
    (hlinked : Linked n (ps.map Piece.toSpan ++ [p.toSpan])) :
    survey version collect (ps.map Piece.file ++ [p.file]) acc =
      resume version collect n ((ps.map Piece.toSpan ++ [p.toSpan]).flatMap Span.records) acc := by
  have hcontents := Piece.contents_of_blank hpfits hblank
  have hpieces : (ps.map Piece.toSpan).flatMap Span.records =
      recordsOf (ps.map Piece.file) := by
    rw [recordsOf, List.flatMap_map, List.flatMap_map]
    refine List.flatMap_congr fun c hc => ?_
    rw [Piece.contents_of_blank (hfits c hc) (hclosed c hc).2]
  have hall : (ps.map Piece.toSpan ++ [p.toSpan]).flatMap Span.records =
      recordsOf (ps.map Piece.file ++ [p.file]) := by
    rw [List.flatMap_append, hpieces, recordsOf_append, recordsOf_cons, hcontents]
    simp
  obtain ⟨hlink, hpfirst, -⟩ := linked_append.mp hlinked
  rw [hall, resume]
  by_cases hnil : recordsOf (ps.map Piece.file ++ [p.file]) = []
  · -- then the last segment is the only one
    obtain rfl : ps = [] := by
      cases ps with
      | nil => rfl
      | cons c cs =>
          rw [← hall, List.map_cons, List.cons_append, List.flatMap_cons] at hnil
          exact absurd (List.append_eq_nil_iff.mp hnil).1 (hclosed c List.mem_cons_self).1
    rw [if_pos hnil]
    rw [List.map_nil, List.nil_append, recordsOf_cons, hcontents, recordsOf_nil] at hnil
    have hrecords : p.records = [] := (List.append_eq_nil_iff.mp hnil).1
    show survey version collect [p.file] acc = _
    rw [survey, if_neg (not_not.mpr p.hasMagic), hcontents]
    simp [hrecords, survey, Pure.pure, Except.pure]
  · rw [if_neg hnil]
    obtain ⟨f, rest, hcons, hname, hfirst, hmagic, hfrun⟩ : ∃ f rest,
        ps.map Piece.file ++ [p.file] = f :: rest ∧ f.1 = n ∧ (contents f).records ≠ [] ∧
          HasMagic f ∧ Consecutive Record.version f.1 (contents f).records := by
      cases ps with
      | nil =>
          rw [List.map_nil, List.nil_append, recordsOf_cons, recordsOf_nil, List.append_nil] at hnil
          refine ⟨p.file, [], rfl, hpfirst, hnil, p.hasMagic, ?_⟩
          rw [hcontents]
          exact hprun
      | cons c cs =>
          have hc := List.mem_cons_self (a := c) (l := cs)
          have hccontents := Piece.contents_of_blank (hfits c hc) (hclosed c hc).2
          refine ⟨c.file, cs.map Piece.file ++ [p.file], rfl, hlink.1, ?_, c.hasMagic, ?_⟩
          · rw [hccontents]
            exact (hclosed c hc).1
          · rw [hccontents]
            exact hrun c hc
    by_cases hdue : acc.1.getD n = n
    · have hadopt : Adoptable (some n) (ps.map Piece.file ++ [p.file]) := by
        refine (adoptable_pieces (by simp) hfits hrun hclosed).mpr ⟨⟨hlink, hwhole⟩, p.hasMagic, ?_,
          fun hne => absurd rfl hne, trivial⟩
        rw [hcontents]
        exact hpfirst ▸ hprun
      have hstart : Adoptable acc.1 (ps.map Piece.file ++ [p.file]) ∧
          dueAfter acc.1 (ps.map Piece.file ++ [p.file]) =
            dueAfter (some n) (ps.map Piece.file ++ [p.file]) := by
        cases hacc : acc.1 with
        | none =>
            rw [hcons] at hadopt ⊢
            rw [← hname] at hadopt ⊢
            refine ⟨(adoptable_some hfirst).mpr hadopt, ?_⟩
            rw [dueAfter_cons, dueAfter_cons, due_some hfirst]
        | some e =>
            rw [hacc] at hdue
            obtain rfl : e = n := hdue
            exact ⟨hadopt, rfl⟩
      rw [if_pos hdue]
      refine survey_ok_iff.mpr ⟨hstart.1, ?_⟩
      rw [hstart.2, dueAfter_some]
    · rw [if_neg hdue, hcons, ← hname]
      rw [← hname] at hdue
      exact survey_gap hmagic hfrun hfirst hdue

/-- The segments of the store, with nothing but zeroes at their end: what a survey of them
adds. -/
theorem Left.survey_live {d : Dir} (h : Left V log L d) (hstub : L.stub = none)
    (hlast : L.last = some p) (hblank : Blank p.rest) (hwhole : ∀ c ∈ L.closed, Untorn c.rest)
    (hstale : stale ≤ L.closed.length) (hlinked : ∃ n, Linked n (L.spans.drop stale)) :
    d.segments = (L.closed.take stale).map Piece.file ++
        ((L.closed.drop stale).map Piece.file ++ [p.file]) ∧
      (∀ version collect acc,
        survey version collect ((L.closed.drop stale).map Piece.file ++ [p.file]) acc =
          resume version collect (L.front log.next stale) (log.since (L.front log.next stale))
            acc) ∧
      log.base + 1 ≤ L.front log.next stale ∧
      (log.since (L.front log.next stale) = [] → p.first = log.next) := by
  have hspans : L.spans.drop stale = (L.closed.drop stale).map Piece.toSpan ++ [p.toSpan] := by
    rw [Layout.spans_of_last hlast, List.drop_append_of_le_length (by rwa [List.length_map]),
      List.map_drop]
  obtain ⟨n, hlinked⟩ := hlinked
  have hfront : L.front log.next stale = n := by
    rw [Layout.front]
    cases hhead : L.spans.drop stale with
    | nil =>
        rw [hspans] at hhead
        simp at hhead
    | cons s spans =>
        rw [hhead] at hlinked
        exact hlinked.1
  have hlive : ∀ s ∈ L.spans.drop stale, s ∈ L.spans := fun s hs => List.mem_of_mem_drop hs
  have hrecords := hlinked.records fun s hs => h.taken s (hlive s hs)
  have hnext := (h.last p hlast).1
  rw [hspans, nextOf_append_singleton, hnext, Journal.since_next, List.append_nil] at hrecords
  have hclosed : ∀ c ∈ L.closed.drop stale, c ∈ L.closed := fun c hc => List.mem_of_mem_drop hc
  have hmem := Layout.mem_spans_of_last hlast
  have hpos : log.base + 1 ≤ n := by
    rw [hspans] at hlinked
    cases hdrop : L.closed.drop stale with
    | nil =>
        rw [hdrop] at hlinked
        exact hlinked.1 ▸ (h.taken p.toSpan hmem).1
    | cons c cs =>
        rw [hdrop] at hlinked
        have hc : c ∈ L.closed := hclosed c (by rw [hdrop]; exact List.mem_cons_self)
        exact hlinked.1 ▸ (h.taken c.toSpan (Layout.mem_spans_of_mem_closed hc)).1
  rw [hfront]
  refine ⟨?_, fun version collect acc => ?_, hpos, fun hnil => ?_⟩
  · rw [h.segments_of_last hstub hlast, ← List.append_assoc, ← List.map_append,
      List.take_append_drop]
  · rw [hrecords]
    rw [hspans] at hlinked
    exact survey_pieces (fun c hc => h.closed_fits c (hclosed c hc))
      (fun c hc => h.closed_run c (hclosed c hc)) (fun c hc => h.closed c (hclosed c hc))
      (fun c hc => hwhole c (hclosed c hc)) (h.fits_span hmem) (h.consecutive hmem) hblank hlinked
  · rw [hnil, List.flatMap_append, eq_comm, List.append_eq_nil_iff] at hrecords
    have hempty : p.records = [] := by simpa using hrecords.2
    rw [← hnext, Span.next, hempty]
    rfl

/-- What a recovery makes of a directory whose segments from version `front` on hold the
rest of the log, behind the files `given`. -/
def Journal.recovery (log : Journal) (version : ℕ) (collect : Bool) (given : List File)
    (front : ℕ) : Except Err (List Record) :=
  match (survey version collect given (none, [])).bind
      (resume version collect front (log.since front)) with
  | .error e => .error e
  | .ok (expect, tail) =>
      if expect.elim log.tip (fun e => e - 1) < version then
        .error (.headerAhead version (expect.elim log.tip fun e => e - 1))
      else checkTail version tail

/-- A recovery of a firm layout sees no more of it than its log, where the segments of the
store start and what files stand in front of them. -/
theorem Kept.recovery_eq (h : Kept V log L stale m) (hfirm : L.Firm m.store.active)
    (hclean : m.store.poison = none) {version : ℕ} (hversion : version ≤ log.tip)
    (collect : Bool) : recovery version collect m.dir.segments =
      log.recovery version collect ((L.closed.take stale).map Piece.file)
        (L.front log.next stale) := by
  -- a file that a rotation left unfinished is a last segment without records
  obtain ⟨live, hsegments, hsurvey, hlast, hempty⟩ : ∃ live : List File,
      m.dir.segments = (L.closed.take stale).map Piece.file ++ live ∧
      (∀ acc, survey version collect live acc = resume version collect (L.front log.next stale)
        (log.since (L.front log.next stale)) acc) ∧
      (log.since (L.front log.next stale) = [] → ∀ f, live.getLast? = some f → f.1 = log.next) ∧
      (live = [] → m.dir.segments = []) := by
    cases hstub : L.stub with
    | some s =>
        have hunopened : m.store.active = none ∧
            ∀ p, L.last = some p → p.records ≠ [] ∧ Blank p.rest := by
          refine h.active.resolve_right ?_
          rintro ⟨hnone, -⟩
          rw [hstub] at hnone
          cases hnone
        have hmagic := (h.stub s hstub).1.hasMagic_iff.mpr (hfirm.stamped s hstub)
        obtain ⟨z, hz, hleft⟩ := h.toLeft.promote hstub hmagic
        have hname := (h.stub s hstub).1.first
        rw [hname] at hleft
        have hspans : Layout.spans ⟨L.pieces, some ⟨⟨log.next, []⟩, z⟩, none⟩ =
            L.spans ++ [⟨log.next, []⟩] :=
          Layout.spans_of_last (p := ⟨⟨log.next, []⟩, z⟩) rfl
        have hstale : stale ≤ L.pieces.length := by
          rw [Layout.pieces, List.length_append]
          exact h.stale_le.trans (Nat.le_add_right ..)
        have hdrop : (L.spans ++ [(⟨log.next, []⟩ : Span)]).drop stale =
            L.spans.drop stale ++ [⟨log.next, []⟩] :=
          List.drop_append_of_le_length (by rwa [Layout.spans, List.length_map])
        have hfront : Layout.front log.next stale ⟨L.pieces, some ⟨⟨log.next, []⟩, z⟩, none⟩ =
            L.front log.next stale := by
          rw [Layout.front, hspans, hdrop, Layout.front]
          cases L.spans.drop stale <;> rfl
        have hgiven : L.pieces.take stale = L.closed.take stale :=
          List.take_append_of_le_length h.stale_le
        have hwhole : ∀ c ∈ L.pieces, Untorn c.rest := by
          intro c hc
          cases List.mem_append.mp hc with
          | inl hc => exact hfirm.whole c hc
          | inr hc => exact hfirm.apart hunopened.1 c (Option.mem_toList.mp hc)
        obtain ⟨hsegments, hsurvey, -, hlast⟩ := hleft.survey_live rfl rfl hz hwhole hstale
          (by rw [hspans, hdrop]; exact h.linked_next [])
        rw [hfront] at hsurvey hlast
        refine ⟨_, hgiven ▸ hsegments, hsurvey version collect, fun hnil f hf => ?_, fun hnil => ?_⟩
        · rw [List.getLast?_concat] at hf
          cases hf
          rfl
        · simp at hnil
    | none =>
        cases hlast : L.last with
        | some p =>
            obtain ⟨hsegments, hsurvey, -, hend⟩ := h.toLeft.survey_live hstub hlast
              (h.clean hclean p hlast) hfirm.whole h.stale_le h.linked
            refine ⟨_, hsegments, hsurvey version collect, fun hnil f hf => ?_, fun hnil => ?_⟩
            · rw [List.getLast?_concat] at hf
              cases hf
              exact hend hnil
            · simp at hnil
        | none =>
            obtain ⟨hclosed, hrecords⟩ := h.empty hlast
            have hnil := h.segments_of_none hstub hlast
            refine ⟨[], ?_, fun acc => ?_, (fun _ f hf => by cases hf), fun _ => hnil⟩
            · rw [hnil, hclosed, List.take_nil]
              rfl
            · rw [Journal.since, hrecords, List.drop_nil]
              rfl
  have hwhole : ∀ f ∈ (L.closed.take stale).map Piece.file, (contents f).torn = false := by
    intro f hf
    obtain ⟨c, hc, rfl⟩ := List.mem_map.mp hf
    have hc := List.mem_of_mem_take hc
    rw [Piece.contents_of_blank (h.closed_fits c hc) (h.closed c hc).2]
    exact decide_eq_false (hfirm.whole c hc)
  have hresume : resume version collect (L.front log.next stale)
      (log.since (L.front log.next stale)) = survey version collect live := by
    funext acc
    exact (hsurvey acc).symm
  rw [Wal.recovery, Journal.recovery, hsegments, survey_append hwhole, hresume]
  cases hfound : (survey version collect ((L.closed.take stale).map Piece.file) (none, [])).bind
      (survey version collect live) with
  | error e => rfl
  | ok acc =>
      obtain ⟨expect, tail⟩ := acc
      dsimp only
      by_cases hnil : live = []
      · have hfiles := hempty hnil
        rw [hsegments, hnil, List.append_nil] at hfiles
        rw [hfiles, hnil] at hfound ⊢
        cases hfound
        exact (if_neg (not_lt.mpr hversion)).symm
      · obtain ⟨f, hf⟩ : ∃ f, live.getLast? = some f :=
          ⟨_, List.getLast?_eq_some_getLast hnil⟩
        have hend : lastVersion f.1 expect = expect.elim log.tip fun e => e - 1 := by
          cases hexpect : expect with
          | some e => rfl
          | none =>
              -- no record was found, so the last file is named for the next one
              subst hexpect
              obtain ⟨acc, -, hacc⟩ := Except.bind_eq_ok.mp hfound
              have hnone : log.since (L.front log.next stale) = [] := by
                rw [← hresume, resume] at hacc
                split_ifs at hacc with hnil
                · exact hnil
                · cases hacc
              rw [lastVersion, Option.elim_none, Option.elim_none, hlast hnone f hf,
                Journal.next_eq]
              rfl
        rw [List.getLast?_append, hf, Option.some_or]
        dsimp only
        rw [hend]

/-! ### Stores that cannot be told apart -/

/-- Two stores on one log whose segments start at one version, behind the same files. -/
structure Twins (V : Type) [Versioned V] [HeaderSerde V] (log : Journal) (L L' : Layout)
    (stale : ℕ) (m m' : Machine) : Prop where
  kept : Kept V log L stale m
  kept' : Kept V log L' stale m'
  firm : L.Firm m.store.active
  firm' : L'.Firm m'.store.active
  clean : m.store.poison = none
  clean' : m'.store.poison = none
  given : L'.closed.take stale = L.closed.take stale
  front : L'.front log.next stale = L.front log.next stale
  header : m'.dir.header = m.dir.header
  low : log.next ≤ versionMax

/-- The oldest version that can be read is the one the segments of the store start at. -/
theorem Kept.oldest_eq (h : Kept V log L stale m) (hlow : log.next ≤ versionMax) :
    m.store.oldest = L.front log.next stale := by
  rw [SegmentStore.oldest, h.segments, List.head?_map, Layout.front]
  cases hspans : L.spans.drop stale with
  | cons s spans => rfl
  | nil =>
      have hlast : L.last = none := by
        cases hlast : L.last with
        | none => rfl
        | some p =>
            rw [h.live hlast] at hspans
            simp at hspans
      have hcovered := h.covered
      rw [Journal.tip, (h.empty hlast).2, List.length_nil] at hcovered
      rw [Journal.next, Journal.tip, (h.empty hlast).2, List.length_nil] at hlow ⊢
      show min (m.store.headerVersion + 1) versionMax = log.base + 0 + 1
      omega

/-- What an append answers where nothing fails. -/
def Journal.verdict (log : Journal) (records : List Record) : Exit Err Unit :=
  match validate log.next records with
  | .ok () => .ok ()
  | .error e => .error e

omit [Crc32] in
theorem Env.Calm.spares (hcalm : env.Calm) (m : Machine) : m.Spares env := by
  refine ⟨fun _ _ => .inr ⟨hcalm.reply _, ?_⟩, fun hfail => absurd (hcalm.reply _) hfail⟩
  rw [hcalm.written]
  decide

/-- An append that nothing fails in. -/
theorem Kept.append_calm (h : Kept V log L stale m) (hfirm : L.Firm m.store.active)
    (hclean : m.store.poison = none) (hcalm : env.Calm) :
    Ends (append env records) (fun x m₁ => x = log.verdict records ∧
      m₁.dir.header = m.dir.header ∧
        (x = .ok () → ∃ L₁, Steady V log L stale m (log.append records) L₁ m₁) ∧
          (x ≠ .ok () → m₁ = m)) m := by
  have hends : Ends (append env records) _ m := ends_append h
  refine hends.mono ?_
  rintro x m₁ ⟨happending, hheader, hnot⟩
  have hcontinues := happending.continues h hfirm fun _ => hcalm.spares m
  have hgoes : Accepted log records m → x = .ok () := by
    intro haccepted
    by_contra hx
    exact hnot haccepted hx hcalm
  have haccept : Accepted log records m → x = log.verdict records ∧ (x ≠ .ok () → m₁ = m) := by
    intro haccepted
    have hx := hgoes haccepted
    rw [Journal.verdict, haccepted.valid]
    exact ⟨hx, fun hne => absurd hx hne⟩
  have hverdict : x = log.verdict records ∧ (x ≠ .ok () → m₁ = m) := by
    cases happending with
    | nothing hnil =>
        rw [hnil]
        exact ⟨rfl, fun _ => rfl⟩
    | poisoned q hne hpoison =>
        rw [hclean] at hpoison
        cases hpoison
    | refused e hne _ hvalid =>
        rw [Journal.verdict, hvalid]
        exact ⟨rfl, fun _ => rfl⟩
    | stuck x L' m' haccepted => exact haccept haccepted
    | rotated z m₂ x m' haccepted => exact haccept haccepted
    | wrote p x m' haccepted => exact haccept haccepted
  refine ⟨hverdict.1, hheader, ?_, hverdict.2⟩
  rintro rfl
  exact hcontinues

omit [Crc32] in
theorem low_append (hvalid : validate log.next records = .ok ()) (hlow : log.next ≤ versionMax) :
    (log.append records).next ≤ versionMax := by
  obtain ⟨hrun, hall⟩ := validate_ok_iff.mp hvalid
  rw [Journal.next, Journal.tip_append]
  rw [Journal.next] at hlow hrun
  cases hlast : records.getLast? with
  | none =>
      rw [List.getLast?_eq_none_iff.mp hlast, List.length_nil]
      exact hlow
  | some r =>
      have hversion := hrun.last_eq hlast
      have hbelow := (hall r (List.mem_of_getLast? hlast)).2
      omega

namespace Twins

/-- An append is answered alike and leaves them alike. -/
theorem append (h : Twins V log L L' stale m m') (hcalm : env.Calm) (records : List Record) :
    (Wal.append env records m).1 = (Wal.append env records m').1 ∧
      ∃ log₁ L₁ L₁', Twins V log₁ L₁ L₁' stale (Wal.append env records m).2
        (Wal.append env records m').2 := by
  have hends : Ends (Wal.append env records) _ m := h.kept.append_calm h.firm h.clean hcalm
  have hends' : Ends (Wal.append env records) _ m' :=
    h.kept'.append_calm h.firm' h.clean' hcalm
  unfold Ends at hends hends'
  generalize Wal.append env records m = ended at hends ⊢
  generalize Wal.append env records m' = ended' at hends' ⊢
  obtain ⟨x, m₁⟩ := ended
  obtain ⟨x', m₁'⟩ := ended'
  obtain ⟨rfl, hheader, hok, hstays⟩ := hends
  obtain ⟨rfl, hheader', hok', hstays'⟩ := hends'
  refine ⟨rfl, ?_⟩
  by_cases hx : log.verdict records = .ok ()
  · obtain ⟨L₁, hsteady⟩ := hok hx
    obtain ⟨L₁', hsteady'⟩ := hok' hx
    have hvalid : validate log.next records = .ok () := by
      rw [Journal.verdict] at hx
      cases hvalid : validate log.next records with
      | ok u => rfl
      | error e =>
          rw [hvalid] at hx
          cases hx
    exact ⟨_, L₁, L₁', hsteady.kept, hsteady'.kept, hsteady.firm, hsteady'.firm,
      hsteady.clean.trans h.clean, hsteady'.clean.trans h.clean',
      hsteady'.given.trans (h.given.trans hsteady.given.symm),
      hsteady'.front.trans (h.front.trans hsteady.front.symm),
      hheader'.trans (h.header.trans hheader.symm), low_append hvalid h.low⟩
  · rw [show m₁ = m from hstays hx, show m₁' = m' from hstays' hx]
    exact ⟨log, L, L', h⟩

/-- A read returns the same. -/
theorem read (h : Twins V log L L' stale m m') (hcalm : env.Calm) (after limit : ℕ) :
    (readAfter env after limit m).1 = (readAfter env after limit m').1 := by
  have hextra : ∀ L : Layout, (∀ p, L.last = some p → Blank p.rest) → L.extra = [] := by
    intro L hblank
    rw [Layout.extra]
    cases hlast : L.last with
    | none => rfl
    | some p => rw [Option.elim_some, found_blank (hblank p hlast)]
  have holdest : m'.store.oldest = m.store.oldest := by
    rw [h.kept.oldest_eq h.low, h.kept'.oldest_eq h.low, h.front]
  rw [h.kept.readAfter_eq hcalm, h.kept'.readAfter_eq hcalm, holdest,
    hextra L (h.kept.clean h.clean), hextra L' (h.kept'.clean h.clean')]

/-- What is loaded is the same. -/
theorem loaded (h : Twins V log L L' stale m m') : Wal.loaded V m'.dir = Wal.loaded V m.dir := by
  rw [Wal.loaded, Wal.loaded, headerOf_congr h.header]
  cases hheader : headerOf V m.dir with
  | error e => rfl
  | ok header =>
      have hversion := (h.kept.header header hheader).2
      dsimp only
      rw [h.kept.recovery_eq h.firm h.clean hversion,
        h.kept'.recovery_eq h.firm' h.clean' hversion, h.given, h.front]

end Twins

/-! ### What comes behind a failed append -/

/-- What a caller asks of a store that it holds. -/
inductive Call
  | append (records : List Record)
  | read (after limit : ℕ)

inductive Answer
  | appended (x : Exit Err Unit)
  | read (x : Exit Err (List Record))

namespace Machine

def call (m : Machine) (env : Env) : Call → Answer × Machine
  | .append records => (.appended (append env records m).1, (append env records m).2)
  | .read after limit => (.read (readAfter env after limit m).1, (readAfter env after limit m).2)

/-- The answers to a sequence of calls, each with what becomes of its system calls. -/
def answers (m : Machine) : List (Env × Call) → List Answer
  | [] => []
  | (env, c) :: calls => (m.call env c).1 :: answers (m.call env c).2 calls

/-- The store a sequence of calls leaves behind. -/
def following (m : Machine) : List (Env × Call) → Machine
  | [] => m
  | (env, c) :: calls => following (m.call env c).2 calls

end Machine

/-- As long as nothing fails, no sequence of calls tells these stores apart, nor a load or
a process that starts behind it. -/
structure Alike (V : Type) [Versioned V] [HeaderSerde V] (m m' : Machine)
    (calls : List (Env × Call)) : Prop where
  answers : m'.answers calls = m.answers calls
  load {env : Env} : env.Calm →
    (load V env (m'.following calls)).1 = (load V env (m.following calls)).1
  reopen {env env' : Env} (rotateBytes : ℕ) : env.Calm → env'.Calm →
    (reopen V env env' rotateBytes (m'.following calls)).1 =
      (reopen V env env' rotateBytes (m.following calls)).1

theorem Alike.refl (m : Machine) (calls : List (Env × Call)) : Alike V m m calls :=
  ⟨rfl, fun _ => rfl, fun _ _ _ => rfl⟩

theorem readSegments_keeps {start limit : ℕ} (segments : List Segment) (out : List Record) :
    Ends (readSegments env start limit segments out) (fun _ m' => m' = m) m := by
  induction segments generalizing out with
  | nil => rfl
  | cons segment rest ih =>
      have hread : Ends (readFile env (.scan segment.first) segment.path) (fun _ m' => m' = m)
          m := by
        unfold Ends readFile
        split <;> rfl
      rw [readSegments, ends_bind]
      refine hread.mono ?_
      rintro x m₁ rfl
      cases x with
      | error e => rfl
      | died => rfl
      | ok bytes =>
          rw [after_ok, ends_bind]
          cases scan segment.path bytes (collectRecord start limit) out with
          | error e => rfl
          | ok scanned =>
              obtain ⟨out', stop⟩ := scanned
              rw [ends_lift_ok, after_ok]
              dsimp only
              split_ifs
              · rfl
              · exact ih out'

/-- A read changes nothing. -/
theorem readAfter_keeps (after limit : ℕ) :
    Ends (readAfter env after limit) (fun _ m' => m' = m) m := by
  rw [readAfter, ends_bind, ends_get, after_ok]
  dsimp only
  split_ifs
  · rfl
  · rfl
  · cases m.store.segmentFor (min (after + 1) versionMax) with
    | none => rfl
    | some from_ => exact readSegments_keeps _ _

omit [Crc32] in
/-- Two programs that follow one result end in one way. -/
theorem follows_eq {α : Type} {calm : Prop} {x y : Exit Err α} {r : Except Err α}
    (hx : Follows calm x r) (hy : Follows calm y r) (hcalm : calm) : x = y := by
  cases r with
  | ok a => rw [hx.ok hcalm, hy.ok hcalm]
  | error e => rw [hx.error hcalm, hy.error hcalm]

namespace Twins

/-- A call is answered alike and leaves them alike. -/
theorem call (h : Twins V log L L' stale m m') (hcalm : env.Calm) (c : Call) :
    (m'.call env c).1 = (m.call env c).1 ∧
      ∃ log₁ L₁ L₁', Twins V log₁ L₁ L₁' stale (m.call env c).2 (m'.call env c).2 := by
  cases c with
  | append records =>
      obtain ⟨hsame, htwins⟩ := h.append hcalm records
      exact ⟨congrArg Answer.appended hsame.symm, htwins⟩
  | read after limit =>
      have hkeeps : (readAfter env after limit m).2 = m := readAfter_keeps after limit
      have hkeeps' : (readAfter env after limit m').2 = m' := readAfter_keeps after limit
      refine ⟨congrArg Answer.read (h.read hcalm after limit).symm, log, L, L', ?_⟩
      rw [Machine.call, Machine.call, hkeeps, hkeeps']
      exact h

theorem alike (h : Twins V log L L' stale m m') {calls : List (Env × Call)}
    (hcalm : ∀ c ∈ calls, c.1.Calm) : Alike V m m' calls := by
  induction calls generalizing log L L' m m' with
  | nil =>
      have hloaded := h.loaded
      refine ⟨rfl, fun {env} henv => ?_, fun {env env'} rotateBytes henv henv' => ?_⟩
      · have hends : Ends (load V env) _ m := ends_load V
        have hends' : Ends (load V env) _ m' := ends_load V
        have hfollows := hends'.follows
        rw [hloaded] at hfollows
        exact follows_eq hfollows hends.follows henv
      · have hfollows : Follows True _ _ := reopen_follows V henv henv' rotateBytes (m := m)
        have hfollows' : Follows True _ _ := reopen_follows V henv henv' rotateBytes (m := m')
        rw [hloaded] at hfollows'
        exact follows_eq hfollows' hfollows trivial
  | cons c calls ih =>
      obtain ⟨env, c⟩ := c
      obtain ⟨hsame, log₁, L₁, L₁', htwins⟩ := h.call (hcalm _ List.mem_cons_self) c
      have hrest := ih htwins fun c hc => hcalm c (List.mem_cons_of_mem _ hc)
      refine ⟨?_, hrest.load, hrest.reopen⟩
      rw [Machine.answers, Machine.answers, hsame, hrest.answers]

end Twins

end

section Sample

attribute [local instance] ieee

end Sample

end Lug.Wal
