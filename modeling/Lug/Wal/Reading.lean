import Lug.Wal.Tail

/-!
`read_after` scans the segment files again. It returns the records of the log, as long
as nothing that can be read stands behind the end of the last segment.
-/

namespace Lug.Wal

open Octets Faulty Runs

/-! ### Where a read starts -/

theorem segmentFor_split (s : SegmentStore) (version : ℕ) :
    (s.segmentFor version = none ∧ ∀ t ∈ s.segments, version < t.first) ∨
      ∃ pre t post, s.segments = pre ++ t :: post ∧ s.segmentFor version = some pre.length ∧
        t.first ≤ version := by
  rw [SegmentStore.segmentFor]
  generalize s.segments = segments
  induction segments using List.reverseRecOn with
  | nil => exact .inl ⟨rfl, nofun⟩
  | append_singleton init t ih =>
      rw [List.reverse_append, List.reverse_singleton, List.singleton_append, List.findIdx?_cons,
        List.length_append, List.length_singleton]
      by_cases ht : t.first ≤ version
      · refine .inr ⟨init, t, [], rfl, ?_, ht⟩
        rw [if_pos (decide_eq_true ht)]
        rfl
      · have hshift : (fun index => init.length + 1 - 1 - index) ∘ (fun i => i + 1) =
            fun index => init.length - 1 - index := by
          ext i
          show init.length + 1 - 1 - (i + 1) = init.length - 1 - i
          omega
        rw [if_neg (by simpa using ht), Option.map_map, hshift]
        cases ih with
        | inl hnone =>
            refine .inl ⟨hnone.1, fun u hu => ?_⟩
            cases List.mem_append.mp hu with
            | inl hinit => exact hnone.2 u hinit
            | inr hlast =>
                rw [List.mem_singleton.mp hlast]
                exact not_le.mp ht
        | inr hsome =>
            obtain ⟨pre, u, post, hsplit, hindex, hu⟩ := hsome
            refine .inr ⟨pre, u, post ++ [t], ?_, hindex, hu⟩
            rw [hsplit, List.append_assoc, List.cons_append]

/-! ### What a read collects -/

/-- The records from `start` on. -/
def onward (start : ℕ) (records : List Record) : List Record :=
  records.filter fun r => decide (start ≤ r.version)

theorem onward_append (start : ℕ) (xs ys : List Record) :
    onward start (xs ++ ys) = onward start xs ++ onward start ys :=
  List.filter_append ..

theorem visitAll_collect {start limit : ℕ} {out : List Record} (records : List Record)
    (hout : out.length < limit) :
    ∃ broke, visitAll (collectRecord start limit) out records =
      .ok ((out ++ onward start records).take limit, broke) := by
  induction records generalizing out with
  | nil =>
      refine ⟨false, ?_⟩
      rw [onward, List.filter_nil, List.append_nil, List.take_of_length_le hout.le]
      rfl
  | cons r records ih =>
      have hstep : out ++ onward start (r :: records) =
          (if start ≤ r.version then out ++ [r] else out) ++ onward start records := by
        rw [onward, List.filter_cons]
        by_cases hr : start ≤ r.version
        · rw [if_pos (decide_eq_true hr), if_pos hr, List.append_assoc, List.singleton_append]
          rfl
        · rw [if_neg (by simpa using hr), if_neg hr]
          rfl
      have hlength : (if start ≤ r.version then out ++ [r] else out).length ≤ limit := by
        split_ifs
        · rw [List.length_append, List.length_singleton]
          exact hout
        · exact hout.le
      rw [visitAll, collectRecord, hstep]
      generalize (if start ≤ r.version then out ++ [r] else out) = out' at hlength ⊢
      by_cases hfull : limit ≤ out'.length
      · rw [decide_eq_true hfull, List.take_append_of_le_length hfull,
          List.take_of_length_le hlength]
        exact ⟨true, rfl⟩
      · rw [decide_eq_false hfull]
        exact ih (not_le.mp hfull)

section

variable [Crc32] {env : Env} {m : Machine}

theorem scan_collect {f : File} (h : HasMagic f) (path : Path) {start limit : ℕ}
    {out : List Record} (hout : out.length < limit) :
    ∃ s, scan path f.2 (collectRecord start limit) out =
      .ok ((out ++ onward start (contents f).records).take limit, s) := by
  have hlen : f.2.length = segPrologue + (f.2.drop segPrologue).length := by
    have hle := h.le_length
    rw [List.length_drop]
    omega
  have hfuel : (f.2.drop segPrologue).length ≤ f.2.length := by
    rw [List.length_drop]
    omega
  have hwalk := walk_visitAll (collectRecord start limit) out hlen hfuel
  obtain ⟨broke, hvisit⟩ := visitAll_collect (contents f).records hout
  rw [contents] at hvisit ⊢
  rw [hvisit] at hwalk
  rw [scan_of_magic h]
  cases broke with
  | true => exact hwalk
  | false => exact ⟨_, hwalk⟩

omit [Crc32] in
theorem take_take_append (xs ys : List Record) (limit : ℕ) :
    (xs.take limit ++ ys).take limit = (xs ++ ys).take limit := by
  rw [List.take_append, List.take_append, List.take_take, min_self, List.length_take]
  congr 2
  omega

/-- The loop of `read_after`, over files that are segments. -/
theorem readSegments_eq (hcalm : env.Calm) {start limit : ℕ} {segments : List Segment}
    {files : List File} {out : List Record} (hout : out.length < limit)
    (hfiles : List.Forall₂ (fun s f => m.dir.bytes s.path = some f.2 ∧ HasMagic f) segments files) :
    readSegments env start limit segments out m =
      (.ok ((out ++ onward start (recordsOf files)).take limit), m) := by
  induction hfiles generalizing out with
  | nil =>
      rw [recordsOf_nil, onward, List.filter_nil, List.append_nil, List.take_of_length_le hout.le]
      rfl
  | @cons s f segments files hhead _ ih =>
      obtain ⟨hbytes, hmagic⟩ := hhead
      obtain ⟨scanned, hscan⟩ := @scan_collect _ _ hmagic s.path start _ _ hout
      have hread : readFile env (.scan s.first) s.path m = (.ok f.2, m) := by
        rw [readFile, hbytes, hcalm.reply]
      show Ends (readSegments env start limit (s :: segments) out)
        (fun x m' => (x, m') = (.ok ((out ++ onward start (recordsOf (f :: files))).take limit), m)) m
      rw [readSegments, ends_bind, Ends, hread, after_ok, ends_bind, hscan, ends_lift_ok, after_ok,
        recordsOf_cons, onward_append, ← List.append_assoc]
      dsimp only
      by_cases hfull : limit ≤ ((out ++ onward start (contents f).records).take limit).length
      · have hwhole : limit ≤ (out ++ onward start (contents f).records).length := by
          rw [List.length_take] at hfull
          omega
        rw [if_pos hfull, ends_pure, List.take_append_of_le_length hwhole]
      · rw [if_neg hfull, Ends, ih (not_le.mp hfull), take_take_append]

/-! ### What a read returns -/

variable {V : Type} [Versioned V] [HeaderSerde V] {log : Journal} {L : Layout} {stale : ℕ}

namespace Kept

/-- The segments of the store hold the log from the oldest one on, and what is found
behind it. -/
theorem live_records (h : Kept V log L stale m) {s : Segment}
    (hs : m.store.segments.head? = some s) :
    log.base + 1 ≤ s.first ∧
      recordsOf ((L.pieces.drop stale).map Piece.file) = log.since s.first ++ L.extra := by
  rw [h.segments, List.head?_map, Option.map_eq_some_iff] at hs
  obtain ⟨t, ht, rfl⟩ := hs
  have hmem : t ∈ L.spans := List.mem_of_mem_drop (List.mem_of_mem_head? ht)
  refine ⟨(h.taken t hmem).1, ?_⟩
  cases hlast : L.last with
  | none =>
      rw [h.live_of_none hlast] at ht
      cases ht
  | some p =>
      obtain ⟨n, hlinked⟩ := h.linked
      have hn : t.first = n := by
        obtain ⟨rest, hrest⟩ := List.head?_eq_some_iff.mp ht
        rw [hrest] at hlinked
        exact hlinked.1
      have hall := hlinked.records fun s hs => h.taken s (List.mem_of_mem_drop hs)
      have hfits := h.fits_span (Layout.mem_spans_of_last hlast)
      have hstale := h.stale_le
      have hclosed : recordsOf ((L.closed.drop stale).map Piece.file) =
          ((L.closed.drop stale).map Piece.toSpan).flatMap Span.records := by
        rw [recordsOf, List.flatMap_map, List.flatMap_map]
        refine List.flatMap_congr fun c hc => ?_
        have hc := List.mem_of_mem_drop hc
        rw [Piece.contents_of_blank (h.closed_fits c hc) (h.closed c hc).2]
      rw [h.live hlast, nextOf_append_singleton, (h.last p hlast).1, Journal.since_next,
        List.append_nil, List.flatMap_append] at hall
      show _ = log.since t.first ++ _
      rw [hn, hall, Layout.pieces, hlast, List.drop_append_of_le_length hstale, List.map_append,
        recordsOf_append, hclosed, Layout.extra, hlast, List.append_assoc]
      congr 1
      show (contents p.file).records ++ [] = _
      rw [Piece.contents_file hfits, List.append_nil]
      simp

/-- The files of the store's segments can be read. -/
theorem live_files (h : Kept V log L stale m) :
    List.Forall₂ (fun s f => m.dir.bytes s.path = some f.2 ∧ HasMagic f) m.store.segments
      ((L.pieces.drop stale).map Piece.file) := by
  rw [h.segments, Layout.spans, ← List.map_drop, List.map_map, List.forall₂_map_left_iff,
    List.forall₂_map_right_iff, List.forall₂_same]
  intro p hp
  obtain ⟨pre, post, hpieces⟩ := List.append_of_mem (List.mem_of_mem_drop hp)
  have hfiles : m.dir.segments = pre.map Piece.file ++ (p.first, p.body ++ p.rest) ::
      (post.map Piece.file ++ L.stub.toList.map Stub.file) := by
    rw [h.files, Layout.files, hpieces]
    simp [Piece.file]
  exact ⟨Dir.bytes_segment hfiles, p.hasMagic⟩

/-- The records of the segments before one are before it. -/
theorem onward_before (h : Kept V log L stale m) {before after : List Piece} {p : Piece}
    (hsplit : L.pieces.drop stale = before ++ p :: after) {start : ℕ} (hstart : p.first ≤ start) :
    onward start (recordsOf (before.map Piece.file)) = [] := by
  refine List.filter_eq_nil_iff.mpr fun r hr => ?_
  obtain ⟨f, hf, hr⟩ := List.mem_flatMap.mp hr
  obtain ⟨c, hc, rfl⟩ := List.mem_map.mp hf
  have hclosed : c ∈ L.closed := by
    cases hlast : L.last with
    | none =>
        rw [Layout.pieces, hlast, (h.empty hlast).1] at hsplit
        simp at hsplit
    | some q =>
        rw [Layout.pieces, hlast, List.drop_append_of_le_length h.stale_le] at hsplit
        have hfront := congrArg List.dropLast hsplit
        rw [Option.toList_some, List.dropLast_concat, List.dropLast_append_of_ne_nil (by simp)]
          at hfront
        refine List.mem_of_mem_drop (i := stale) ?_
        rw [hfront]
        exact List.mem_append_left _ hc
  have hspan := Layout.mem_spans_of_mem_closed hclosed
  have hnext : c.next ≤ p.first := by
    have hpairs := h.spaced
    rw [Layout.spans, ← List.take_append_drop stale L.pieces, hsplit, List.map_append,
      List.map_append, List.pairwise_append, List.pairwise_append] at hpairs
    exact hpairs.2.1.2.2 _ (List.mem_map_of_mem hc) _ List.mem_cons_self
  rw [Piece.contents_of_blank (h.fits_span hspan) (h.closed c hclosed).2] at hr
  have hbounds := (h.consecutive hspan).bounds hr
  rw [Span.next] at hnext
  simp only [decide_eq_true_eq]
  omega

/-- `read_after` on a settled store where nothing fails. -/
theorem readAfter_eq (h : Kept V log L stale m) (hcalm : env.Calm) (after limit : ℕ) :
    (readAfter env after limit m).1 =
      if min (after + 1) versionMax < m.store.oldest then
        .error (.reclaimed (min (after + 1) versionMax) m.store.oldest)
      else .ok ((onward (min (after + 1) versionMax)
        (log.since m.store.oldest ++ L.extra)).take limit) := by
  generalize hstart : min (after + 1) versionMax = start
  show Ends (readAfter env after limit) (fun x _ => x = _) m
  rw [readAfter, ends_bind, ends_get, after_ok, hstart]
  dsimp only
  by_cases hold : start < m.store.oldest
  · rw [if_pos hold, if_pos hold]
    rfl
  rw [if_neg hold, if_neg hold]
  by_cases hlimit : limit = 0
  · rw [if_pos hlimit, hlimit, List.take_zero]
    rfl
  rw [if_neg hlimit]
  cases hhead : m.store.segments.head? with
  | none =>
      -- there is no segment, and no record either
      have hnil := List.head?_eq_none_iff.mp hhead
      have hlast : L.last = none := by
        cases hlast : L.last with
        | none => rfl
        | some p =>
            rw [h.segments, h.live hlast] at hnil
            simp at hnil
      have hnone : m.store.segmentFor start = none := by
        rw [SegmentStore.segmentFor, hnil]
        rfl
      rw [hnone, Journal.since, (h.empty hlast).2, Layout.extra, hlast, List.drop_nil]
      show Exit.ok [] = .ok (([] : List Record).take limit)
      rw [List.take_nil]
  | some s =>
      obtain ⟨-, hrecords⟩ := h.live_records hhead
      have holdest : m.store.oldest = s.first := by
        rw [SegmentStore.oldest, hhead]
        rfl
      rw [holdest] at hold ⊢
      rcases segmentFor_split m.store start with ⟨-, hall⟩ | ⟨pre, t, post, hsplit, hindex, ht⟩
      · exact absurd (hall s (List.mem_of_mem_head? hhead)) (by omega)
      have hpieces : (L.pieces.drop stale).map (Span.segment ∘ Piece.toSpan) = pre ++ t :: post := by
        rw [← hsplit, h.segments, Layout.spans, ← List.map_drop, List.map_map]
      obtain ⟨before, others, hboth, hbefore, hothers⟩ := List.map_eq_append_iff.mp hpieces
      obtain ⟨p, later, rfl, rfl, hlater⟩ := List.map_eq_cons_iff.mp hothers
      have hlength : (before.map Piece.file).length = pre.length := by
        rw [← hbefore, List.length_map, List.length_map]
      have hfiles := List.forall₂_drop pre.length h.live_files
      rw [hsplit, List.drop_left, hboth, List.map_append, ← hlength, List.drop_left] at hfiles
      rw [hindex, ← hrecords, hboth, List.map_append, recordsOf_append, onward_append,
        h.onward_before hboth ht, List.nil_append]
      dsimp only
      rw [hsplit, List.drop_left, Ends,
        readSegments_eq hcalm (Nat.pos_of_ne_zero hlimit) hfiles, List.nil_append]

/-- The oldest version that can be read is not below the log. -/
theorem oldest_pos (h : Kept V log L stale m) (hrecords : log.records ++ L.extra ≠ []) :
    log.base + 1 ≤ m.store.oldest := by
  cases hhead : m.store.segments.head? with
  | some s =>
      rw [SegmentStore.oldest, hhead]
      exact (h.live_records hhead).1
  | none =>
      have hnil := List.head?_eq_none_iff.mp hhead
      cases hlast : L.last with
      | none =>
          rw [(h.empty hlast).2, Layout.extra, hlast] at hrecords
          exact absurd rfl hrecords
      | some p =>
          rw [h.segments, h.live hlast] at hnil
          simp at hnil

/-- The records from the oldest version on are those of the log. -/
theorem since_oldest (h : Kept V log L stale m) :
    log.since m.store.oldest = onward m.store.oldest log.records := by
  by_cases hnil : log.records ++ L.extra = []
  · rw [Journal.since, (List.append_eq_nil_iff.mp hnil).1, List.drop_nil]
    rfl
  · have hpos := h.oldest_pos hnil
    have hfilter := h.numbered.filter_lt (m.store.oldest - 1)
    rw [show m.store.oldest - 1 + 1 = m.store.oldest by omega] at hfilter
    rw [Journal.since, ← hfilter]
    refine List.filter_congr fun r _ => ?_
    congr 1
    exact propext (by omega)

end Kept

namespace World

variable {w : World}

/-- What `read_after` is to return: the first records of the log above `after`, of those
that were not reclaimed. -/
def readable (w : World) (after limit : ℕ) : Exit Err (List Record) :=
  let start := min (after + 1) versionMax
  if start < w.machine.store.oldest then .error (.reclaimed start w.machine.store.oldest)
  else .ok ((w.log.records.filter fun r =>
    decide (w.machine.store.oldest ≤ r.version ∧ after < r.version)).take limit)

end World

end

/-! ### A read of what no append returned -/

section Sample

attribute [local instance] ieee

/-- A write that stops behind its first record, and cannot be erased. -/
def stopped : Env where
  fallocate := true
  locked := false
  reply _ := .ok
  written
    | .write => [.count 17, .fail]
    | .erase _ => [.fail]
    | _ => []

/-- What a read gives out. -/
def served : Exit Err (List Record) → List Record
  | .ok records => records
  | _ => []

end Sample

end Lug.Wal
