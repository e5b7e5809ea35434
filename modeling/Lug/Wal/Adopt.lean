import Lug.Wal.Layout

/-!
When a directory loads: its segment files must follow one another, and what an
unfinished batch left behind the last one must continue the log.
-/

namespace Lug.Wal

open Octets Faulty Runs

/-- The spans follow one another from version `n` on. -/
def Linked : ℕ → List Span → Prop
  | _, [] => True
  | n, s :: spans => s.first = n ∧ Linked s.next spans

/-- The version after spans that follow one another from `n` on. -/
def nextOf (n : ℕ) (spans : List Span) : ℕ := spans.foldl (fun _ s => s.next) n

@[simp] theorem nextOf_nil (n : ℕ) : nextOf n [] = n := rfl

@[simp] theorem nextOf_cons (n : ℕ) (s : Span) (spans : List Span) :
    nextOf n (s :: spans) = nextOf s.next spans := rfl

theorem nextOf_append_singleton (n : ℕ) (spans : List Span) (s : Span) :
    nextOf n (spans ++ [s]) = s.next := by
  rw [nextOf, List.foldl_append]
  rfl

theorem linked_append {n : ℕ} {spans spans' : List Span} :
    Linked n (spans ++ spans') ↔ Linked n spans ∧ Linked (nextOf n spans) spans' := by
  induction spans generalizing n with
  | nil => simp [Linked]
  | cons s spans ih => rw [List.cons_append, Linked, Linked, ih, nextOf_cons, and_assoc]

theorem Linked.drop {n : ℕ} {spans : List Span} (h : Linked n spans) (k : ℕ) :
    ∃ n', Linked n' (spans.drop k) := by
  rw [← List.take_append_drop k spans, linked_append] at h
  exact ⟨_, h.2⟩

/-- Spans of a log that follow one another hold all of it in between. -/
theorem Linked.records {log : Journal} {n : ℕ} {spans : List Span} (h : Linked n spans)
    (htaken : ∀ s ∈ spans, log.base + 1 ≤ s.first ∧ s.records <+: log.since s.first) :
    log.since n = spans.flatMap Span.records ++ log.since (nextOf n spans) := by
  induction spans generalizing n with
  | nil => rfl
  | cons s spans ih =>
      obtain ⟨rfl, hrest⟩ := h
      obtain ⟨hpos, t, ht⟩ := htaken s List.mem_cons_self
      have hnext : log.since s.next = t := by
        rw [Span.next, Journal.since_add hpos, ← ht, List.drop_left]
      rw [List.flatMap_cons, nextOf_cons, List.append_assoc,
        ← ih hrest fun x hx => htaken x (List.mem_cons_of_mem _ hx), hnext, ht]

/-- The bytes are not taken for the beginning of a record. -/
def Untorn (rest : Bytes) : Prop := ¬(0 < rest.length ∧ rest.length < recPrefix)

variable [Crc32] {V : Type} [Versioned V] [HeaderSerde V] {log : Journal} {L L' : Layout}
  {p : Piece} {d d' : Dir}

namespace Layout

/-- What is found behind the records of the last segment. -/
def extra (L : Layout) : List Record := L.last.elim [] fun p => (found p.rest).records

/-- What a load needs of the segment files. -/
structure Sound (L : Layout) : Prop where
  whole : ∀ p ∈ L.closed, Untorn p.rest
  linked : ∃ n, Linked n L.spans
  behind : ∀ p, L.last = some p → Consecutive Record.version p.next (found p.rest).records

omit [Crc32] in
theorem spans_of_last (h : L.last = some p) :
    L.spans = L.closed.map Piece.toSpan ++ [p.toSpan] := by
  rw [spans, pieces, h, List.map_append]
  rfl

end Layout

theorem due_some {f : File} (h : (contents f).records ≠ []) : due none f = due (some f.1) f := by
  rw [due, due, if_neg h, if_neg h]
  rfl

/-- Whatever the first file holds, it is the one to start with. -/
theorem adoptable_some {f : File} {rest : List File} (h : (contents f).records ≠ []) :
    Adoptable none (f :: rest) ↔ Adoptable (some f.1) (f :: rest) := by
  rw [Adoptable, Adoptable, due_some h]
  rfl

theorem due_file {p : Piece} (hfits : ∀ r ∈ p.records, Fits r) (hrecords : p.records ≠ [])
    (hblank : Blank p.rest) : due (some p.first) p.file = some p.next := by
  rw [due, Piece.contents_of_blank hfits hblank, if_neg hrecords]
  rfl

/-- Closed segments are adopted if they follow one another and what is behind their
records is not taken for one. -/
theorem adoptable_pieces {n : ℕ} {ps : List Piece} {fs : List File} (hfs : fs ≠ [])
    (hfits : ∀ p ∈ ps, ∀ r ∈ p.records, Fits r)
    (hrun : ∀ p ∈ ps, Consecutive Record.version p.first p.records)
    (hclosed : ∀ p ∈ ps, p.records ≠ [] ∧ Blank p.rest) :
    Adoptable (some n) (ps.map Piece.file ++ fs) ↔ (Linked n (ps.map Piece.toSpan) ∧
      ∀ p ∈ ps, Untorn p.rest) ∧ Adoptable (some (nextOf n (ps.map Piece.toSpan))) fs := by
  induction ps generalizing n with
  | nil => simp [Linked]
  | cons p ps ih =>
      obtain ⟨hp, hblank⟩ := hclosed p List.mem_cons_self
      have hpfits := hfits p List.mem_cons_self
      have hcontents := Piece.contents_of_blank hpfits hblank
      have hrest := @ih p.next (fun q hq => hfits q (List.mem_cons_of_mem _ hq))
        (fun q hq => hrun q (List.mem_cons_of_mem _ hq))
        (fun q hq => hclosed q (List.mem_cons_of_mem _ hq))
      have hne : ps.map Piece.file ++ fs ≠ [] := fun hnil => hfs (List.append_eq_nil_iff.mp hnil).2
      rw [List.map_cons, List.map_cons, List.cons_append, Adoptable, Linked, nextOf_cons,
        List.forall_mem_cons]
      have htorn : (contents p.file).torn = false ↔ Untorn p.rest := by
        rw [hcontents, Untorn]
        exact decide_eq_false_iff_not
      have hstart : Consecutive Record.version n (contents p.file).records ↔ p.first = n := by
        rw [hcontents]
        constructor
        · intro h
          obtain ⟨r, hr⟩ := List.exists_mem_of_ne_nil _ hp
          cases hrecords : p.records with
          | nil => exact absurd hrecords hp
          | cons r records =>
              have hfirst := hrun p List.mem_cons_self
              rw [hrecords] at h hfirst
              exact hfirst.1.symm.trans h.1
        · rintro rfl
          exact hrun p List.mem_cons_self
      constructor
      · rintro ⟨-, hfirst, hwhole, hlater⟩
        obtain rfl := hstart.mp hfirst
        rw [due_file hpfits hp hblank] at hlater
        obtain ⟨⟨hlinked, huntorn⟩, hadopt⟩ := hrest.mp hlater
        exact ⟨⟨⟨rfl, hlinked⟩, htorn.mp (hwhole hne), huntorn⟩, hadopt⟩
      · rintro ⟨⟨⟨rfl, hlinked⟩, hwhole, huntorn⟩, hadopt⟩
        refine ⟨p.hasMagic, hstart.mpr rfl, fun _ => htorn.mpr hwhole, ?_⟩
        rw [due_file hpfits hp hblank]
        exact hrest.mpr ⟨⟨hlinked, huntorn⟩, hadopt⟩

theorem dueAfter_pieces {n : ℕ} {ps : List Piece} {fs : List File}
    (hfits : ∀ p ∈ ps, ∀ r ∈ p.records, Fits r)
    (hclosed : ∀ p ∈ ps, p.records ≠ [] ∧ Blank p.rest) (hlinked : Linked n (ps.map Piece.toSpan)) :
    dueAfter (some n) (ps.map Piece.file ++ fs) =
      dueAfter (some (nextOf n (ps.map Piece.toSpan))) fs := by
  induction ps generalizing n with
  | nil => rfl
  | cons p ps ih =>
      obtain ⟨rfl, hrest⟩ := hlinked
      obtain ⟨hp, hblank⟩ := hclosed p List.mem_cons_self
      rw [List.map_cons, List.map_cons, List.cons_append, dueAfter_cons, nextOf_cons,
        due_file (hfits p List.mem_cons_self) hp hblank]
      exact ih (fun q hq => hfits q (List.mem_cons_of_mem _ hq))
        (fun q hq => hclosed q (List.mem_cons_of_mem _ hq)) hrest

namespace Left

/-- No span goes past the log. -/
theorem next_le (h : Left V log L d) {s : Span} (hs : s ∈ L.spans) : s.next ≤ log.next := by
  obtain ⟨p, hp, rfl⟩ := List.mem_map.mp hs
  obtain ⟨hpos, hprefix⟩ := h.taken p.toSpan hs
  have hlength := hprefix.length_le
  rw [Journal.length_since hpos] at hlength
  rw [Span.next]
  cases List.mem_append.mp hp with
  | inl hclosed =>
      have hnonempty := List.length_pos_of_ne_nil (h.closed p hclosed).1
      omega
  | inr hlast =>
      exact (h.last p (Option.mem_toList.mp hlast)).1.le

/-- A stub that starts as a segment does is a last segment without records. -/
theorem promote (h : Left V log L d) {s : Stub} (hs : L.stub = some s) (hmagic : HasMagic s.file) :
    ∃ z, Blank z ∧ Left V log ⟨L.pieces, some ⟨⟨s.first, []⟩, z⟩, none⟩ d := by
  obtain ⟨hof, hfull⟩ := h.stub s hs
  obtain ⟨z, hz, hfile⟩ := hof.eq_of_hasMagic hmagic
  have hname := hof.first
  have hspans : Layout.spans ⟨L.pieces, some ⟨⟨s.first, []⟩, z⟩, none⟩ =
      L.spans ++ [⟨s.first, []⟩] := by
    rw [Layout.spans, Layout.pieces, List.map_append]
    rfl
  refine ⟨z, hz, h.numbered, h.fits, ?_, ?_, ?_, ?_, ?_, (fun h => by cases h),
    (fun _ h => by cases h), h.header, ?_, ?_⟩
  · have hsame : s.file = (⟨⟨s.first, []⟩, z⟩ : Piece).file := by
      refine Prod.ext rfl (hfile.trans ?_)
      show _ = segmentPrologue ++ [] ++ z
      rw [List.append_nil]
    rw [h.files, Layout.files, hs, Layout.files]
    simp [Layout.pieces, hsame]
  · rw [hspans, List.pairwise_append]
    refine ⟨h.spaced, List.pairwise_singleton .., fun t ht u hu => ?_⟩
    rw [List.mem_singleton.mp hu]
    exact hname ▸ h.next_le ht
  · rw [hspans]
    intro t ht
    cases List.mem_append.mp ht with
    | inl hold => exact h.taken t hold
    | inr hnew =>
        rw [List.mem_singleton.mp hnew]
        refine ⟨?_, List.nil_prefix⟩
        rw [hname]
        exact Journal.base_lt_next
  · intro p hp
    cases List.mem_append.mp hp with
    | inl hclosed => exact h.closed p hclosed
    | inr hlast => exact hfull p (Option.mem_toList.mp hlast)
  · rintro p hp
    cases hp
    exact ⟨hname, Blank.debris hz _⟩
  · rw [hspans]
    intro t ht g hg
    cases hold : L.spans.head? with
    | some u =>
        rw [List.head?_append, hold] at ht
        cases ht
        exact h.reach _ hold g hg
    | none =>
        rw [List.head?_append, hold] at ht
        cases ht
        have hnone : L.last = none := by
          cases hlast : L.last with
          | none => rfl
          | some p =>
              have hmem := Layout.mem_spans_of_last hlast
              rw [List.head?_eq_none_iff.mp hold] at hmem
              cases hmem
        have hbase := (h.header g hg).1
        show s.first ≤ _
        rw [hname, Journal.next, Journal.tip, (h.empty hnone).2, List.length_nil]
        omega
  · rintro p hp -
    cases hp
    left
    intro q hq
    rw [show (Layout.mk L.pieces (some ⟨⟨s.first, []⟩, z⟩) none).closed = L.pieces from rfl,
      Layout.pieces] at hq
    cases hlast : L.last with
    | none =>
        rw [hlast, (h.empty hlast).1] at hq
        cases hq
    | some p =>
        rw [hlast, Option.toList_some, List.getLast?_append] at hq
        cases hq
        exact (h.last p hlast).1.trans hname.symm

theorem closed_fits (h : Left V log L d) : ∀ p ∈ L.closed, ∀ r ∈ p.records, Fits r :=
  fun _ hp => h.fits_span (Layout.mem_spans_of_mem_closed hp)

theorem closed_run (h : Left V log L d) :
    ∀ p ∈ L.closed, Consecutive Record.version p.first p.records :=
  fun _ hp => h.consecutive (Layout.mem_spans_of_mem_closed hp)

theorem segments_of_last (h : Left V log L d) (hstub : L.stub = none) (hlast : L.last = some p) :
    d.segments = L.closed.map Piece.file ++ [p.file] := by
  rw [h.files, Layout.files, Layout.pieces, hlast, hstub]
  simp

theorem segments_of_none (h : Left V log L d) (hstub : L.stub = none) (hlast : L.last = none) :
    d.segments = [] := by
  rw [h.files, Layout.files, Layout.pieces, hlast, hstub, (h.empty hlast).1]
  rfl

/-- The files hold the records of the spans and those an unfinished batch left. -/
theorem recordsOf_segments (h : Left V log L d) (hstub : L.stub = none) :
    recordsOf d.segments = L.spans.flatMap Span.records ++ L.extra := by
  have hclosed : recordsOf (L.closed.map Piece.file) =
      (L.closed.map Piece.toSpan).flatMap Span.records := by
    rw [recordsOf, List.flatMap_map, List.flatMap_map]
    refine List.flatMap_congr fun p hp => ?_
    rw [Piece.contents_of_blank (h.closed_fits p hp) (h.closed p hp).2]
  cases hlast : L.last with
  | none =>
      rw [h.segments_of_none hstub hlast, Layout.spans, Layout.pieces, hlast, (h.empty hlast).1,
        Layout.extra, hlast]
      rfl
  | some p =>
      have hfits := h.fits_span (Layout.mem_spans_of_last hlast)
      rw [h.segments_of_last hstub hlast, recordsOf_append, hclosed, Layout.spans_of_last hlast,
        List.flatMap_append, List.append_assoc, Layout.extra, hlast, recordsOf_cons,
        Piece.contents_file hfits, recordsOf_nil, List.append_nil]
      simp

theorem sound_run (h : Left V log L d) (hsound : L.Sound) :
    Consecutive Record.version (log.base + 1) (log.append L.extra).records := by
  refine consecutive_append.mpr ⟨h.numbered, ?_⟩
  cases hlast : L.last with
  | none =>
      rw [Layout.extra, hlast]
      trivial
  | some p =>
      have hbehind := hsound.behind p hlast
      rw [(h.last p hlast).1, Journal.next, Journal.tip] at hbehind
      rw [Layout.extra, hlast, Nat.add_right_comm]
      exact hbehind

/-- What a load hands back is the log above the header. -/
theorem above_recordsOf (h : Left V log L d) (hstub : L.stub = none) (hsound : L.Sound)
    {header : Option (Header V)} (hheader : headerOf V d = .ok header) :
    above (versionOf header) (recordsOf d.segments) =
      above (versionOf header) (log.append L.extra).records := by
  have hrun := h.sound_run hsound
  rw [h.recordsOf_segments hstub]
  cases hlast : L.last with
  | none =>
      rw [Layout.spans, Layout.pieces, hlast, (h.empty hlast).1, Journal.append, (h.empty hlast).2]
      rfl
  | some p =>
      obtain ⟨n, hlinked⟩ := hsound.linked
      obtain ⟨s, hs⟩ : ∃ s, L.spans.head? = some s := by
        rw [← Option.isSome_iff_exists, List.isSome_head?]
        exact List.ne_nil_of_mem (Layout.mem_spans_of_last hlast)
      have hmem := List.mem_of_mem_head? hs
      have hn : s.first = n := by
        obtain ⟨rest, hrest⟩ := List.head?_eq_some_iff.mp hs
        rw [hrest] at hlinked
        exact hlinked.1
      have hreach := h.reach s hs header hheader
      have hpos := (h.taken s hmem).1
      have hnext := h.next_le hmem
      rw [Span.next] at hnext
      have hall := hlinked.records h.taken
      rw [Layout.spans_of_last hlast, nextOf_append_singleton, (h.last p hlast).1,
        Journal.since_next, List.append_nil, ← Layout.spans_of_last hlast] at hall
      have hdrop : L.spans.flatMap Span.records ++ L.extra = (log.append L.extra).since n := by
        rw [← hall, Journal.since_append (by omega)]
      rw [hdrop, above, above, hrun.filter_lt, (Journal.consecutive_since hrun
        (by rw [← hn]; exact hpos)).filter_lt, Journal.since, List.drop_drop]
      congr 1
      rw [Journal.base_append]
      omega

end Left

/-- The version a load takes for the last one, of a file that is the next in line. -/
theorem lastVersion_due {p : Piece} (hfits : ∀ r ∈ p.records, Fits r) (hpos : 1 ≤ p.first)
    {expect : Option ℕ} (h : ∀ e, expect = some e → e = p.first) :
    lastVersion p.first (due expect p.file) + 1 = p.next + (found p.rest).records.length := by
  rw [due, Piece.contents_file hfits, Span.next]
  dsimp only
  by_cases hnil : p.records ++ (found p.rest).records = []
  · obtain ⟨hrecords, hfound⟩ := List.append_eq_nil_iff.mp hnil
    rw [if_pos hnil, hrecords, hfound]
    cases expect with
    | none =>
        show p.first - 1 + 1 = _
        simp only [List.length_nil]
        omega
    | some e =>
        show e - 1 + 1 = _
        rw [h e rfl]
        simp only [List.length_nil]
        omega
  · have hexpect : expect.getD p.file.1 = p.first := by
      cases expect with
      | none => rfl
      | some e => exact h e rfl
    rw [if_neg hnil, hexpect, List.length_append]
    show p.first + (p.records.length + _) - 1 + 1 = _
    omega

variable (V) in
/-- What a recovery may go by: the last version of the log, or the header's. -/
def Stands (log : Journal) (version : ℕ) (d : Dir) : Prop :=
  version = log.tip ∨ ∃ header, headerOf V d = .ok header ∧ version = versionOf header

/-- A record found where debris starts is the first of a batch that was not finished,
or what is left of its version gives the last version away as too low. -/
theorem Left.next_in_line (h : Left V log L d) {q : Piece} (hlast : L.last = some p)
    (hq : L.closed.getLast? = some q) {version : ℕ} (hstands : Stands V log version d)
    (hall : Consecutive Record.version q.next (p.records ++ (found p.rest).records))
    (hahead : version ≤ lastVersion p.first (due (some q.next) p.file)) :
    q.next = p.first := by
  have hmem := Layout.mem_spans_of_last hlast
  have hqmem := List.mem_of_getLast? hq
  have hrun := h.consecutive hmem
  obtain ⟨hnext, hdebris⟩ := h.last p hlast
  have hqpos := (h.taken q.toSpan (Layout.mem_spans_of_mem_closed hqmem)).1
  have hqlong := List.length_pos_of_ne_nil (h.closed q hqmem).1
  have hspaced : q.next ≤ p.first := by
    have hpairs := h.spaced
    rw [Layout.spans_of_last hlast, List.pairwise_append] at hpairs
    exact hpairs.2.2 _ (List.mem_map_of_mem hqmem) _ List.mem_cons_self
  have hqnext : q.next = q.first + q.records.length := rfl
  have htip : log.next = log.tip + 1 := rfl
  rw [due, Piece.contents_file (h.fits_span hmem)] at hahead
  cases hrecords : p.records with
  | cons r records =>
      rw [hrecords] at hrun hall
      exact hall.1.symm.trans hrun.1
  | nil =>
      rw [Span.next, hrecords, List.length_nil, Nat.add_zero] at hnext
      rw [hrecords, List.nil_append] at hall hahead
      cases h.continues p hlast hrecords with
      | inl hdue => exact hdue q hq
      | inr hcover =>
          have hcovered : log.tip ≤ version := by
            rcases hstands with rfl | ⟨header, hheader, rfl⟩
            · exact le_rfl
            · exact hcover header hheader
          cases hitem : item p.rest with
          | stop torn =>
              rw [found_stop hitem, if_pos rfl] at hahead
              rw [lastVersion, Option.elim_some] at hahead
              omega
          | record r =>
              rw [found_record hitem] at hall hahead
              have hr : r.version = q.next := hall.1
              cases hdebris.item_version hitem with
              | inl hfirst =>
                  rw [Span.next, hrecords, List.length_nil, Nat.add_zero] at hfirst
                  exact hr.symm.trans hfirst
              | inr hlow =>
                  obtain ⟨hversion, hlater⟩ := hlow
                  rw [Span.next, hrecords, List.length_nil, Nat.add_zero] at hversion
                  rw [hlater, if_neg (List.cons_ne_nil _ _)] at hahead
                  rw [lastVersion, Option.elim_some, Option.getD_some, List.length_singleton] at hahead
                  omega

theorem Left.closed_nonempty (h : Left V log L d) {c : Piece} (hc : c ∈ L.closed) :
    (contents c.file).records ≠ [] := by
  rw [Piece.contents_of_blank (h.closed_fits c hc) (h.closed c hc).2]
  exact (h.closed c hc).1

theorem Left.dueAfter_closed (h : Left V log L d) {c : Piece} {cs : List Piece} {fs : List File}
    (hclosed : L.closed = c :: cs) (hlinked : Linked c.first (L.closed.map Piece.toSpan)) :
    dueAfter none (L.closed.map Piece.file ++ fs) =
      dueAfter (some (nextOf c.first (L.closed.map Piece.toSpan))) fs := by
  have hnonempty := h.closed_nonempty (c := c) (by rw [hclosed]; exact List.mem_cons_self)
  have hafter := @dueAfter_pieces _ c.first _ fs h.closed_fits h.closed hlinked
  have hcons : L.closed.map Piece.file ++ fs = c.file :: (cs.map Piece.file ++ fs) := by
    rw [hclosed]
    rfl
  rw [hcons] at hafter ⊢
  rw [← hafter, dueAfter_cons, dueAfter_cons, due_some hnonempty]
  rfl

/-- What was left is adopted as one run only if the last segment is the next in
line and continues the log. -/
theorem Left.sound_of_recovery (h : Left V log L d) (hstub : L.stub = none) {version : ℕ}
    (hstands : Stands V log version d) {collect : Bool} {tail : List Record}
    (hok : recovery version collect d.segments = .ok tail) : L.Sound := by
  obtain ⟨hadopt, hahead, -, -⟩ := recovery_ok_iff.mp hok
  cases hlast : L.last with
  | none =>
      have hclosed := (h.empty hlast).1
      refine ⟨?_, ⟨1, ?_⟩, ?_⟩
      · rw [hclosed]
        simp
      · rw [Layout.spans, Layout.pieces, hlast, hclosed]
        trivial
      · rw [hlast]
        simp
  | some p =>
      have hmem := Layout.mem_spans_of_last hlast
      have hfits := h.fits_span hmem
      have hrun := h.consecutive hmem
      have hpos := (h.taken p.toSpan hmem).1
      obtain ⟨hnext, hdebris⟩ := h.last p hlast
      rw [h.segments_of_last hstub hlast] at hadopt hahead
      have hahead := hahead p.file List.getLast?_concat
      have hcontents := Piece.contents_file hfits
      -- what is behind the records continues them once the segment is the next in line
      have hbehind : Consecutive Record.version p.first (contents p.file).records →
          ∀ q, L.last = some q → Consecutive Record.version q.next (found q.rest).records := by
        intro hall q hq
        rw [hcontents] at hall
        rw [hlast] at hq
        cases hq
        exact (consecutive_append.mp hall).2
      cases hclosed : L.closed with
      | nil =>
          rw [hclosed] at hadopt
          obtain ⟨-, hall, -⟩ := hadopt
          refine ⟨?_, ⟨p.first, ?_⟩, hbehind hall⟩
          · rw [hclosed]
            simp
          · rw [Layout.spans_of_last hlast, hclosed]
            exact ⟨rfl, trivial⟩
      | cons c cs =>
          have hc : c ∈ L.closed := by
            rw [hclosed]
            exact List.mem_cons_self
          have hnonempty := h.closed_nonempty hc
          have hcons : L.closed.map Piece.file ++ [p.file] =
              c.file :: (cs.map Piece.file ++ [p.file]) := by
            rw [hclosed]
            rfl
          have hsome : Adoptable (some c.first) (L.closed.map Piece.file ++ [p.file]) := by
            rw [hcons] at hadopt ⊢
            exact (adoptable_some hnonempty).mp hadopt
          obtain ⟨⟨hlinked, hwhole⟩, -, hall, -, -⟩ :=
            (adoptable_pieces (by simp) h.closed_fits h.closed_run h.closed).mp hsome
          rw [Option.getD_some] at hall
          have hdue : dueAfter none (L.closed.map Piece.file ++ [p.file]) =
              due (some (nextOf c.first (L.closed.map Piece.toSpan))) p.file := by
            rw [h.dueAfter_closed hclosed hlinked]
            rfl
          rw [hdue] at hahead
          obtain ⟨q, hq⟩ : ∃ q, L.closed.getLast? = some q := by
            rw [hclosed]
            exact ⟨_, List.getLast?_eq_some_getLast (List.cons_ne_nil _ _)⟩
          have hqmem : q ∈ L.closed := List.mem_of_getLast? hq
          have hend : nextOf c.first (L.closed.map Piece.toSpan) = q.next := by
            obtain ⟨init, hinit⟩ := List.getLast?_eq_some_iff.mp hq
            rw [hinit, List.map_append]
            exact nextOf_append_singleton ..
          rw [hend] at hall hahead
          have hnextline : q.next = p.first := by
            rw [hcontents] at hall
            exact h.next_in_line hlast hq hstands hall hahead
          rw [hnextline] at hall
          refine ⟨fun x hx => hwhole x hx, ⟨c.first, ?_⟩, hbehind hall⟩
          rw [Layout.spans_of_last hlast, linked_append, hend]
          exact ⟨hlinked, hnextline.symm, trivial⟩

/-- Files of segments that follow one another, from the first one's name on. -/
theorem Left.linked_closed (h : Left V log L d) (hsound : L.Sound) (hlast : L.last = some p) :
    L.closed = [] ∨ ∃ c cs, L.closed = c :: cs ∧ (contents c.file).records ≠ [] ∧
      Linked c.first (L.closed.map Piece.toSpan) ∧
        nextOf c.first (L.closed.map Piece.toSpan) = p.first := by
  obtain ⟨n, hlinked⟩ := hsound.linked
  cases hclosed : L.closed with
  | nil => exact .inl rfl
  | cons c cs =>
      have hc : c ∈ L.closed := by
        rw [hclosed]
        exact List.mem_cons_self
      refine .inr ⟨c, cs, rfl, ?_, ?_⟩
      · exact h.closed_nonempty hc
      · rw [Layout.spans_of_last hlast, linked_append, hclosed] at hlinked
        obtain ⟨hfront, hend, -⟩ := hlinked
        obtain rfl : c.first = n := hfront.1
        exact ⟨hfront, hend.symm⟩

theorem Left.recovery_of_sound (h : Left V log L d) (hstub : L.stub = none)
    {header : Option (Header V)} (hheader : headerOf V d = .ok header) (hsound : L.Sound)
    (collect : Bool) : recovery (versionOf header) collect d.segments =
      .ok (if collect then above (versionOf header) (log.append L.extra).records else []) := by
  have hrun := h.sound_run hsound
  have hbase := (h.header header hheader).1
  have htail := h.above_recordsOf hstub hsound hheader
  have hhead : ∀ r, (if collect then above (versionOf header) (log.append L.extra).records
      else []).head? = some r → r.version = versionOf header + 1 := by
    intro r hr
    cases collect with
    | false => cases hr
    | true =>
        rw [if_pos rfl, above, hrun.filter_lt] at hr
        rw [(hrun.drop _).head_eq hr]
        omega
  cases hlast : L.last with
  | none =>
      have hnil := h.segments_of_none hstub hlast
      refine recovery_ok_iff.mpr ⟨?_, ?_, hhead, by rw [htail]⟩
      · rw [hnil]
        trivial
      · rw [hnil]
        exact (fun _ h => by cases h)
  | some p =>
      have hmem := Layout.mem_spans_of_last hlast
      have hfits := h.fits_span hmem
      have hpos := (h.taken p.toSpan hmem).1
      have hle := (h.header header hheader).2
      have hnext := (h.last p hlast).1
      have htip : log.next = log.tip + 1 := rfl
      have hsegments := h.segments_of_last hstub hlast
      have hall : Consecutive Record.version p.first (contents p.file).records := by
        rw [Piece.contents_file hfits]
        exact consecutive_append.mpr ⟨h.consecutive hmem, hsound.behind p hlast⟩
      -- the last file is adopted with the version that is due after the others
      obtain ⟨expect, hexpect, hadopt, hdue⟩ : ∃ expect : Option ℕ,
          (∀ e, expect = some e → e = p.first) ∧ Adoptable none d.segments ∧
            dueAfter none d.segments = due expect p.file := by
        have hone : ∀ expect : Option ℕ, (∀ e, expect = some e → e = p.first) →
            Adoptable expect [p.file] := by
          intro expect hexpect
          refine ⟨p.hasMagic, ?_, fun hne => absurd rfl hne, trivial⟩
          cases expect with
          | none => exact hall
          | some e => exact hexpect e rfl ▸ hall
        rw [hsegments]
        cases h.linked_closed hsound hlast with
        | inl hnil =>
            rw [hnil]
            exact ⟨none, (fun _ h => by cases h), hone none (fun _ h => by cases h), rfl⟩
        | inr hcons =>
            obtain ⟨c, cs, hclosed, hnonempty, hlinked, hend⟩ := hcons
            have hstart : L.closed.map Piece.file ++ [p.file] =
                c.file :: (cs.map Piece.file ++ [p.file]) := by
              rw [hclosed]
              rfl
            have hlink : ∀ e, some p.first = some e → e = p.first := by
              rintro e he
              cases he
              rfl
            refine ⟨some p.first, hlink, ?_, ?_⟩
            · have hsome := (adoptable_pieces (n := c.first) (List.cons_ne_nil p.file [])
                h.closed_fits h.closed_run h.closed).mpr
                ⟨⟨hlinked, hsound.whole⟩, by rw [hend]; exact hone _ hlink⟩
              rw [hstart] at hsome ⊢
              exact (adoptable_some hnonempty).mpr hsome
            · rw [h.dueAfter_closed hclosed hlinked, hend]
              rfl
      refine recovery_ok_iff.mpr ⟨hadopt, ?_, hhead, by rw [htail]⟩
      intro f hf
      rw [hsegments, List.getLast?_concat] at hf
      cases hf
      have hversion := lastVersion_due hfits (Nat.one_le_of_lt hpos) hexpect
      rw [hdue]
      show versionOf header ≤ lastVersion p.first _
      omega

/-- When a directory without a stub loads, and what it loads. -/
theorem Left.recovery_iff (h : Left V log L d) (hstub : L.stub = none)
    {header : Option (Header V)} (hheader : headerOf V d = .ok header) {collect : Bool}
    {tail : List Record} : recovery (versionOf header) collect d.segments = .ok tail ↔ L.Sound ∧
      tail = if collect then above (versionOf header) (log.append L.extra).records else [] := by
  constructor
  · intro hok
    have hsound := h.sound_of_recovery hstub (.inr ⟨header, hheader, rfl⟩) hok
    rw [h.recovery_of_sound hstub hheader hsound collect] at hok
    exact ⟨hsound, (Except.ok.inj hok).symm⟩
  · rintro ⟨hsound, rfl⟩
    exact h.recovery_of_sound hstub hheader hsound collect

/-! ### What a load leaves -/

/-- The layout a load leaves: what was found is part of the last segment, all else
behind the records is gone, and zeroes stand in for it. -/
def Layout.adopt (z : Bytes) (L : Layout) : Layout where
  closed := L.closed.map fun p => ⟨p.toSpan, []⟩
  last := L.last.map fun p => ⟨⟨p.first, p.records ++ (found p.rest).records⟩, z⟩
  stub := none

theorem settled_pieces {n : ℕ} {ps : List Piece} {fs : List File}
    (hfits : ∀ p ∈ ps, ∀ r ∈ p.records, Fits r)
    (hclosed : ∀ p ∈ ps, p.records ≠ [] ∧ Blank p.rest) (hlinked : Linked n (ps.map Piece.toSpan)) :
    settled (some n) (ps.map Piece.file ++ fs) =
      ps.map (Span.segment ∘ Piece.toSpan) ++
        settled (some (nextOf n (ps.map Piece.toSpan))) fs := by
  induction ps generalizing n with
  | nil => rfl
  | cons p ps ih =>
      obtain ⟨rfl, hrest⟩ := hlinked
      obtain ⟨hp, hblank⟩ := hclosed p List.mem_cons_self
      have hpfits := hfits p List.mem_cons_self
      have hstop : stopOf p.file = p.stop := by
        rw [Piece.stopOf_file hpfits, found_blank hblank]
        rfl
      rw [List.map_cons, List.map_cons, List.map_cons, List.cons_append, settled, nextOf_cons,
        due_file hpfits hp hblank, ih (fun q hq => hfits q (List.mem_cons_of_mem _ hq))
          (fun q hq => hclosed q (List.mem_cons_of_mem _ hq)) hrest, hstop]
      rfl

theorem Left.settled_of_sound (h : Left V log L d) (hstub : L.stub = none) (hsound : L.Sound)
    (z : Bytes) : settled none d.segments = (L.adopt z).spans.map Span.segment := by
  cases hlast : L.last with
  | none =>
      rw [h.segments_of_none hstub hlast, Layout.spans, Layout.pieces, Layout.adopt, hlast,
        (h.empty hlast).1]
      rfl
  | some p =>
      have hfits := h.fits_span (Layout.mem_spans_of_last hlast)
      have hpos := (h.taken p.toSpan (Layout.mem_spans_of_last hlast)).1
      have hadopt : (L.adopt z).spans = L.closed.map Piece.toSpan ++
          [⟨p.first, p.records ++ (found p.rest).records⟩] := by
        rw [Layout.spans, Layout.pieces, Layout.adopt, hlast]
        simp
      have hend : ∀ expect : Option ℕ, (∀ e, expect = some e → e = p.first) →
          settled expect [p.file] =
            [Span.segment ⟨p.first, p.records ++ (found p.rest).records⟩] := by
        intro expect hexpect
        have hversion := lastVersion_due hfits (Nat.one_le_of_lt hpos) hexpect
        have hstop : stopOf p.file = Span.stop ⟨p.first, p.records ++ (found p.rest).records⟩ := by
          rw [Piece.stopOf_file hfits, Span.stop, Span.stop, encodeRecords_append,
            List.length_append, Nat.add_assoc]
        rw [settled, hstop, settled, Span.segment]
        congr 2
        rw [Span.next, List.length_append]
        rw [Span.next] at hversion
        show lastVersion p.first _ = p.first + _ - 1
        omega
      rw [h.segments_of_last hstub hlast, hadopt, List.map_append, List.map_map]
      cases h.linked_closed hsound hlast with
      | inl hnil =>
          rw [hnil]
          exact hend none (fun _ h => by cases h)
      | inr hcons =>
          obtain ⟨c, cs, hclosed, hnonempty, hlinked, hnext⟩ := hcons
          have hpieces := @settled_pieces _ c.first _ [p.file] h.closed_fits h.closed hlinked
          rw [hnext, hend (some p.first) (by rintro e he; cases he; rfl)] at hpieces
          have hcons : L.closed.map Piece.file ++ [p.file] =
              c.file :: (cs.map Piece.file ++ [p.file]) := by
            rw [hclosed]
            rfl
          rw [hcons] at hpieces ⊢
          rw [settled, due_some hnonempty]
          exact hpieces

/-- More records in the last segment. -/
theorem Left.grow (h : Left V log L d) {p' : Piece} {records : List Record}
    (hlast : L.last = some p) (hrun : Consecutive Record.version log.next records)
    (hfits : ∀ r ∈ records, Fits r) (hheader : d'.header = d.header)
    (hfiles : d'.segments = L'.files)
    (hclosed : L'.closed.map Piece.toSpan = L.closed.map Piece.toSpan)
    (hblank : ∀ q ∈ L'.closed, Blank q.rest) (hlast' : L'.last = some p')
    (hspan : p'.toSpan = ⟨p.first, p.records ++ records⟩) (hrest : Blank p'.rest)
    (hstub : L'.stub = none)
    (hnext : p'.records = [] → ∀ q, L'.closed.getLast? = some q → q.next = p'.first) :
    Left V (log.append records) L' d' := by
  have hmem := Layout.mem_spans_of_last hlast
  obtain ⟨hend, -⟩ := h.last p hlast
  have hpos := (h.taken p.toSpan hmem).1
  have hpast : p.first + p.records.length = log.next := hend
  have hspans : L'.spans = L.closed.map Piece.toSpan ++ [⟨p.first, p.records ++ records⟩] := by
    rw [Layout.spans_of_last hlast', hclosed, hspan]
  refine ⟨?_, ?_, hfiles, ?_, ?_, ?_, ?_, ?_, ?_, ?_, ?_, ?_⟩
  · refine consecutive_append.mpr ⟨h.numbered, ?_⟩
    rwa [Journal.next, Journal.tip, Nat.add_right_comm] at hrun
  · intro r hr
    exact (List.mem_append.mp hr).elim (h.fits r) (hfits r)
  · have hpairs := h.spaced
    rw [Layout.spans_of_last hlast, List.pairwise_append] at hpairs
    rw [hspans, List.pairwise_append]
    refine ⟨hpairs.1, List.pairwise_singleton .., fun s hs t ht => ?_⟩
    rw [List.mem_singleton.mp ht]
    exact hpairs.2.2 s hs p.toSpan List.mem_cons_self
  · intro s hs
    rw [hspans] at hs
    cases List.mem_append.mp hs with
    | inl hold =>
        have hs : s ∈ L.spans := by
          rw [Layout.spans_of_last hlast]
          exact List.mem_append_left _ hold
        obtain ⟨hspos, hprefix⟩ := h.taken s hs
        have hsnext := h.next_le hs
        rw [Span.next] at hsnext
        refine ⟨hspos, ?_⟩
        rw [Journal.since_append (by omega)]
        exact hprefix.trans (List.prefix_append ..)
    | inr hnew =>
        obtain ⟨-, hprefix⟩ := h.taken p.toSpan hmem
        have hwhole : p.records = log.since p.first := by
          refine hprefix.eq_of_length ?_
          rw [Journal.length_since hpos]
          omega
        rw [List.mem_singleton.mp hnew]
        refine ⟨hpos, ?_⟩
        have hsince : (log.append records).since p.first = p.records ++ records := by
          rw [Journal.since_append (by omega), ← hwhole]
        exact ⟨[], (List.append_nil _).trans hsince.symm⟩
  · intro q hq
    have hq' : q.toSpan ∈ L.closed.map Piece.toSpan := hclosed ▸ List.mem_map_of_mem hq
    obtain ⟨q', hq', heq⟩ := List.mem_map.mp hq'
    refine ⟨?_, hblank q hq⟩
    rw [← heq]
    exact (h.closed q' hq').1
  · intro q hq
    rw [hlast'] at hq
    cases hq
    refine ⟨?_, Blank.debris hrest _⟩
    rw [hspan, Span.next, List.length_append, Journal.next, Journal.tip_append]
    show p.first + (_ + _) = _
    rw [Journal.next] at hpast
    omega
  · intro hnone
    rw [hlast'] at hnone
    cases hnone
  · intro s hs
    rw [hstub] at hs
    cases hs
  · intro g hg
    rw [headerOf_congr hheader] at hg
    obtain ⟨hbase, hle⟩ := h.header g hg
    refine ⟨hbase, ?_⟩
    rw [Journal.tip_append]
    omega
  · intro s hs g hg
    rw [headerOf_congr hheader] at hg
    obtain ⟨t, ht, hfirst⟩ : ∃ t, L.spans.head? = some t ∧ t.first = s.first := by
      rw [hspans] at hs
      rw [Layout.spans_of_last hlast]
      cases hc : L.closed.map Piece.toSpan with
      | nil =>
          rw [hc] at hs
          cases hs
          exact ⟨p.toSpan, rfl, rfl⟩
      | cons t ts =>
          rw [hc] at hs
          exact ⟨t, rfl, congrArg Span.first (Option.some.inj hs)⟩
    rw [← hfirst]
    exact h.reach t ht g hg
  · intro q hq hnil
    rw [hlast'] at hq
    cases hq
    exact .inl (hnext hnil)

/-- After a load what was found is part of the log. -/
theorem Left.adopt (h : Left V log L d) (hstub : L.stub = none) (hsound : L.Sound) {z : Bytes}
    (hz : Blank z) (hbecomes : d.Becomes (padLast z (d.segments.map cut)) d') :
    Left V (log.append L.extra) (L.adopt z) d' := by
  cases hlast : L.last with
  | none =>
      have hnil := h.segments_of_none hstub hlast
      have hsame : L.adopt z = ⟨[], none, none⟩ := by
        rw [Layout.adopt, hlast, (h.empty hlast).1]
        rfl
      have hlog : log.append L.extra = log := by
        rw [Layout.extra, hlast]
        exact Journal.append_nil
      have hold : L = ⟨[], none, none⟩ := by
        obtain ⟨closed, last, stub⟩ := L
        simp only at hlast hstub
        subst hlast hstub
        exact congrArg (fun ps => Layout.mk ps none none) (h.empty rfl).1
      rw [hlog, hsame]
      rw [hold] at h
      refine h.reshape hbecomes.2.1 ?_ rfl rfl (by simp) nofun nofun
      rw [hbecomes.1, hnil]
      rfl
  | some p =>
      have hfits := h.fits_span (Layout.mem_spans_of_last hlast)
      have hextra : L.extra = (found p.rest).records := by
        rw [Layout.extra, hlast]
        rfl
      have hadopted : (L.adopt z).last =
          some ⟨⟨p.first, p.records ++ (found p.rest).records⟩, z⟩ := by
        rw [Layout.adopt, hlast]
        rfl
      have hclosed : (L.adopt z).closed.map Piece.toSpan = L.closed.map Piece.toSpan := by
        rw [Layout.adopt, List.map_map]
        rfl
      have hrun := hsound.behind p hlast
      rw [(h.last p hlast).1] at hrun
      rw [hextra]
      refine h.grow hlast hrun (found_spec p.rest).2.1 hbecomes.2.1 ?_ hclosed ?_ hadopted rfl hz
        rfl ?_
      · have hcut : ∀ q ∈ L.closed, cut q.file = (⟨q.toSpan, []⟩ : Piece).file := by
          intro q hq
          rw [Piece.cut_file (h.closed_fits q hq), found_blank (h.closed q hq).2]
          rfl
        have hlastfile : ((cut p.file).1, (cut p.file).2 ++ z) =
            (⟨⟨p.first, p.records ++ (found p.rest).records⟩, z⟩ : Piece).file := by
          rw [Piece.cut_file hfits, Piece.file, Span.body, Span.body, encodeRecords_append]
          simp
        rw [hbecomes.1, h.segments_of_last hstub hlast, List.map_append, List.map_singleton,
          padLast_append, hlastfile, List.map_map, Layout.files, Layout.pieces, hadopted]
        simp only [Layout.adopt, Option.toList, List.map_append, List.map_map, List.map_cons,
          List.map_nil, List.append_nil]
        congr 1
        exact List.map_congr_left hcut
      · intro q hq
        obtain ⟨q', -, rfl⟩ := List.mem_map.mp hq
        exact blank_nil
      · rintro - q hq
        rw [Layout.adopt, List.getLast?_map, Option.map_eq_some_iff] at hq
        obtain ⟨q', hq', rfl⟩ := hq
        show q'.next = p.first
        obtain ⟨n, hlinked⟩ := hsound.linked
        obtain ⟨init, hinit⟩ := List.getLast?_eq_some_iff.mp hq'
        rw [Layout.spans_of_last hlast, hinit, List.map_append, linked_append] at hlinked
        have hstart := hlinked.2.1
        rw [List.map_singleton, nextOf_append_singleton] at hstart
        exact hstart.symm

end Lug.Wal
