import Lug.Wal.Piece

/-!
What a log directory looks like: segment files that hold the run of records that
was committed, and what a rotation or a write that was not finished may leave at
its end. `Left` is what holds of it whoever works on it and wherever a process was
killed, `Kept` what holds besides while a loaded store works on it.
-/

namespace Lug.Wal

open Octets Faulty Runs

/-- The records of a log directory, which are those above version `base`. -/
structure Journal where
  base : ℕ
  records : List Record

namespace Journal

/-- The last version. -/
def tip (log : Journal) : ℕ := log.base + log.records.length

def next (log : Journal) : ℕ := log.tip + 1

/-- The records from a version on. -/
def since (log : Journal) (n : ℕ) : List Record := log.records.drop (n - (log.base + 1))

def append (log : Journal) (records : List Record) : Journal :=
  { log with records := log.records ++ records }

variable {log : Journal} {records : List Record}

@[simp] theorem tip_append : (log.append records).tip = log.tip + records.length := by
  rw [tip, tip, append, List.length_append, Nat.add_assoc]

@[simp] theorem base_append : (log.append records).base = log.base := rfl

@[simp] theorem append_nil : log.append [] = log := by
  rw [append, List.append_nil]

theorem length_since {n : ℕ} (hn : log.base + 1 ≤ n) :
    (log.since n).length = log.next - n := by
  rw [since, List.length_drop, next, tip]
  omega

theorem since_append {n : ℕ} (hn : n ≤ log.next) :
    (log.append records).since n = log.since n ++ records := by
  have hshort : n - (log.base + 1) ≤ log.records.length := by
    rw [next, tip] at hn
    omega
  exact List.drop_append_of_le_length hshort

theorem since_add {n : ℕ} (hn : log.base + 1 ≤ n) (k : ℕ) :
    log.since (n + k) = (log.since n).drop k := by
  rw [since, since, List.drop_drop]
  congr 1
  omega

theorem since_next : log.since log.next = [] := by
  rw [since, next, tip, List.drop_eq_nil_iff]
  omega

theorem base_lt_next : log.base < log.next := by
  rw [next, tip]
  omega

theorem next_eq : log.next = log.tip + 1 := rfl

theorem base_le_tip : log.base ≤ log.tip := Nat.le_add_right ..

theorem consecutive_since (h : Consecutive Record.version (log.base + 1) log.records) {n : ℕ}
    (hn : log.base + 1 ≤ n) : Consecutive Record.version n (log.since n) := by
  have hdrop := h.drop (n - (log.base + 1))
  rwa [show log.base + 1 + (n - (log.base + 1)) = n by omega] at hdrop

end Journal

/-- The segment files of a directory: those a rotation closed, the last one, and
one that a rotation left unfinished. -/
structure Layout where
  closed : List Piece
  last : Option Piece
  stub : Option Stub

namespace Layout

def pieces (L : Layout) : List Piece := L.closed ++ L.last.toList

def spans (L : Layout) : List Span := L.pieces.map Piece.toSpan

variable [Crc32]

def files (L : Layout) : List File := L.pieces.map Piece.file ++ L.stub.toList.map Stub.file

end Layout

variable [Crc32] (V : Type) [Versioned V] [HeaderSerde V]

/-- The directory `d` is laid out as `L` and holds the records `log`. -/
structure Left (log : Journal) (L : Layout) (d : Dir) : Prop where
  numbered : Consecutive Record.version (log.base + 1) log.records
  fits : ∀ r ∈ log.records, Fits r
  files : d.segments = L.files
  spaced : L.spans.Pairwise fun s t => s.next ≤ t.first
  /-- A segment file holds the records from the one it is named for on. -/
  taken : ∀ s ∈ L.spans, log.base + 1 ≤ s.first ∧ s.records <+: log.since s.first
  closed : ∀ p ∈ L.closed, p.records ≠ [] ∧ Blank p.rest
  last : ∀ p, L.last = some p → p.next = log.next ∧ Debris p.next p.rest
  empty : L.last = none → L.closed = [] ∧ log.records = []
  stub : ∀ s, L.stub = some s → s.Of log.next ∧
    ∀ p, L.last = some p → p.records ≠ [] ∧ Blank p.rest
  /-- The header covers no record that is not there, and all that are not kept. -/
  header : ∀ h, headerOf V d = .ok h → log.base ≤ versionOf h ∧ versionOf h ≤ log.tip
  /-- No record is missing between the header and the first segment. -/
  reach : ∀ s, L.spans.head? = some s → ∀ h, headerOf V d = .ok h → s.first ≤ versionOf h + 1
  /-- A last segment without records continues the one before it, unless the header
  covers all that was there in between. -/
  continues : ∀ p, L.last = some p → p.records = [] → (∀ q, L.closed.getLast? = some q →
    q.next = p.first) ∨ ∀ h, headerOf V d = .ok h → log.tip ≤ versionOf h

variable {V} {log : Journal} {L L' : Layout} {d d' : Dir}

omit [Crc32] in
theorem Layout.mem_spans_of_mem_closed {p : Piece} (h : p ∈ L.closed) : p.toSpan ∈ L.spans :=
  List.mem_map_of_mem (List.mem_append_left _ h)

omit [Crc32] in
theorem Layout.mem_spans_of_last {p : Piece} (h : L.last = some p) : p.toSpan ∈ L.spans :=
  List.mem_map_of_mem (List.mem_append_right _ (by rw [h]; exact List.mem_cons_self))

theorem headerOf_congr (h : d'.header = d.header) : headerOf V d' = headerOf V d := by
  rw [headerOf, headerOf, h]

namespace Left

/-- The records of a piece are numbered from its name on. -/
theorem consecutive (h : Left V log L d) {s : Span} (hs : s ∈ L.spans) :
    Consecutive Record.version s.first s.records := by
  obtain ⟨hpos, hprefix⟩ := h.taken s hs
  exact Consecutive.of_prefix (Journal.consecutive_since h.numbered hpos) hprefix

theorem fits_span (h : Left V log L d) {s : Span} (hs : s ∈ L.spans) :
    ∀ r ∈ s.records, Fits r := by
  obtain ⟨-, t, ht⟩ := h.taken s hs
  intro r hr
  exact h.fits r (List.mem_of_mem_drop (ht ▸ List.mem_append_left t hr))

/-- Files that hold the same records, with other things behind them. -/
theorem reshape (h : Left V log L d) (hheader : d'.header = d.header)
    (hfiles : d'.segments = L'.files)
    (hclosed : L'.closed.map Piece.toSpan = L.closed.map Piece.toSpan)
    (hlast : L'.last.map Piece.toSpan = L.last.map Piece.toSpan)
    (hblank : ∀ p ∈ L'.closed, Blank p.rest)
    (hdebris : ∀ p, L'.last = some p → Debris p.next p.rest)
    (hstub : ∀ s, L'.stub = some s → s.Of log.next ∧
      ∀ p, L'.last = some p → p.records ≠ [] ∧ Blank p.rest) :
    Left V log L' d' := by
  have hspans : L'.spans = L.spans := by
    have htoList : ∀ o : Option Piece, o.toList.map Piece.toSpan =
        (o.map Piece.toSpan).toList := fun o => by cases o <;> rfl
    rw [Layout.spans, Layout.spans, Layout.pieces, Layout.pieces, List.map_append,
      List.map_append, hclosed, htoList, htoList, hlast]
  have hsame : ∀ p, L'.last = some p → ∃ q, L.last = some q ∧ q.toSpan = p.toSpan := by
    intro p hp
    rw [hp, Option.map_some] at hlast
    exact Option.map_eq_some_iff.mp hlast.symm
  refine ⟨h.numbered, h.fits, hfiles, hspans ▸ h.spaced, hspans ▸ h.taken, ?_, ?_, ?_, hstub, ?_,
    ?_, ?_⟩
  · intro p hp
    refine ⟨?_, hblank p hp⟩
    have hmem : p.toSpan ∈ L.closed.map Piece.toSpan := hclosed ▸ List.mem_map_of_mem hp
    obtain ⟨q, hq, heq⟩ := List.mem_map.mp hmem
    rw [← heq]
    exact (h.closed q hq).1
  · intro p hp
    obtain ⟨q, hq, heq⟩ := hsame p hp
    refine ⟨?_, hdebris p hp⟩
    rw [← heq]
    exact (h.last q hq).1
  · intro hnone
    rw [hnone, Option.map_none, eq_comm, Option.map_eq_none_iff] at hlast
    obtain ⟨hnil, hlog⟩ := h.empty hlast
    rw [hnil, List.map_nil, List.map_eq_nil_iff] at hclosed
    exact ⟨hclosed, hlog⟩
  · rw [headerOf_congr hheader]
    exact h.header
  · rw [hspans, headerOf_congr hheader]
    exact h.reach
  · intro p hp hrecords
    rw [headerOf_congr hheader]
    obtain ⟨q, hq, heq⟩ := hsame p hp
    rw [← heq] at hrecords ⊢
    refine (h.continues q hq hrecords).imp_left fun hdue g hg => ?_
    have hg' : (L'.closed.map Piece.toSpan).getLast? = some g.toSpan := by
      rw [List.getLast?_map, hg]
      rfl
    rw [hclosed, List.getLast?_map, Option.map_eq_some_iff] at hg'
    obtain ⟨g', hg', hspan⟩ := hg'
    rw [← hspan]
    exact hdue g' hg'

end Left

/-! ### What a recovery does to the files -/

/-- A piece that was cut, or not, and may have got zeroes at its end. -/
def Piece.CutTo (p q : Piece) : Prop :=
  q.toSpan = p.toSpan ∧ ∃ n z, Blank z ∧ q.rest = p.rest.take n ++ z

omit [Crc32] in
theorem Piece.CutTo.blank {p q : Piece} (h : p.CutTo q) (hblank : Blank p.rest) :
    Blank q.rest := by
  obtain ⟨-, n, z, hz, hrest⟩ := h
  rw [hrest]
  exact blank_append.mpr ⟨hblank.take n, hz⟩

theorem Piece.CutTo.debris {p q : Piece} (h : p.CutTo q) (hdebris : Debris p.next p.rest) :
    Debris q.next q.rest := by
  obtain ⟨hspan, n, z, hz, hrest⟩ := h
  rw [hrest, hspan]
  exact hdebris.trim n hz

theorem Piece.trimmed_file {p : Piece} (h : ∀ r ∈ p.records, Fits r) {f : File}
    (htrim : Trimmed p.file f) : ∃ q, f = q.file ∧ p.CutTo q := by
  cases htrim with
  | inl hsame =>
      refine ⟨p, hsame, rfl, p.rest.length, [], blank_nil, ?_⟩
      rw [List.take_length, List.append_nil]
  | inr hcut =>
      obtain ⟨-, z, hz, rfl⟩ := hcut
      have hhead : encodeRecords (found p.rest).records <+: p.rest :=
        ⟨(found p.rest).rest, (found_spec p.rest).1.symm⟩
      refine ⟨⟨p.toSpan, encodeRecords (found p.rest).records ++ z⟩, ?_, rfl, _, z, hz,
        congrArg (· ++ z) (List.prefix_iff_eq_take.mp hhead)⟩
      rw [p.cut_file h, Piece.file]
      exact Prod.ext rfl (List.append_assoc ..)

theorem Stub.Of.trimmed_file {n : ℕ} {s : Stub} (h : s.Of n) {f : File}
    (htrim : Trimmed s.file f) : ∃ t : Stub, f = t.file ∧ t.Of n := by
  cases htrim with
  | inl hsame => exact ⟨s, hsame, h⟩
  | inr hcut =>
      obtain ⟨hmagic, z, hz, rfl⟩ := hcut
      obtain ⟨z', hz', hfile⟩ := h.eq_of_hasMagic hmagic
      -- seen as a segment it is one without records
      have hpiece : s.file = (⟨⟨s.first, []⟩, z'⟩ : Piece).file := by
        refine Prod.ext rfl ?_
        rw [hfile]
        show _ = segmentPrologue ++ [] ++ z'
        rw [List.append_nil]
      refine ⟨⟨s.first, segPrologue, z⟩, ?_, h.first, le_rfl, hz, fun _ => ?_⟩
      case refine_2 =>
        rw [Stub.file, List.length_append, List.length_take, length_segmentPrologue]
        exact (min_self segPrologue).ge.trans (Nat.le_add_right ..)
      rw [hpiece, Piece.cut_file (by simp), found_blank hz']
      refine Prod.ext rfl ?_
      show segmentPrologue ++ [] ++ [] ++ z = segmentPrologue.take segPrologue ++ z
      rw [List.append_nil, List.append_nil, ← length_segmentPrologue, List.take_length]

theorem trimmed_pieces {ps : List Piece} (h : ∀ p ∈ ps, ∀ r ∈ p.records, Fits r)
    {fs : List File} (htrim : List.Forall₂ Trimmed (ps.map Piece.file) fs) :
    ∃ qs : List Piece, fs = qs.map Piece.file ∧ List.Forall₂ Piece.CutTo ps qs := by
  induction ps generalizing fs with
  | nil =>
      cases htrim
      exact ⟨[], rfl, .nil⟩
  | cons p ps ih =>
      cases htrim with
      | @cons _ f _ fs hhead htail =>
          obtain ⟨q, rfl, hq⟩ := Piece.trimmed_file (h p List.mem_cons_self) hhead
          obtain ⟨qs, rfl, hqs⟩ := ih (fun p hp => h p (List.mem_cons_of_mem _ hp)) htail
          exact ⟨q :: qs, rfl, .cons hq hqs⟩

omit [Crc32] in
theorem spans_cutTo {ps qs : List Piece} (h : List.Forall₂ Piece.CutTo ps qs) :
    ps.map Piece.toSpan = qs.map Piece.toSpan := by
  induction h with
  | nil => rfl
  | cons hhead _ ih => rw [List.map_cons, List.map_cons, hhead.1, ih]

omit [Crc32] in
theorem mem_cutTo {ps qs : List Piece} (h : List.Forall₂ Piece.CutTo ps qs) {q : Piece}
    (hq : q ∈ qs) : ∃ p ∈ ps, p.CutTo q := by
  induction h with
  | nil => cases hq
  | cons hhead _ ih =>
      cases hq with
      | head => exact ⟨_, List.mem_cons_self, hhead⟩
      | tail _ hq =>
          obtain ⟨p, hp, hpq⟩ := ih hq
          exact ⟨p, List.mem_cons_of_mem _ hp, hpq⟩

omit [Crc32] in
theorem forall₂_append_left {α β : Type} {R : α → β → Prop} {xs ys : List α} {zs : List β}
    (h : List.Forall₂ R (xs ++ ys) zs) :
    ∃ zs₁ zs₂, zs = zs₁ ++ zs₂ ∧ List.Forall₂ R xs zs₁ ∧ List.Forall₂ R ys zs₂ := by
  refine ⟨zs.take xs.length, zs.drop xs.length, (List.take_append_drop ..).symm, ?_, ?_⟩
  · have htake := List.forall₂_take xs.length h
    rwa [List.take_left] at htake
  · have hdrop := List.forall₂_drop xs.length h
    rwa [List.drop_left] at hdrop

/-- A recovery that did not get through leaves a directory that was left as one. -/
theorem Left.trimmed (h : Left V log L d) {files : List File}
    (htrim : List.Forall₂ Trimmed d.segments files) (hbecomes : d.Becomes files d') :
    ∃ L', Left V log L' d' := by
  rw [h.files, Layout.files, Layout.pieces, List.map_append, List.append_assoc] at htrim
  obtain ⟨fs₁, fs', rfl, hclosed, hrest⟩ := forall₂_append_left htrim
  obtain ⟨fs₂, fs₃, rfl, hlast, hstub⟩ := forall₂_append_left hrest
  have hfits : ∀ p ∈ L.pieces, ∀ r ∈ p.records, Fits r := fun p hp =>
    h.fits_span (List.mem_map_of_mem hp)
  obtain ⟨qs, rfl, hqs⟩ := trimmed_pieces
    (fun p hp => hfits p (List.mem_append_left _ hp)) hclosed
  obtain ⟨ls, rfl, hls⟩ := trimmed_pieces
    (fun p hp => hfits p (List.mem_append_right _ hp)) hlast
  obtain ⟨last', hls', hlast'⟩ : ∃ last' : Option Piece, ls = last'.toList ∧
      (∀ p, last' = some p → ∃ q, L.last = some q ∧ q.CutTo p) ∧
        last'.map Piece.toSpan = L.last.map Piece.toSpan := by
    cases hl : L.last with
    | none =>
        rw [hl] at hls
        cases hls
        exact ⟨none, rfl, nofun, rfl⟩
    | some p =>
        rw [hl] at hls
        obtain ⟨q, hq, rfl⟩ : ∃ q, p.CutTo q ∧ ls = [q] := by
          cases hls with
          | cons hhead htail =>
              cases htail
              exact ⟨_, hhead, rfl⟩
        refine ⟨some q, rfl, ?_, congrArg some hq.1⟩
        rintro q' hq'
        cases hq'
        exact ⟨p, rfl, hq⟩
  obtain ⟨stub', rfl, hstub'⟩ : ∃ stub' : Option Stub, fs₃ = stub'.toList.map Stub.file ∧
      ∀ t, stub' = some t → t.Of log.next ∧ ∃ s, L.stub = some s := by
    cases hs : L.stub with
    | none =>
        rw [hs] at hstub
        cases hstub
        exact ⟨none, rfl, nofun⟩
    | some s =>
        rw [hs] at hstub
        cases hstub with
        | cons hhead htail =>
            cases htail
            obtain ⟨t, rfl, ht⟩ := (h.stub s hs).1.trimmed_file hhead
            refine ⟨some t, rfl, ?_⟩
            rintro t' ht'
            cases ht'
            exact ⟨ht, s, rfl⟩
  refine ⟨⟨qs, last', stub'⟩, h.reshape hbecomes.2.1 ?_ (spans_cutTo hqs).symm hlast'.2 ?_ ?_ ?_⟩
  · rw [hbecomes.1, Layout.files, Layout.pieces, List.map_append, List.append_assoc, ← hls']
  · intro q hq
    obtain ⟨p, hp, hpq⟩ := mem_cutTo hqs hq
    exact hpq.blank (h.closed p hp).2
  · intro p hp
    obtain ⟨q, hq, hqp⟩ := hlast'.1 p hp
    exact hqp.debris (h.last q hq).2
  · intro t ht
    obtain ⟨hof, s, hs⟩ := hstub' t ht
    obtain ⟨-, hfull⟩ := h.stub s hs
    refine ⟨hof, fun p hp => ?_⟩
    obtain ⟨q, hq, hqp⟩ := hlast'.1 p hp
    refine ⟨?_, hqp.blank (hfull q hq).2⟩
    rw [hqp.1]
    exact (hfull q hq).1

end Lug.Wal
