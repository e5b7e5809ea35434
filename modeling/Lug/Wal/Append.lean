import Lug.Wal.Kept

/-!
`append`: the batch is part of the log once it returns `Ok`, and nothing of it is
before unless the process is killed or what landed cannot be erased.
-/

namespace Lug.Wal

open Octets Faulty Runs

theorem le_nextMultipleOf (n k : ℕ) : n ≤ nextMultipleOf n k := by
  rw [nextMultipleOf]
  split_ifs
  · exact le_rfl
  · exact Nat.le_add_right n _

/-- A batch passes the checks of `append` if it is a run from the version that is due
of records the format can hold. -/
theorem validate_ok_iff {n : ℕ} {records : List Record} :
    validate n records = .ok () ↔ Consecutive Record.version n records ∧
      ∀ r ∈ records, Fits r ∧ r.version < versionMax := by
  induction records generalizing n with
  | nil => simp [validate]
  | cons r records ih =>
      have hfits : (Fits r ∧ r.version < versionMax) ↔
          r.patch ≠ [] ∧ r.patch.length ≤ maxPayload ∧ r.version < versionMax := by
        constructor
        · rintro ⟨hr, hlow⟩
          exact ⟨List.ne_nil_of_length_pos hr.nonempty, hr.short, hlow⟩
        · rintro ⟨hne, hshort, hlow⟩
          refine ⟨⟨List.length_pos_of_ne_nil hne, hshort, ?_⟩, hlow⟩
          rw [versionMax] at hlow
          omega
      rw [validate, consecutive_cons, List.forall_mem_cons, hfits]
      split_ifs with horder hempty hlong hlast
      · simp [horder]
      · simp [List.isEmpty_iff.mp hempty]
      · simp [hlong]
      · refine iff_of_false nofun fun h => ?_
        have hlow := h.2.1.2.2
        omega
      · have hne : r.patch ≠ [] := fun hnil => hempty (List.isEmpty_iff.mpr hnil)
        rw [ih]
        constructor
        · rintro ⟨hrun, hall⟩
          exact ⟨⟨not_not.mp horder, hrun⟩, ⟨hne, not_lt.mp hlong, by omega⟩, hall⟩
        · rintro ⟨⟨-, hrun⟩, -, hall⟩
          exact ⟨hrun, hall⟩

variable [Crc32]

theorem flatten_batchBufs (records : List Record) :
    (batchBufs records).flatten = encodeRecords records := by
  induction records with
  | nil => rfl
  | cons r records ih =>
      rw [batchBufs] at ih ⊢
      rw [List.flatMap_cons, List.flatten_append, ih, encodeRecords_cons]
      simp [recordBytes]

theorem batchTotal_eq (records : List Record) :
    batchTotal records = (encodeRecords records).length := by
  induction records with
  | nil => rfl
  | cons r records ih =>
      rw [batchTotal] at ih ⊢
      rw [List.map_cons, List.sum_cons, ih, encodeRecords_cons, List.length_append,
        length_recordBytes]

theorem batchBufs_nonempty {records : List Record} (h : ∀ r ∈ records, Fits r) :
    ∀ b ∈ batchBufs records, b ≠ [] := by
  intro b hb hnil
  subst hnil
  obtain ⟨r, hr, hmem⟩ := List.mem_flatMap.mp hb
  rw [List.mem_cons, List.mem_singleton] at hmem
  cases hmem with
  | inl hprefix =>
      have hlength := congrArg List.length hprefix
      rw [length_recordPrefix] at hlength
      cases hlength
  | inr hpatch =>
      have hpos := (h r hr).nonempty
      rw [← hpatch] at hpos
      exact absurd hpos (Nat.lt_irrefl 0)

variable {V : Type} [Versioned V] [HeaderSerde V] {log : Journal} {records : List Record} {L : Layout}
  {stale : ℕ} {env : Env} {m : Machine} {p : Piece} {d : Dir}

/-- The layout with another end to its last segment. -/
def Layout.setRest (p : Piece) (rest : Bytes) (L : Layout) : Layout :=
  { L with last := some ⟨p.toSpan, rest⟩ }

omit [Crc32] in
theorem Layout.spans_setRest (hlast : L.last = some p) (rest : Bytes) :
    (L.setRest p rest).spans = L.spans := by
  rw [Layout.spans_of_last hlast, Layout.spans_of_last (p := ⟨p.toSpan, rest⟩) rfl]
  rfl

/-- A change behind the records of the last segment. -/
theorem Left.edit_last (h : Left V log L d) (hstub : L.stub = none) (hlast : L.last = some p)
    {f : Bytes → Bytes} {rest : Bytes} (hf : f (p.body ++ p.rest) = p.body ++ rest)
    (hdebris : Debris p.next rest) :
    Left V log (L.setRest p rest) (d.edit (.segment p.first) f) := by
  have hedit := Dir.becomes_edit f (h.segments_of_last hstub hlast)
  rw [hf] at hedit
  refine h.reshape hedit.2.1 ?_ rfl ?_ (fun q hq => (h.closed q hq).2) ?_ ?_
  · rw [hedit.1, Layout.files, Layout.pieces, Layout.setRest, hstub]
    simp [Piece.file]
  · rw [hlast]
    rfl
  · rintro q hq
    cases hq
    exact hdebris
  · intro s hs
    rw [show (L.setRest p rest).stub = L.stub from rfl, hstub] at hs
    cases hs

namespace Kept

/-- A store whose file is open works on the last segment. -/
theorem open_last (h : Kept V log L stale m) (hopen : m.store.active.isSome) :
    L.stub = none ∧ ∃ p, L.last = some p ∧ m.store.active = some p.first := by
  refine h.active.resolve_left ?_
  rintro ⟨hnone, -⟩
  rw [hnone] at hopen
  cases hopen

/-- The store after a change behind the records of its last segment. -/
theorem set_rest (h : Kept V log L stale m) (hstub : L.stub = none) (hlast : L.last = some p)
    (hactive : m.store.active = some p.first) {rest : Bytes} {m' : Machine}
    (hleft : Left V log (L.setRest p rest) m'.dir) (hheader : m'.dir.header = m.dir.header)
    (hstore : m'.store = { m.store with
      capacity := m'.store.capacity
      poison := m'.store.poison })
    (hclean : m'.store.poison = none → Blank rest) : Kept V log (L.setRest p rest) stale m' := by
  have hactive' : m'.store.active = some p.first := by
    rw [hstore]
    exact hactive
  refine h.carry hleft hheader (Layout.spans_setRest hlast rest) rfl ?_ ?_
    (.inr ⟨hstub, _, rfl, hactive'⟩)
  · rw [hstore]
  · rintro hpoison q hq
    cases hq
    exact hclean hpoison

end Kept

/-- `grow` lengthens the file, if anything. -/
theorem ends_grow (h : Kept V log L stale m) (hstub : L.stub = none) (hlast : L.last = some p)
    (hactive : m.store.active = some p.first) (hpoison : m.store.poison = none) (total : ℕ) :
    Ends (grow env p.segment p.first total) (fun x m' => ∃ z capacity, Blank z ∧
      Kept V log (L.setRest p z) stale m' ∧ m'.store = { m.store with capacity := capacity } ∧
        m'.dir.header = m.dir.header ∧ (x ≠ .ok () → ¬env.Calm) ∧
          ∀ e, x = .error e → ∃ path, e = .io path) m := by
  have hrest := h.clean hpoison p hlast
  have hkeep : Kept V log (L.setRest p p.rest) stale m := by
    rw [Layout.setRest, ← hlast]
    exact h
  rw [grow, ends_bind, ends_get, after_ok]
  by_cases hroom : m.store.capacity < p.segment.stop + total
  case neg =>
    rw [if_neg hroom]
    exact ⟨p.rest, m.store.capacity, hrest, hkeep, rfl, rfl, fun hne => absurd rfl hne, nofun⟩
  case pos =>
    have hlong : p.stop ≤ nextMultipleOf (p.segment.stop + total) m.store.rotateBytes :=
      (Nat.le_add_right ..).trans (le_nextMultipleOf ..)
    rw [if_pos hroom, ends_bind]
    generalize nextMultipleOf (p.segment.stop + total) m.store.rotateBytes = want at hlong ⊢
    obtain ⟨rest, hblank, hgrown⟩ : ∃ rest, Blank rest ∧
        (if env.fallocate then extend want else setLen want) (p.body ++ p.rest) =
          p.body ++ rest := by
      split
      · exact ⟨_, hrest.extend _, by rw [extend_append]⟩
      · exact ⟨_, hrest.setLen _, by rw [setLen_append_of_le (by rw [Span.length_body]; exact hlong)]⟩
    refine ends_sys_call (fun _ => ?_) (fun hfail => ?_) (fun hdie => ?_)
    · have hleft := h.toLeft.edit_last hstub hlast hgrown (Blank.debris hblank _)
      exact ⟨rest, want, hblank, h.set_rest hstub hlast hactive hleft (Dir.header_edit _) rfl
        fun _ => hblank, rfl, Dir.header_edit _, fun hne => absurd rfl hne, nofun⟩
    · exact ⟨p.rest, m.store.capacity, hrest, hkeep, rfl, rfl,
        fun _ => not_calm_of_reply hfail nofun, fun e he => ⟨_, by cases he; rfl⟩⟩
    · exact ⟨p.rest, m.store.capacity, hrest, hkeep, rfl, rfl,
        fun _ => not_calm_of_reply hdie nofun, nofun⟩

/-- The cleanup behind a failed write: the end of the segment is blank again, or the
store is poisoned. -/
theorem ends_cleanUp (h : Kept V log L stale m) (hstub : L.stub = none) (hlast : L.last = some p)
    (hactive : m.store.active = some p.first) {total : ℕ} {path : Path} {rest : Bytes}
    (hleft : Left V log (L.setRest p rest) d) (hheader : d.header = m.dir.header)
    (hdebris : Debris p.next rest) (hbehind : Blank (rest.drop total)) :
    Ends (cleanUp env p.segment p.first total (.io path)) (fun x m' => m'.dir.header = m.dir.header ∧
      match x with
      | .ok _ => False
      | .error (.cleanupFailed _ _) => ∃ rest poison, Kept V log (L.setRest p rest) stale m' ∧
          m'.store = { m.store with poison := some poison }
      | .error e => e = .io path ∧ ∃ z, Blank z ∧ Kept V log (L.setRest p z) stale m' ∧
          m'.store = m.store
      | .died => ∃ rest, Left V log (L.setRest p rest) m'.dir) ⟨m.store, d⟩ := by
  have hlast' : (L.setRest p rest).last = some ⟨p.toSpan, rest⟩ := rfl
  have hsegments := hleft.segments_of_last hstub hlast'
  have hoffset : ∀ content, d.bytes p.segment.path = some content →
      p.segment.stop ≤ content.length := by
    intro content hcontent
    have hbytes : d.bytes (.segment p.first) = some (p.body ++ rest) := Dir.bytes_segment hsegments
    rw [show d.bytes p.segment.path = some (p.body ++ rest) from hbytes] at hcontent
    cases hcontent
    rw [List.length_append, Span.length_body]
    exact Nat.le_add_right ..
  -- however far the zeroing came, debris is left
  have hzeroed : ∀ n, Left V log (L.setRest p (zeroes n ++ rest.drop n))
      (d.edit (.segment p.first) (overwrite p.stop (zeroes n))) := by
    intro n
    have hf : overwrite p.stop (zeroes n) (p.body ++ rest) =
        p.body ++ (zeroes n ++ rest.drop n) := by
      rw [← Span.length_body, overwrite_append, length_zeroes, List.append_assoc]
    exact hleft.edit_last hstub hlast' hf (hdebris.zero n)
  have hheader' : ∀ n, (d.edit (.segment p.first) (overwrite p.stop (zeroes n))).header =
      m.dir.header := fun n => (Dir.header_edit _).trans hheader
  have hpoison : ∀ n poison, Kept V log (L.setRest p (zeroes n ++ rest.drop n)) stale
      ⟨{ m.store with poison := some poison },
        d.edit (.segment p.first) (overwrite p.stop (zeroes n))⟩ := fun n poison =>
    h.set_rest hstub hlast hactive (hzeroed n) (hheader' n) rfl nofun
  rw [cleanUp, ends_bind, ends_attempt, ends_sys, ends_bind]
  refine ends_zeroRange hoffset fun x n hn hok _ => ?_
  cases x with
  | error u => exact ⟨hheader' n, _, _, hpoison n _, rfl⟩
  | died => exact ⟨hheader' n, _, hzeroed n⟩
  | ok u =>
      obtain rfl := hok rfl
      have hblank : Blank (zeroes n ++ rest.drop n) := blank_append.mpr ⟨blank_zeroes n, hbehind⟩
      rw [after_ok]
      refine ends_call (fun _ => ?_) (fun _ => ?_) (fun _ => ?_)
      · refine ⟨hheader' n, ?_⟩
        exact ⟨rfl, _, hblank, h.set_rest hstub hlast hactive (hzeroed n) (hheader' n) rfl
          fun _ => hblank, rfl⟩
      · exact ⟨hheader' n, _, _, hpoison n _, rfl⟩
      · exact ⟨hheader' n, _, hzeroed n⟩

/-- The last segment with a batch written to it. -/
def Layout.extend (p : Piece) (records : List Record) (z : Bytes) (L : Layout) : Layout :=
  { L with last := some ⟨⟨p.first, p.records ++ records⟩, z⟩ }

/-- A batch that was written whole is part of the log. -/
theorem Kept.extend (h : Kept V log L stale m) (hstub : L.stub = none) (hlast : L.last = some p)
    (hactive : m.store.active = some p.first) (hpoison : m.store.poison = none)
    (hne : records ≠ []) (hrun : Consecutive Record.version log.next records)
    (hfits : ∀ r ∈ records, Fits r) :
    ∃ z, Blank z ∧ Kept V (log.append records) (L.extend p records z) stale
      ⟨{ m.store with segments := m.store.segments.dropLast ++
          [⟨p.first, p.stop + batchTotal records,
            records.getLast?.elim (p.next - 1) Record.version⟩] },
        m.dir.edit (.segment p.first) (overwrite p.stop (encodeRecords records))⟩ := by
  have hf : overwrite p.stop (encodeRecords records) (p.body ++ p.rest) =
      p.body ++ (encodeRecords records ++ p.rest.drop (encodeRecords records).length) := by
    rw [← Span.length_body, overwrite_append, List.append_assoc]
  have hblank := (h.clean hpoison p hlast).drop (encodeRecords records).length
  have hedit := Dir.becomes_edit (overwrite p.stop (encodeRecords records))
    (h.segments_of_last hstub hlast)
  rw [hf] at hedit
  generalize p.rest.drop (encodeRecords records).length = z at hedit hblank
  have hnext := (h.last p hlast).1
  have hnonempty : p.records ++ records ≠ [] := fun hnil => hne (List.append_eq_nil_iff.mp hnil).2
  have hleft : Left V (log.append records) (L.extend p records z)
      (m.dir.edit (.segment p.first) (overwrite p.stop (encodeRecords records))) := by
    refine h.grow hlast hrun hfits hedit.2.1 ?_ rfl (fun q hq => (h.closed q hq).2) rfl rfl hblank
      hstub fun hnil => absurd hnil hnonempty
    rw [hedit.1, Layout.files, Layout.pieces, Layout.extend, hstub]
    simp [Piece.file, Span.body, encodeRecords_append]
  have hspans : (L.extend p records z).spans =
      L.closed.map Piece.toSpan ++ [⟨p.first, p.records ++ records⟩] :=
    Layout.spans_of_last (p := ⟨⟨p.first, p.records ++ records⟩, z⟩) rfl
  have hstale := h.stale_le
  rw [← List.length_map (f := Piece.toSpan)] at hstale
  refine ⟨z, hblank, hleft, h.stale_le, ?_, ?_, .inr ⟨hstub, _, rfl, hactive⟩, ?_, ?_, ?_,
    h.recovered, h.room⟩
  · have hversion : records.getLast?.elim (p.next - 1) Record.version =
        p.next + records.length - 1 := by
      obtain ⟨r, hr⟩ : ∃ r, records.getLast? = some r := ⟨_, List.getLast?_eq_some_getLast hne⟩
      have hlastversion := hrun.last_eq hr
      rw [hr, Option.elim_some]
      omega
    rw [h.segments, hspans, Layout.spans_of_last hlast, List.drop_append_of_le_length hstale,
      List.drop_append_of_le_length hstale, List.map_append, List.map_append, List.map_singleton,
      List.map_singleton, List.dropLast_concat, hversion, batchTotal_eq]
    rw [Span.segment, Span.stop, Span.stop, Span.next, Span.next, encodeRecords_append,
      List.length_append, List.length_append, Nat.add_assoc, Nat.add_assoc]
  · rintro - q hq
    cases hq
    exact hblank
  · obtain ⟨n, hlinked⟩ := h.linked
    rw [h.live hlast, linked_append] at hlinked
    rw [hspans, List.drop_append_of_le_length hstale, List.map_drop.symm]
    exact ⟨n, linked_append.mpr ⟨hlinked.1, hlinked.2.1, trivial⟩⟩
  · obtain ⟨hbase, hcovered⟩ := h.covered
    rw [Journal.tip_append]
    exact ⟨hbase, hcovered.trans (Nat.le_add_right ..)⟩
  · rw [headerOf_congr hedit.2.1]
    exact h.known

/-- What a write leaves of the store `m` whose last segment is `p`, by how it ends. -/
def Wrote (V : Type) [Versioned V] [HeaderSerde V] (log : Journal) (records : List Record) (L : Layout)
    (stale : ℕ) (p : Piece) (m : Machine) : Exit Err Unit → Machine → Prop
  | .ok _, m' => ∃ z, Blank z ∧ Kept V (log.append records) (L.extend p records z) stale m' ∧
      m'.store.poison = m.store.poison ∧ m'.store.headerVersion = m.store.headerVersion ∧
        m'.store.rotateBytes = m.store.rotateBytes ∧ m'.store.active = m.store.active
  | .error (.cleanupFailed _ _), m' => ∃ rest poison capacity,
      Kept V log (L.setRest p rest) stale m' ∧
        m'.store = { m.store with capacity := capacity, poison := some poison }
  | .error e, m' => (∃ path, e = .io path) ∧ ∃ z capacity, Blank z ∧
      Kept V log (L.setRest p z) stale m' ∧ m'.store = { m.store with capacity := capacity }
  | .died, m' => ∃ rest, Left V log (L.setRest p rest) m'.dir

/-- `append` from where it has a segment to write to. -/
theorem ends_writeBatch (h : Kept V log L stale m) (hstub : L.stub = none) (hlast : L.last = some p)
    (hactive : m.store.active = some p.first) (hpoison : m.store.poison = none)
    (hne : records ≠ []) (hrun : Consecutive Record.version log.next records)
    (hfits : ∀ r ∈ records, Fits r) :
    Ends (writeBatch env records) (fun x m' => Wrote V log records L stale p m x m' ∧
      m'.dir.header = m.dir.header ∧ (x ≠ .ok () → ¬env.Calm)) m := by
  rw [writeBatch, ends_bind, ends_get, after_ok, h.last_segment, hlast, hactive]
  dsimp only [Option.map_some]
  rw [ends_bind]
  refine (ends_grow h hstub hlast hactive hpoison (batchTotal records)).mono ?_
  rintro x m₁ ⟨z, capacity, hz, h₁, hstore₁, hheader₁, hcalm₁, hio₁⟩
  have hlast₁ : (L.setRest p z).last = some ⟨p.toSpan, z⟩ := rfl
  have hactive₁ : m₁.store.active = some p.first := by
    rw [hstore₁]
    exact hactive
  have hpoison₁ : m₁.store.poison = none := by
    rw [hstore₁]
    exact hpoison
  cases x with
  | error e =>
      obtain ⟨path, rfl⟩ := hio₁ e rfl
      exact ⟨⟨⟨path, rfl⟩, z, capacity, hz, h₁, hstore₁⟩, hheader₁, fun _ => hcalm₁ nofun⟩
  | died => exact ⟨⟨z, h₁.toLeft⟩, hheader₁, fun _ => hcalm₁ nofun⟩
  | ok u =>
      have hsegments := h₁.segments_of_last hstub hlast₁
      have hoffset : ∀ content, m₁.dir.bytes (.segment p.first) = some content →
          p.stop ≤ content.length := by
        intro content hcontent
        have hbytes : m₁.dir.bytes (.segment p.first) = some (p.body ++ z) :=
          Dir.bytes_segment hsegments
        rw [hbytes] at hcontent
        cases hcontent
        rw [List.length_append, Span.length_body]
        exact Nat.le_add_right ..
      -- however much of the batch landed
      have hlanded : ∀ n, n ≤ (encodeRecords records).length →
          Left V log (L.setRest p ((encodeRecords records).take n ++ z.drop n))
            (m₁.dir.edit (.segment p.first) (overwrite p.stop ((encodeRecords records).take n))) := by
        intro n hn
        have hlength : ((encodeRecords records).take n).length = n := by
          rw [List.length_take]
          omega
        have hf : overwrite p.stop ((encodeRecords records).take n) (p.body ++ z) =
            p.body ++ ((encodeRecords records).take n ++ z.drop n) := by
          rw [← Span.length_body, overwrite_append, hlength, List.append_assoc]
        have hnext := (h.last p hlast).1
        exact h₁.toLeft.edit_last hstub hlast₁ hf
          (debris_write hfits (show Consecutive Record.version p.next records by rwa [hnext]) hz hn)
      rw [after_ok, ends_bind, ends_attempt, ends_sys]
      refine ends_pwritevAll (batchBufs_nonempty hfits) hoffset fun x n hn hok hfail => ?_
      rw [flatten_batchBufs] at hn hok ⊢
      have hheader : (m₁.dir.edit (.segment p.first)
          (overwrite p.stop ((encodeRecords records).take n))).header = m.dir.header :=
        (Dir.header_edit _).trans hheader₁
      cases x with
      | ok u =>
          obtain rfl := hok rfl
          obtain ⟨z', hz', hkept⟩ := h₁.extend hstub hlast₁ hactive₁ hpoison₁ hne hrun hfits
          rw [List.take_length] at hheader ⊢
          refine ⟨⟨z', hz', hkept, ?_⟩, hheader, fun hx => absurd rfl hx⟩
          rw [hstore₁]
          exact ⟨rfl, rfl, rfl, rfl⟩
      | died => exact ⟨⟨_, hlanded n hn⟩, hheader, fun _ => hfail nofun⟩
      | error u =>
          have hcalm : ¬env.Calm := hfail nofun
          have hbehind : Blank (((encodeRecords records).take n ++ z.drop n).drop
              (batchTotal records)) := by
            rw [batchTotal_eq, List.drop_append, List.drop_of_length_le (by
              rw [List.length_take]
              omega), List.nil_append]
            exact (hz.drop n).drop _
          have hdebris := ((hlanded n hn).last ⟨p.toSpan, _⟩ rfl).2
          have hclean : Ends (cleanUp env _ _ _ (.io (.segment p.first))) _ _ :=
            ends_cleanUp h₁ hstub hlast₁ hactive₁ (hlanded n hn) (Dir.header_edit _) hdebris
              hbehind
          rw [Exit.mapError, Exit.attempt, after_ok]
          refine Ends.mono hclean ?_
          rintro x m₂ ⟨hheader₂, hends⟩
          refine ⟨?_, hheader₂.trans hheader₁, fun _ => hcalm⟩
          cases x with
          | ok u => exact hends.elim
          | died => exact hends
          | error e =>
              cases e with
              | cleanupFailed path offset =>
                  obtain ⟨rest, poison, hkept, hstore⟩ := hends
                  exact ⟨rest, poison, capacity, hkept, by rw [hstore, hstore₁]⟩
              | io path =>
                  obtain ⟨-, z', hz', hkept, hstore⟩ := hends
                  exact ⟨⟨path, rfl⟩, z', capacity, hz', hkept, hstore.trans hstore₁⟩
              | _ =>
                  obtain ⟨he, -⟩ := hends
                  cases he

/-- A batch that `append` tries to write. -/
structure Accepted (log : Journal) (records : List Record) (m : Machine) : Prop where
  nonempty : records ≠ []
  clean : m.store.poison = none
  valid : validate log.next records = .ok ()

/-- All that an append can do. -/
inductive Appending (V : Type) [Versioned V] [HeaderSerde V] (env : Env) (log : Journal)
    (records : List Record) (L : Layout) (stale : ℕ) (m : Machine) : Exit Err Unit → Machine → Prop
  | nothing : records = [] → Appending V env log records L stale m (.ok ()) m
  | poisoned (q : Poison) : records ≠ [] → m.store.poison = some q →
      Appending V env log records L stale m (.error (.poisoned q.path q.offset)) m
  | refused (e : Err) : records ≠ [] → m.store.poison = none → validate log.next records = .error e →
      Appending V env log records L stale m (.error e) m
  | stuck (x : Exit Err Unit) (L' : Layout) (m' : Machine) : Accepted log records m →
      m.store.rotating = true → x ≠ .ok () → (∀ e, x = .error e → ∃ path, e = .io path) →
        Stuck env m L L' → Kept V log L' stale m' → m'.store = { m.store with active := none } →
          Appending V env log records L stale m x m'
  | rotated (z : Bytes) (m₁ : Machine) (x : Exit Err Unit) (m' : Machine) :
      Accepted log records m → m.store.rotating = true → Blank z → m.store.closing env = true →
        Kept V log ⟨(L.seal (m.store.cutting env)).pieces, some ⟨⟨log.next, []⟩, z⟩, none⟩ stale m₁ →
          m₁.store = { m.store with
            segments := m.store.segments ++ [⟨log.next, segPrologue, log.tip⟩]
            capacity := m.store.rotateBytes
            active := some log.next } →
            Wrote V log records
              ⟨(L.seal (m.store.cutting env)).pieces, some ⟨⟨log.next, []⟩, z⟩, none⟩ stale
              ⟨⟨log.next, []⟩, z⟩ m₁ x m' → Appending V env log records L stale m x m'
  | wrote (p : Piece) (x : Exit Err Unit) (m' : Machine) : Accepted log records m →
      m.store.rotating = false → L.last = some p → L.stub = none →
        m.store.active = some p.first → Wrote V log records L stale p m x m' →
          Appending V env log records L stale m x m'

theorem Kept.full_of_rotating (h : Kept V log L stale m) (hpoison : m.store.poison = none)
    (hrotating : m.store.rotating = true) :
    ∀ p, L.last = some p → p.records ≠ [] ∧ Blank p.rest := by
  intro p hlast
  refine ⟨?_, h.clean hpoison p hlast⟩
  rw [SegmentStore.rotating, h.last_segment, hlast, Bool.or_eq_true] at hrotating
  cases hrotating with
  | inl hlong =>
      have hroom := h.room
      have hstop : m.store.rotateBytes ≤ p.stop := of_decide_eq_true hlong
      rintro hnil
      rw [Span.stop, hnil, encodeRecords_nil, List.length_nil, segPrologue] at hstop
      rw [segPrologue, recPrefix] at hroom
      omega
  | inr hclosed =>
      refine (h.active.resolve_right ?_).2 p hlast |>.1
      rintro ⟨-, q, -, hq⟩
      rw [hq] at hclosed
      cases hclosed

theorem ends_append (h : Kept V log L stale m) :
    Ends (append env records) (fun x m' => Appending V env log records L stale m x m' ∧
      m'.dir.header = m.dir.header ∧
        (Accepted log records m → x ≠ .ok () → ¬env.Calm)) m := by
  rw [append]
  by_cases hnil : records = []
  case pos =>
    rw [if_pos (List.isEmpty_iff.mpr hnil)]
    exact ⟨.nothing hnil, rfl, fun haccepted => absurd hnil haccepted.nonempty⟩
  case neg =>
    rw [if_neg fun hempty => hnil (List.isEmpty_iff.mp hempty), ends_bind, ends_get, after_ok]
    cases hpoison : m.store.poison with
    | some q =>
        refine ⟨.poisoned q hnil hpoison, rfl, fun haccepted => ?_⟩
        rw [haccepted.clean] at hpoison
        cases hpoison
    | none =>
        dsimp only
        rw [ends_bind, ensureRecovered, ends_bind, ends_get, after_ok, h.recovered, if_pos rfl,
          ends_pure, after_ok, ends_bind, ends_get, after_ok, ends_bind, h.nextVersion]
        cases hvalid : validate log.next records with
        | error e =>
            refine ⟨.refused e hnil hpoison hvalid, rfl, fun haccepted => ?_⟩
            rw [haccepted.valid] at hvalid
            cases hvalid
        | ok u =>
            have haccepted : Accepted log records m := ⟨hnil, hpoison, hvalid⟩
            obtain ⟨hrun, hall⟩ := validate_ok_iff.mp hvalid
            have hfits : ∀ r ∈ records, Fits r := fun r hr => (hall r hr).1
            have hhead : records.head?.elim 0 Record.version = log.next := by
              obtain ⟨r, hr⟩ : ∃ r, records.head? = some r := ⟨_, List.head?_eq_some_head hnil⟩
              rw [hr]
              exact hrun.head_eq hr
            rw [ends_lift_ok, after_ok]
            by_cases hrotating : m.store.rotating = true
            · rw [if_pos hrotating, ends_bind, hhead]
              refine (ends_rotate h (h.full_of_rotating hpoison hrotating)).mono ?_
              rintro x m₁ ⟨hheader, hok, hfail, hcalm, hio⟩
              cases x with
              | error e =>
                  obtain ⟨L', hstuck, hkept, hstore⟩ := hfail nofun
                  exact ⟨.stuck _ L' m₁ haccepted hrotating nofun hio hstuck hkept hstore, hheader,
                    fun _ => hcalm⟩
              | died =>
                  obtain ⟨L', hstuck, hkept, hstore⟩ := hfail nofun
                  exact ⟨.stuck _ L' m₁ haccepted hrotating nofun hio hstuck hkept hstore, hheader,
                    fun _ => hcalm⟩
              | ok u =>
                  obtain ⟨hclosing, z, hz, hkept, hstore⟩ := hok rfl
                  have hactive : m₁.store.active = some log.next := by rw [hstore]
                  have hclean : m₁.store.poison = none := by rw [hstore]; exact hpoison
                  rw [after_ok]
                  refine (ends_writeBatch hkept rfl rfl hactive hclean hnil hrun hfits).mono ?_
                  rintro x m' ⟨hwrote, hheader', hcalm'⟩
                  exact ⟨.rotated z m₁ x m' haccepted hrotating hz hclosing hkept hstore hwrote,
                    hheader'.trans hheader, fun _ => hcalm'⟩
            · have hstays : m.store.rotating = false := Bool.eq_false_iff.mpr hrotating
              have hopen : m.store.active.isSome := by
                rw [SegmentStore.rotating, Bool.or_eq_false_iff] at hstays
                rw [Option.isSome_iff_ne_none]
                intro hnone
                rw [hnone] at hstays
                cases hstays.2
              obtain ⟨hstub, p, hlast, hactive⟩ := h.open_last hopen
              rw [if_neg hrotating]
              refine (ends_writeBatch h hstub hlast hactive hpoison hnil hrun hfits).mono ?_
              rintro x m' ⟨hwrote, hheader, hcalm⟩
              exact ⟨.wrote p x m' haccepted hstays hlast hstub hactive hwrote, hheader,
                fun _ => hcalm⟩

/-- What holds however an append ends. -/
def Settled (V : Type) [Versioned V] [HeaderSerde V] (log : Journal) (records : List Record)
    (stale : ℕ) : Exit Err Unit → Machine → Prop
  | .ok _, m' => ∃ L', Kept V (log.append records) L' stale m'
  | .error _, m' => ∃ L', Kept V log L' stale m'
  | .died, m' => ∃ L', Left V log L' m'.dir

theorem Wrote.settled {x : Exit Err Unit} {m' : Machine} (h : Wrote V log records L stale p m x m') :
    Settled V log records stale x m' := by
  cases x with
  | ok u =>
      obtain ⟨z, -, hkept, -⟩ := h
      exact ⟨_, hkept⟩
  | died =>
      obtain ⟨rest, hleft⟩ := h
      exact ⟨_, hleft⟩
  | error e =>
      cases e with
      | cleanupFailed path offset =>
          obtain ⟨rest, poison, capacity, hkept, -⟩ := h
          exact ⟨_, hkept⟩
      | _ =>
          obtain ⟨-, z, capacity, -, hkept, -⟩ := h
          exact ⟨_, hkept⟩

/-- A batch is part of the log only once its append returns `Ok`. -/
theorem Appending.settled (h : Kept V log L stale m) {x : Exit Err Unit} {m' : Machine}
    (happend : Appending V env log records L stale m x m') : Settled V log records stale x m' := by
  cases happend with
  | nothing hnil =>
      rw [hnil]
      exact ⟨L, by rwa [Journal.append_nil]⟩
  | poisoned q hne hpoison => exact ⟨L, h⟩
  | refused e hne hclean hvalid => exact ⟨L, h⟩
  | stuck x L' m' haccepted hrotating hx hio hstuck hkept hstore =>
      cases x with
      | ok u => exact absurd rfl hx
      | error e => exact ⟨L', hkept⟩
      | died => exact ⟨L', hkept.toLeft⟩
  | rotated z m₁ x m' haccepted hrotating hz hclosing hkept hstore hwrote => exact hwrote.settled
  | wrote p x m' haccepted hrotating hlast hstub hactive hwrote => exact hwrote.settled

end Lug.Wal
