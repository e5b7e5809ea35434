import Lug.Core.Storage
import Lug.Wal.Mending
import Lug.Wal.Retry
import Lug.Wal.Unsettled

/-!
The history that a store stands for: which records were appended to it, and which
checkpoint is the last. Its calls do to the history what the contract of a storage says.
-/

namespace Lug.Wal

open Octets Faulty Runs

section

variable [Crc32] {V : Type} [Versioned V] [HeaderSerde V] {log log' : Journal} {L L' : Layout}
  {stale : ℕ} {env : Env} {m m₁ m' : Machine} {p : Piece} {records : List Record}

/-! ### Appends, wherever the segments of the store start -/

/-- The store goes on with the log `log'`, from the same segment on. -/
def Advanced (V : Type) [Versioned V] [HeaderSerde V] (log : Journal) (L : Layout) (stale : ℕ)
    (m : Machine) (log' : Journal) (m' : Machine) : Prop :=
  ∃ L', Kept V log' L' stale m' ∧ m'.store.poison = m.store.poison ∧
    L'.front log'.next stale = L.front log.next stale

theorem Advanced.refl (h : Kept V log L stale m) : Advanced V log L stale m log m :=
  ⟨L, h, rfl, rfl⟩

theorem Advanced.trans (h : Advanced V log L' stale m₁ log' m')
    (hclean : m₁.store.poison = m.store.poison)
    (hfront : L'.front log.next stale = L.front log.next stale) :
    Advanced V log L stale m log' m' := by
  obtain ⟨L'', hkept, hpoison, hsame⟩ := h
  exact ⟨L'', hkept, hpoison.trans hclean, hsame.trans hfront⟩

/-- Where an append that can be cleaned up after leaves a store. -/
def Advances (V : Type) [Versioned V] [HeaderSerde V] (log : Journal) (records : List Record)
    (L : Layout) (stale : ℕ) (m : Machine) : Exit Err Unit → Machine → Prop
  | .ok _, m' => Advanced V log L stale m (log.append records) m'
  | .error e, m' => e.Mended → Advanced V log L stale m log m'
  | .died, m' => ∃ L', Left V log L' m'.dir

theorem Wrote.advances (h : Kept V log L stale m) (hlast : L.last = some p) {x : Exit Err Unit}
    (hwrote : Wrote V log records L stale p m x m') : Advances V log records L stale m x m' := by
  have hfront : ∀ (last : Piece) (n n' : ℕ), last.first = p.first →
      Layout.front n' stale { L with last := some last } = L.front n stale := fun _ n n' hfirst =>
    Layout.front_with_last h.stale_le hlast hfirst n n'
  cases x with
  | ok u =>
      obtain ⟨z, -, hkept, hpoison, -⟩ := hwrote
      exact ⟨_, hkept, hpoison, hfront _ _ _ rfl⟩
  | died =>
      obtain ⟨rest, hleft⟩ := hwrote
      exact ⟨_, hleft⟩
  | error e =>
      intro hmended
      cases e with
      | cleanupFailed path offset => exact absurd rfl (hmended path offset)
      | _ =>
          obtain ⟨-, z, capacity, -, hkept, hstore⟩ := hwrote
          exact ⟨_, hkept, by rw [hstore], hfront _ _ _ rfl⟩

theorem Appending.advances (h : Kept V log L stale m) {x : Exit Err Unit}
    (happend : Appending V env log records L stale m x m') :
    Advances V log records L stale m x m' := by
  cases happend with
  | nothing hnil =>
      rw [hnil]
      show Advanced V log L stale m (log.append []) m
      rw [Journal.append_nil]
      exact .refl h
  | poisoned q hne hpoison => exact fun _ => .refl h
  | refused e hne hclean hvalid => exact fun _ => .refl h
  | stuck x L' m' haccepted hrotating hx hio hstuck hkept hstore =>
      cases x with
      | ok u => exact absurd rfl hx
      | died => exact ⟨L', hkept.toLeft⟩
      | error e =>
          obtain ⟨-, hspans⟩ := hstuck.same
          exact fun _ => ⟨L', hkept, by rw [hstore], by rw [Layout.front, Layout.front, hspans]⟩
  | rotated z m₁ x m' haccepted hrotating hz hclosing hkept hstore hwrote =>
      have hadvances := hwrote.advances hkept rfl
      have hclean : m₁.store.poison = m.store.poison := by rw [hstore]
      have hfront := h.front_started (m.store.cutting env) z
      cases x with
      | ok u => exact Advanced.trans hadvances hclean hfront
      | error e => exact fun hmended => (hadvances hmended).trans hclean hfront
      | died => exact hadvances
  | wrote p x m' haccepted hrotating hlast hstub hactive hwrote => exact hwrote.advances h hlast

/-- What was appended was next. -/
theorem Appending.valid (happend : Appending V env log records L stale m (.ok ()) m') :
    records = [] ∨ validate log.next records = .ok () := by
  cases happend with
  | nothing hnil => exact .inl hnil
  | stuck _ _ _ _ _ hx => exact absurd rfl hx
  | rotated _ _ _ _ haccepted => exact .inr haccepted.valid
  | wrote _ _ _ haccepted => exact .inr haccepted.valid

/-! ### Checkpoints -/

/-- The segments of the store start at the first of them, and not above the log. -/
theorem Kept.front_le (h : Kept V log L stale m) :
    (∀ s ∈ L.spans.drop stale, L.front log.next stale ≤ s.first) ∧
      L.front log.next stale ≤ log.next := by
  rw [Layout.front]
  cases hspans : L.spans.drop stale with
  | nil => exact ⟨fun _ hs => absurd hs List.not_mem_nil, le_rfl⟩
  | cons s spans =>
      have hpairs := h.spaced.drop (i := stale)
      rw [hspans, List.pairwise_cons] at hpairs
      have hmem : s ∈ L.spans := List.mem_of_mem_drop (i := stale) (by rw [hspans]; simp)
      have hnext := h.next_le hmem
      have hfirst : s.first ≤ s.next := Nat.le_add_right ..
      refine ⟨fun t ht => ?_, hfirst.trans hnext⟩
      cases List.mem_cons.mp ht with
      | inl hsame => exact hsame ▸ le_rfl
      | inr hlater => exact hfirst.trans (hpairs.1 t hlater)

omit [Crc32] in
/-- A reclaim leaves the store some of the segments it had. -/
theorem Layout.mem_drop_reclaimed {gone stale' : ℕ} (hstale : stale ≤ L.closed.length)
    (hle : stale ≤ stale') {s : Span} (hs : s ∈ (L.reclaimed stale gone).spans.drop stale') :
    s ∈ L.spans.drop stale := by
  have hs := (List.drop_sublist_drop_left _ hle).subset hs
  have htake : (L.closed.take stale).length = stale := List.length_take_of_le hstale
  have hpieces : (L.reclaimed stale gone).pieces =
      L.closed.take stale ++ (L.closed.drop (stale + gone) ++ L.last.toList) := by
    rw [Layout.pieces, Layout.reclaimed, List.append_assoc]
  rw [Layout.spans, hpieces, ← List.map_drop, List.drop_left' htake] at hs
  rw [Layout.spans, Layout.pieces, ← List.map_drop, List.drop_append_of_le_length hstale]
  refine List.map_subset _ (fun c hc => ?_) hs
  cases List.mem_append.mp hc with
  | inl hclosed =>
      rw [← List.drop_drop] at hclosed
      exact List.mem_append_left _ (List.mem_of_mem_drop hclosed)
  | inr hlast => exact List.mem_append_right _ hlast

/-- A reclaim does not move the oldest version back. -/
theorem Kept.front_reclaimed {gone stale' : ℕ} (h : Kept V log L stale m) (hle : stale ≤ stale') :
    L.front log.next stale ≤ (L.reclaimed stale gone).front log.next stale' := by
  obtain ⟨hspans, hnext⟩ := h.front_le
  rw [Layout.front.eq_def log.next stale' (L.reclaimed stale gone)]
  cases hdrop : (L.reclaimed stale gone).spans.drop stale' with
  | nil => exact hnext
  | cons s spans =>
      have hs : s ∈ (L.reclaimed stale gone).spans.drop stale' := by
        rw [hdrop]
        exact List.mem_cons_self
      exact hspans s (Layout.mem_drop_reclaimed h.stale_le hle hs)

end

/-! ### The history of a store -/

section

variable [Crc32] {V : Type} [Versioned V] [HeaderSerde V]

/-- The records of a history. -/
def journal (H : Ledger V) : Journal := ⟨0, H.taken⟩

omit [Crc32] [Versioned V] [HeaderSerde V] in
@[simp] theorem tip_journal (H : Ledger V) : (journal H).tip = H.taken.length := Nat.zero_add _

omit [Crc32] [Versioned V] [HeaderSerde V] in
@[simp] theorem next_journal (H : Ledger V) : (journal H).next = H.taken.length + 1 := by
  rw [Journal.next, tip_journal]

/-- The header file is that of the last checkpoint, as far as it can be read. -/
def Heads (H : Ledger V) (d : Dir) : Prop :=
  ∀ g, headerOf V d = .ok g → g = H.header.map fun v => ⟨Versioned.version v, v⟩

/-- A directory that stands for the history `H`, whoever left it. -/
structure Rests (H : Ledger V) (d : Dir) : Prop where
  left : ∃ L, Left V (journal H) L d
  heads : Heads H d
  covers : ∀ v, H.header = some v → Versioned.version v ≤ H.taken.length

/-- A store at work that stands for the history `H`. -/
structure Serves (H : Ledger V) (m : Machine) : Prop where
  kept : ∃ L stale, Kept V (journal H) L stale m
  clean : m.store.poison = none
  heads : Heads H m.dir
  covers : ∀ v, H.header = some v → Versioned.version v ≤ H.taken.length
  low : H.taken.length < versionMax

variable {H : Ledger V} {env : Env} {m m' : Machine} {d d' : Dir} {records : List Record}

theorem Serves.rests (h : Serves H m) : Rests H m.dir := by
  obtain ⟨L, stale, hkept⟩ := h.kept
  exact ⟨⟨L, hkept.toLeft⟩, h.heads, h.covers⟩

theorem Heads.congr (h : Heads H d) (hheader : d'.header = d.header) : Heads H d' := by
  intro g hg
  rw [headerOf_congr hheader] at hg
  exact h g hg

theorem heads_headerBytes [LawfulHeaderSerde V] {view : V} {json : Bytes}
    (hjson : HeaderSerde.toVec (⟨Versioned.version view, view⟩ : Header V) = .ok json)
    (hheader : d.header = some (headerBytes json)) : Heads (H.checkpoint view) d := by
  intro g hg
  have hread := headerOf_headerBytes hjson hheader
  split_ifs at hread with hshort
  · rw [hread] at hg
    exact (Except.ok.inj hg).symm
  · obtain ⟨e, he⟩ := hread
    rw [he] at hg
    cases hg

/-- The versions of a history are those from 1 on. -/
theorem Rests.numbered (h : Rests H d) : Consecutive Record.version 1 H.taken := by
  obtain ⟨L, hleft⟩ := h.left
  exact hleft.numbered

theorem Rests.top (h : Rests H d) : H.top = H.taken.length := by
  have hheader : H.header.elim 0 Versioned.version ≤ H.taken.length := by
    cases hv : H.header with
    | none => exact Nat.zero_le _
    | some v => exact h.covers v hv
  rw [Ledger.top]
  cases hlast : H.taken.getLast? with
  | none =>
      rw [List.getLast?_eq_none_iff.mp hlast] at hheader ⊢
      simpa using hheader
  | some r =>
      have hversion := h.numbered.last_eq hlast
      show max r.version (H.header.elim 0 Versioned.version) = H.taken.length
      omega

theorem Rests.push_taken (h : Rests H d) {records : List Record} (v : V)
    (hv : (H.push records).header = some v) :
    Versioned.version v ≤ (H.push records).taken.length := by
  rw [Ledger.push_taken, List.length_append]
  exact (h.covers v hv).trans (Nat.le_add_right ..)

/-! ### What the calls do to it -/

/-- The next version of a store is that above its history. -/
theorem Serves.nextVersion (h : Serves H m) : m.store.nextVersion = H.taken.length + 1 := by
  obtain ⟨L, stale, hkept⟩ := h.kept
  rw [hkept.nextVersion, next_journal]

theorem Serves.next_le (h : Serves H m) : (journal H).next ≤ versionMax := by
  rw [next_journal]
  exact h.low

theorem Advanced.serves {L : Layout} {stale : ℕ} {H' : Ledger V} (h : Serves H m)
    (hkept : Kept V (journal H) L stale m)
    (hadvanced : Advanced V (journal H) L stale m (journal H') m') (hheads : Heads H' m'.dir)
    (hcovers : ∀ v, H'.header = some v → Versioned.version v ≤ H'.taken.length)
    (hlow : H'.taken.length < versionMax) :
    Serves H' m' ∧ m.store.oldest ≤ m'.store.oldest := by
  obtain ⟨L', hkept', hpoison, hfront⟩ := hadvanced
  have hserves : Serves H' m' :=
    ⟨⟨L', stale, hkept'⟩, hpoison.trans h.clean, hheads, hcovers, hlow⟩
  refine ⟨hserves, ?_⟩
  rw [hkept.oldest_eq h.next_le, hkept'.oldest_eq hserves.next_le, hfront]

/-- What an append does to the history. -/
def Recorded (H : Ledger V) (records : List Record) (m : Machine) : Exit Err Unit → Machine → Prop
  | .ok _, m' => Serves (H.push records) m' ∧ m.store.oldest ≤ m'.store.oldest
  | .error _, m' => Serves H m' ∧ m.store.oldest ≤ m'.store.oldest
  | .died, m' => Rests H m'.dir

/-- What a checkpoint does to it: where it does not get through, the header is the old one
or the new one. -/
def Checkpointed (H : Ledger V) (view : V) (m : Machine) : Exit Err Unit → Machine → Prop
  | .ok _, m' => Serves (H.checkpoint view) m' ∧ m.store.oldest ≤ m'.store.oldest
  | .error _, m' => (Serves H m' ∨ Serves (H.checkpoint view) m') ∧
      m.store.oldest ≤ m'.store.oldest
  | .died, m' => Rests H m'.dir ∨ Rests (H.checkpoint view) m'.dir

/-- An append that returns takes the whole batch or nothing of it. -/
theorem Serves.ends_append (h : Serves H m) (hmends : env.Mends) (records : List Record) :
    Ends (append env records) (Recorded H records m) m := by
  obtain ⟨L, stale, hkept⟩ := h.kept
  refine ((Wal.ends_append hkept).and (hmends.ends_append hkept.recovered)).mono ?_
  rintro x m' ⟨⟨happend, hheader, -⟩, hmended⟩
  have hadvances := happend.advances hkept
  have hheads := h.heads.congr hheader
  cases x with
  | died => exact ⟨hadvances, hheads, h.covers⟩
  | error e =>
      exact Advanced.serves h hkept (hadvances (hmended e rfl)) hheads h.covers h.low
  | ok u =>
      refine Advanced.serves h hkept hadvances hheads h.rests.push_taken ?_
      have hlow : (journal (H.push records)).next ≤ versionMax := by
        cases happend.valid with
        | inl hnil =>
            rw [hnil, Ledger.push_nil]
            exact h.next_le
        | inr hvalid => exact low_append hvalid h.next_le
      rw [next_journal] at hlow
      exact hlow

theorem Serves.ends_sync (h : Serves H m) : Ends (sync env) (fun _ m' => Serves H m' ∧
    m'.store.oldest = m.store.oldest) m :=
  Wal.ends_sync.mono fun x m' hsame => by
    obtain ⟨rfl, -⟩ := hsame
    exact ⟨h, rfl⟩

/-- A checkpoint of the last version puts its view in place, or leaves the one there
was. -/
theorem Serves.ends_writeHeader [LawfulHeaderSerde V] (h : Serves H m) {view : V}
    (hview : Versioned.version view = H.taken.length) :
    Ends (writeHeader env view) (Checkpointed H view m) m := by
  obtain ⟨L, stale, hkept⟩ := h.kept
  have hcovers : ∀ v, (H.checkpoint view).header = some v →
      Versioned.version v ≤ (H.checkpoint view).taken.length := by
    intro v hv
    cases hv
    exact hview.le
  refine (Wal.ends_writeHeader hkept (hview.trans (tip_journal H).symm)).mono ?_
  rintro x m' hcheckpoint
  -- a call that fails or dies finds the old header there or the new one
  have hstopped : ∀ {x m'}, x ≠ .ok () → (Serves H m' ∨ Serves (H.checkpoint view) m') ∧
      m.store.oldest ≤ m'.store.oldest → Checkpointed H view m x m' := by
    intro x m' hx hserves
    cases x with
    | ok u => exact absurd rfl hx
    | error e => exact hserves
    | died => exact hserves.1.imp Serves.rests Serves.rests
  cases hcheckpoint with
  | unpublished x m' hx _ hkept' hstore hsegments hheader =>
      refine hstopped hx ⟨.inl ⟨⟨L, stale, hkept'⟩, ?_, h.heads.congr hheader, h.covers, h.low⟩, ?_⟩
      · rw [hstore]
        exact h.clean
      · rw [hstore]
  | published json x m' hx _ hjson hkept' hstore hsegments hheader =>
      refine hstopped hx ⟨.inr ⟨⟨L, stale, hkept'⟩, ?_, heads_headerBytes hjson hheader, hcovers,
        h.low⟩, ?_⟩
      · rw [hstore]
        exact h.clean
      · rw [hstore]
  | taken json gone stale' x m' hjson hkept' hstale hstore hheader hends =>
      have hserves : Serves (H.checkpoint view) m' := by
        refine ⟨⟨_, stale', hkept'⟩, ?_, heads_headerBytes hjson hheader, hcovers, h.low⟩
        rw [hstore]
        exact h.clean
      have holdest : m.store.oldest ≤ m'.store.oldest := by
        rw [hkept.oldest_eq h.next_le, hkept'.oldest_eq h.next_le]
        exact hkept.front_reclaimed (by omega)
      cases x with
      | ok u => exact ⟨hserves, holdest⟩
      | error e => exact ⟨.inr hserves, holdest⟩
      | died => exact .inr hserves.rests

/-! ### What a load makes of it -/

section Load

variable {log : Journal} {L : Layout} {stale : ℕ} {found : Recovered V}

/-- No record stands in a stub. -/
theorem Stub.Of.contents_nil {n : ℕ} {s : Stub} (h : s.Of n) : (contents s.file).records = [] := by
  have hlength : (segmentPrologue.take s.stamped).length ≤ segPrologue := by
    rw [List.length_take, length_segmentPrologue]
    exact Nat.min_le_right ..
  show (found ((segmentPrologue.take s.stamped ++ s.rest).drop segPrologue)).records = []
  rw [List.drop_append, List.drop_of_length_le hlength, List.nil_append,
    found_blank (h.blank.drop _)]

/-- Where nothing is found behind the last segment, nothing is found behind the log. -/
theorem Left.beyond_nil (h : Left V log L d) (hextra : L.extra = []) : log.beyond d = [] := by
  have hold : ∀ s ∈ L.spans, ∀ r ∈ s.records, ¬log.tip < r.version := by
    intro s hs r hr
    obtain ⟨-, t, ht⟩ := h.taken s hs
    have hmem : r ∈ log.records := List.mem_of_mem_drop (ht ▸ List.mem_append_left t hr)
    have hbounds := h.numbered.bounds hmem
    rw [Journal.tip]
    omega
  have hpiece : ∀ p ∈ L.pieces, (contents p.file).records = p.records := by
    intro p hp
    have hfits := h.fits_span (List.mem_map_of_mem (f := Piece.toSpan) hp)
    rw [Layout.pieces, List.mem_append, Option.mem_toList] at hp
    rw [Piece.contents_file hfits]
    cases hp with
    | inl hclosed => simp [found_blank (h.closed p hclosed).2]
    | inr hlast =>
        rw [Layout.extra, Option.mem_def.mp hlast, Option.elim_some] at hextra
        simp [hextra]
  rw [Journal.beyond, above, List.filter_eq_nil_iff]
  intro r hr
  rw [h.files, recordsOf, List.mem_flatMap] at hr
  obtain ⟨f, hf, hr⟩ := hr
  rw [Layout.files, List.mem_append] at hf
  cases hf with
  | inl hpieces =>
      obtain ⟨p, hp, rfl⟩ := List.mem_map.mp hpieces
      rw [hpiece p hp] at hr
      simpa using hold _ (List.mem_map_of_mem hp) r hr
  | inr hstub =>
      obtain ⟨s, hs, rfl⟩ := List.mem_map.mp hstub
      rw [(h.stub s (Option.mem_toList.mp hs)).1.contents_nil] at hr
      exact absurd hr List.not_mem_nil

/-- A store at work has nothing behind its last segment. -/
theorem Kept.extra_nil (h : Kept V log L stale m) (hclean : m.store.poison = none) :
    L.extra = [] := by
  rw [Layout.extra]
  cases hlast : L.last with
  | none => rfl
  | some p => rw [Option.elim_some, found_blank (h.clean hclean p hlast)]

/-- What a load adopts is what is found behind the last segment. -/
theorem Left.beyond_of_loadable (h : Left V log L d) (hload : L.Loadable) :
    log.beyond d = L.extra := by
  cases hstub : L.stub with
  | none => exact h.beyond_eq hstub hload.toSound
  | some s =>
      obtain ⟨z, hz, hleft⟩ := h.promote hstub (hload.stamped s hstub)
      have hsound := (h.loadable_promote hstub (hload.stamped s hstub) hz).mpr hload
      rw [hleft.beyond_eq rfl hsound, h.extra_of_stub hstub, Layout.extra, Option.elim_some,
        found_blank hz]

theorem Left.loaded_beyond (h : Left V log L d) (hok : loaded V d = .ok found) :
    Consecutive Record.version (log.base + 1) (log.append (log.beyond d)).records ∧
      ∃ header, headerOf V d = .ok header ∧ found =
        ⟨header.map Header.view, above (versionOf header) (log.append (log.beyond d)).records⟩ := by
  obtain ⟨hload, header, hheader, rfl⟩ := h.loaded_iff.mp hok
  rw [h.beyond_of_loadable hload]
  exact ⟨h.sound_run hload.toSound, header, hheader, rfl⟩

/-- A cold start finds the last checkpoint, and the records above it with those that were
found behind them. -/
theorem Rests.resumes (h : Rests H d) (hok : loaded V d = .ok found) :
    found.Resumes (H.push ((journal H).beyond d)) := by
  obtain ⟨L, hleft⟩ := h.left
  obtain ⟨hrun, header, hheader, rfl⟩ := hleft.loaded_beyond hok
  obtain rfl := h.heads header hheader
  refine ⟨?_, ?_⟩
  · rw [Ledger.push_header]
    cases H.header <;> rfl
  · refine ⟨_, ((List.take_append_drop _ _).symm.trans (congrArg _ (hrun.filter_lt _).symm)),
      fun r hr => ?_⟩
    have hbounds := (hrun.take _).bounds hr
    have hbase : (journal H).base = 0 := rfl
    rw [hbase, Nat.add_sub_cancel, List.length_take] at hbounds
    have hle : r.version ≤ versionOf (H.header.map fun v =>
        (⟨Versioned.version v, v⟩ : Header V)) := by omega
    cases hv : H.header with
    | none =>
        rw [hv] at hle
        have hzero : r.version ≤ 0 := hle
        omega
    | some v =>
        rw [hv] at hle
        exact ⟨v, by rw [Ledger.push_header, hv], hle⟩

/-- The history of a directory, with what is found behind it. -/
def extended (H : Ledger V) (d : Dir) : Ledger V := H.push ((journal H).beyond d)

/-- What a load does to the history: it goes on with what it finds, or finds it so
again. -/
def Reloaded (H : Ledger V) (d : Dir) : Exit Err (Recovered V) → Machine → Prop
  | .ok found, m' => found.Resumes (extended H d) ∧ Rests (extended H d) m'.dir ∧
      (journal (extended H d)).beyond m'.dir = [] ∧
        ((extended H d).taken.length < versionMax → Serves (extended H d) m')
  | _, m' => Rests H m'.dir ∧ (journal H).beyond m'.dir = (journal H).beyond d

theorem recordsOf_trimmed {files files' : List File} (h : List.Forall₂ Trimmed files files') :
    recordsOf files' = recordsOf files := by
  induction h with
  | nil => rfl
  | cons hf _ ih => rw [recordsOf_cons, recordsOf_cons, contents_trimmed hf, ih]

theorem Rests.ends_load (h : Rests H m.dir)
    (hroom : segPrologue + recPrefix ≤ m.store.rotateBytes) :
    Ends (load V env) (Reloaded H m.dir) m := by
  obtain ⟨L, hleft⟩ := h.left
  refine ((hleft.ends_load hroom).and (Wal.ends_load V)).mono ?_
  rintro x m' ⟨⟨hkept, hstopped⟩, hloading⟩
  have hheads := h.heads.congr hloading.becomes.2.1
  have hagain : (∀ found, x ≠ .ok found) →
      Rests H m'.dir ∧ (journal H).beyond m'.dir = (journal H).beyond m.dir := by
    intro hx
    refine ⟨⟨(hstopped hx).1, hheads, h.covers⟩, ?_⟩
    rw [Journal.beyond, recordsOf_trimmed hloading.trimmed, Journal.beyond]
  cases x with
  | error e => exact hagain fun _ hok => by cases hok
  | died => exact hagain fun _ hok => by cases hok
  | ok found =>
      obtain ⟨L', hkept⟩ := hkept found rfl
      obtain ⟨header, z, capacity, -, -, -, hstore⟩ := hloading.through found rfl
      have hclean : m'.store.poison = none := by rw [hstore]
      exact ⟨h.resumes hloading.follows, ⟨⟨L', hkept.toLeft⟩, hheads, h.push_taken⟩,
        hkept.toLeft.beyond_nil (hkept.extra_nil hclean),
        fun hlow => ⟨⟨L', 0, hkept⟩, hclean, hheads, h.push_taken, hlow⟩⟩

/-- Nothing is found behind the records of a store at work. -/
theorem Serves.beyond_eq (h : Serves H m) : (journal H).beyond m.dir = [] := by
  obtain ⟨L, stale, hkept⟩ := h.kept
  exact hkept.toLeft.beyond_nil (hkept.extra_nil h.clean)

end Load

end

end Lug.Wal
