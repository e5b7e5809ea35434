import Lug.Wal.Loadable
import Lug.Wal.Tail

/-!
A checkpoint that is broken off: what the next process loads. The new header stands
for the log from the moment it has its name, and a reclaim that stops anywhere leaves
segments that follow one another, unless a file was in their way that the store had
given up.
-/

namespace Lug.Wal

open Octets Faulty Runs

section

variable [Crc32] {V : Type} [Versioned V] [HeaderSerde V] {log : Journal} {L L' : Layout}
  {stale : ℕ} {env : Env} {m m' : Machine} {d d' : Dir} {view : V} {before : Recovered V}

/-! ### What a checkpoint must not do -/

/-- What is loaded after a checkpoint, against what would have been loaded before it:
the header is one of the two, and nothing above it is lost or changed. -/
structure Preserved (view : V) (before after : Recovered V) : Prop where
  header : after.header = before.header ∨ after.header = some view
  reaches : reaches after = reaches before
  tail : after.tail = above (after.header.elim 0 Versioned.version) before.tail

/-- However `write_header` is broken off, the next process loads what was there. -/
def Machine.Unbroken (m : Machine) (view : V) (before : Recovered V) : Prop :=
  ∀ env x m', writeHeader env view m = (x, m') → x ≠ .ok () →
    ∀ env₁ env₂ rotateBytes, env₁.Calm → env₂.Calm → ∃ after : Recovered V,
      (reopen V env₁ env₂ rotateBytes m').1 = .ok after ∧ Preserved view before after

/-- The header can be read back, and if there is a segment to reclaim, the directory
has none that is older than those of the store. -/
def Machine.Publishable (m : Machine) (view : V) : Prop :=
  ∀ json, HeaderSerde.toVec (⟨Versioned.version view, view⟩ : Header V) = .ok json →
    json.length < 2 ^ 32 ∧
      (m.store.segments.length ≤ 1 ∨ ∀ f ∈ m.dir.segments, m.store.oldest ≤ f.1)

/-! ### Segments the store gave up -/

namespace Kept

theorem oldest_le (h : Kept V log L 0 m) (hne : m.store.segments ≠ []) :
    ∀ f ∈ m.dir.segments, m.store.oldest ≤ f.1 := by
  have hsegments := h.segments
  rw [List.drop_zero] at hsegments
  cases hspans : L.spans with
  | nil =>
      rw [hspans] at hsegments
      exact absurd hsegments hne
  | cons s spans =>
      have holdest : m.store.oldest = s.first := by
        rw [SegmentStore.oldest, hsegments, hspans]
        rfl
      have hspaced := h.spaced
      rw [hspans, List.pairwise_cons] at hspaced
      have hlong : s.first ≤ s.next := Nat.le_add_right ..
      intro f hf
      rw [h.files, Layout.files] at hf
      rw [holdest]
      cases List.mem_append.mp hf with
      | inl hpiece =>
          obtain ⟨p, hp, rfl⟩ := List.mem_map.mp hpiece
          have hmem : p.toSpan ∈ L.spans := List.mem_map_of_mem hp
          rw [hspans] at hmem
          cases List.mem_cons.mp hmem with
          | inl hsame => exact (congrArg Span.first hsame).ge
          | inr hlater => exact hlong.trans (hspaced.1 _ hlater)
      | inr hstub =>
          obtain ⟨t, ht, rfl⟩ := List.mem_map.mp hstub
          have hname := (h.stub t (Option.mem_toList.mp ht)).1.first
          have hnext := h.next_le (show s ∈ L.spans by rw [hspans]; exact List.mem_cons_self)
          show s.first ≤ t.first
          omega

theorem older (h : Kept V log L stale m) (hpos : 0 < stale) (hne : m.store.segments ≠ []) :
    ∃ f ∈ m.dir.segments, f.1 < m.store.oldest := by
  have hstale := h.stale_le
  cases hclosed : L.closed with
  | nil =>
      rw [hclosed, List.length_nil] at hstale
      omega
  | cons c closed =>
      have hc : c ∈ L.closed := by
        rw [hclosed]
        exact List.mem_cons_self
      obtain ⟨t, ts, hlive⟩ : ∃ t ts, L.spans.drop stale = t :: ts := by
        refine List.exists_cons_of_ne_nil fun hnil => hne ?_
        rw [h.segments, hnil]
        rfl
      have holdest : m.store.oldest = t.first := by
        rw [SegmentStore.oldest, h.segments, hlive]
        rfl
      -- the first closed segment comes before all that are the store's
      obtain ⟨behind, hspans⟩ : ∃ behind, L.spans = c.toSpan :: behind := by
        rw [Layout.spans, Layout.pieces, hclosed]
        exact ⟨_, rfl⟩
      have hspaced := h.spaced
      rw [hspans, List.pairwise_cons] at hspaced
      have hmem : t ∈ behind := by
        obtain ⟨k, rfl⟩ : ∃ k, stale = k + 1 := ⟨stale - 1, by omega⟩
        rw [hspans, List.drop_succ_cons] at hlive
        refine List.mem_of_mem_drop (i := k) ?_
        rw [hlive]
        exact List.mem_cons_self
      have hnext := hspaced.1 t hmem
      have hlong := List.length_pos_of_ne_nil (h.closed c hc).1
      rw [Span.next] at hnext
      refine ⟨c.file, ?_, ?_⟩
      · rw [h.files, Layout.files, Layout.pieces, hclosed]
        exact List.mem_cons_self
      · rw [holdest]
        show c.first < t.first
        omega

/-- How many segments the store has beside the last one. -/
theorem length_segments (h : Kept V log L stale m) :
    m.store.segments.length ≤ 1 ↔ L.closed.length ≤ stale := by
  rw [h.segments, List.length_map, List.length_drop, Layout.spans, Layout.pieces, List.length_map,
    List.length_append]
  cases hlast : L.last with
  | none =>
      rw [(h.empty hlast).1]
      simp
  | some p =>
      rw [Option.toList_some, List.length_singleton]
      have hstale := h.stale_le
      omega

end Kept

/-! ### What is left of a checkpoint -/

omit [Crc32] in
/-- Records above one version, of those above another. -/
theorem above_above {version version' : ℕ} (hle : version ≤ version') (records : List Record) :
    above version' (above version records) = above version' records := by
  rw [above, above, List.filter_filter, above]
  refine List.filter_congr fun r _ => ?_
  rw [← Bool.decide_and]
  exact decide_eq_decide.mpr ⟨And.left, fun h => ⟨h, hle.trans_lt h⟩⟩

/-- A directory with the same records above the header, which may be the new one. -/
theorem Left.preserved (h : Left V log L d) (hloaded : loaded V d = .ok before)
    (h' : Left V log L' d') (hload : L'.Loadable) (hextra : L'.extra = L.extra)
    (hview : Versioned.version view = log.tip)
    (hheader : headerOf V d' = headerOf V d ∨
      headerOf V d' = .ok (some ⟨Versioned.version view, view⟩)) :
    ∃ after, loaded V d' = .ok after ∧ Preserved view before after := by
  obtain ⟨-, header, hread, rfl⟩ := h.loaded_iff.mp hloaded
  obtain ⟨-, htip⟩ := h.header header hread
  obtain ⟨g, hg, hname, hle⟩ : ∃ g, headerOf V d' = .ok g ∧
      (g.map Header.view = header.map Header.view ∨ g.map Header.view = some view) ∧
        versionOf header ≤ versionOf g := by
    cases hheader with
    | inl hsame => exact ⟨header, hsame.trans hread, .inl rfl, le_rfl⟩
    | inr hnew =>
        refine ⟨_, hnew, .inr rfl, ?_⟩
        rw [← hview] at htip
        exact htip
  have hafter := h'.loaded_iff.mpr ⟨hload, g, hg, rfl⟩
  refine ⟨_, hafter, hname, ?_, ?_⟩
  · rw [h'.reaches_loaded hafter, h.reaches_loaded hloaded, hextra]
  · rw [version_headerOf hg, above_above hle, hextra]

/-- What `reclaim` leaves can be loaded when it takes segments from the front. -/
theorem Layout.Loadable.reclaimed (h : L.Loadable) {stale : ℕ}
    (hfront : stale = 0 ∨ L.closed.length ≤ stale) (gone : ℕ) :
    (L.reclaimed stale gone).Loadable := by
  cases hfront with
  | inr hlong =>
      have hsame : L.reclaimed stale gone = L := by
        rw [Layout.reclaimed, List.take_of_length_le hlong,
          List.drop_eq_nil_of_le (hlong.trans (Nat.le_add_right ..)), List.append_nil]
      rw [hsame]
      exact h
  | inl hzero =>
      obtain rfl := hzero
      have hclosed : (L.reclaimed 0 gone).closed = L.closed.drop gone := by
        rw [Layout.reclaimed, List.take_zero, List.nil_append, Nat.zero_add]
      refine ⟨⟨fun p hp => ?_, ?_, h.behind⟩, h.stamped, h.apart⟩
      · rw [hclosed] at hp
        exact h.whole p (List.mem_of_mem_drop hp)
      · -- no more than all of them go
        have hdrop : (L.reclaimed 0 gone).spans = L.spans.drop (min gone L.closed.length) := by
          have hmin : L.closed.drop gone = L.closed.drop (min gone L.closed.length) := by
            cases le_total gone L.closed.length with
            | inl hle => rw [min_eq_left hle]
            | inr hle => rw [min_eq_right hle, List.drop_length, List.drop_eq_nil_of_le hle]
          rw [Layout.spans, Layout.pieces, hclosed, hmin, Layout.spans, Layout.pieces,
            ← List.map_drop, List.drop_append_of_le_length (min_le_right ..)]
          rfl
        obtain ⟨n, hlinked⟩ := h.linked
        rw [hdrop]
        exact hlinked.drop _

/-- A segment that was given up is not followed by the last one alone. -/
theorem Kept.not_loadable_reclaimed (h : Kept V log L stale m) (hpos : 0 < stale)
    (hmore : stale < L.closed.length) {gone : ℕ} (hall : L.closed.length ≤ stale + gone) :
    ¬(L.reclaimed stale gone).Loadable := by
  intro hload
  obtain ⟨q, hlast⟩ : ∃ q, L.last = some q := by
    cases hlast : L.last with
    | some q => exact ⟨q, rfl⟩
    | none =>
        rw [(h.empty hlast).1, List.length_nil] at hmore
        omega
  -- one that was given up, and the one behind it, which went
  obtain ⟨k, rfl⟩ : ∃ k, stale = k + 1 := ⟨stale - 1, by omega⟩
  obtain ⟨pre, a, b, post, hclosed, hlength⟩ : ∃ pre a b post,
      L.closed = pre ++ a :: b :: post ∧ pre.length = k := by
    refine ⟨L.closed.take k, L.closed[k], L.closed[k + 1], L.closed.drop (k + 2), ?_, ?_⟩
    · rw [List.cons_getElem_drop_succ, List.cons_getElem_drop_succ, List.take_append_drop]
    · rw [List.length_take]
      omega
  have hkept : (L.reclaimed (k + 1) gone).closed = pre ++ [a] := by
    have htake : (pre ++ a :: b :: post).take (pre.length + 1) = pre ++ [a] := by
      rw [List.take_length_add_append]
      rfl
    rw [Layout.reclaimed, List.drop_eq_nil_of_le hall, List.append_nil, hclosed, ← hlength, htake]
  have hfirst : q.first = a.next := by
    obtain ⟨n, hlinked⟩ := hload.linked
    rw [Layout.spans_of_last (show (L.reclaimed (k + 1) gone).last = some q from hlast), hkept,
      linked_append, List.map_append, List.map_singleton, nextOf_append_singleton] at hlinked
    exact hlinked.2.1
  have hspaced := h.spaced
  rw [Layout.spans_of_last hlast, hclosed, List.map_append, List.append_assoc, List.map_cons,
    List.map_cons, List.cons_append, List.cons_append, List.pairwise_append,
    List.pairwise_cons, List.pairwise_cons] at hspaced
  obtain ⟨-, ⟨hab, hbehind, -⟩, -⟩ := hspaced
  have hnext : a.next ≤ b.first := hab b.toSpan List.mem_cons_self
  have hend : b.next ≤ q.first :=
    hbehind q.toSpan (List.mem_append_right _ (List.mem_singleton.mpr rfl))
  have hlong : 0 < b.records.length :=
    List.length_pos_of_ne_nil (h.closed b (by rw [hclosed]; simp)).1
  rw [Span.next] at hend
  omega

/-! ### When a checkpoint can be broken off -/

/-- Nothing fails but one call. -/
def Env.failing (site : Site) : Env where
  fallocate := true
  locked := false
  reply s := if s = site then .fail else .ok
  written _ := []

/-- Whatever ends a checkpoint, what it leaves is loaded. -/
theorem Kept.unbroken [LawfulHeaderSerde V] (h : Kept V log L stale m)
    (hview : Versioned.version view = log.tip) (hloaded : loaded V m.dir = .ok before)
    (hpublishable : m.Publishable view) : m.Unbroken view before := by
  rintro env x m' hwrite - env₁ env₂ rotateBytes hcalm₁ hcalm₂
  have hload := (h.toLeft.loaded_iff.mp hloaded).1
  have hwriting : Checkpointing V env log L stale m view x m' := by
    have hends : Ends (writeHeader env view) (Checkpointing V env log L stale m view) m :=
      ends_writeHeader h hview
    rw [Ends, hwrite] at hends
    exact hends
  suffices hfound : ∃ after, loaded V m'.dir = .ok after ∧ Preserved view before after by
    obtain ⟨after, hafter, hpreserved⟩ := hfound
    exact ⟨after, (reopen_ok_iff V hcalm₁ hcalm₂).mpr hafter, hpreserved⟩
  cases hwriting with
  | unpublished _ _ hx hfailed hkept hstore hsegments hheader =>
      exact h.toLeft.preserved hloaded hkept.toLeft hload rfl hview (.inl (headerOf_congr hheader))
  | published json _ _ hx hfailed hjson hkept hstore hsegments hheader =>
      have hread := headerOf_headerBytes hjson hheader
      rw [if_pos (hpublishable json hjson).1] at hread
      exact h.toLeft.preserved hloaded hkept.toLeft hload rfl hview (.inr hread)
  | taken json gone stale' _ _ hjson hkept hstale hstore hheader hends =>
      obtain ⟨hshort, hold⟩ := hpublishable json hjson
      have hread := headerOf_headerBytes hjson hheader
      rw [if_pos hshort] at hread
      have hfront : stale = 0 ∨ L.closed.length ≤ stale := by
        by_cases hmore : m.store.segments.length ≤ 1
        · exact .inr (h.length_segments.mp hmore)
        · left
          by_contra hpos
          have hsome : m.store.segments ≠ [] := by
            intro hnil
            rw [hnil] at hmore
            exact hmore (Nat.zero_le _)
          obtain ⟨f, hf, hlt⟩ := h.older (Nat.pos_of_ne_zero hpos) hsome
          have hle := hold.resolve_left hmore f hf
          omega
      exact h.toLeft.preserved hloaded hkept.toLeft (hload.reclaimed hfront gone) rfl hview
        (.inr hread)

/-- The new header has its name once the rename is through. -/
theorem ends_writeHeader_renamed {json : Bytes}
    (hjson : HeaderSerde.toVec (⟨Versioned.version view, view⟩ : Header V) = .ok json) :
    Ends (writeHeader (.failing .publishSync) view)
      (fun x m' => x ≠ .ok () ∧ m'.dir.header = some (headerBytes json)) m := by
  refine ends_writeHeader_steps (fun x d hx hrenames _ _ => ?_)
    (fun json' x d hx _ hjson' _ hheader => ?_) (fun json' d hsynced _ _ _ => ?_)
  · exact absurd ⟨rfl, rfl, rfl, rfl, rfl⟩ (hrenames json hjson)
  · rw [hjson] at hjson'
    cases hjson'
    exact ⟨hx, hheader⟩
  · exact absurd (show Reply.fail = .ok from hsynced) (by decide)

/-- A checkpoint can be broken off anywhere, if and only if its header can be read back
and no segment that was given up is in the way of those to reclaim. -/
theorem Kept.unbroken_iff [LawfulHeaderSerde V] (h : Kept V log L stale m)
    (hview : Versioned.version view = log.tip) (hloaded : loaded V m.dir = .ok before) :
    m.Unbroken view before ↔ m.Publishable view := by
  refine ⟨fun hunbroken json hjson => ⟨?_, ?_⟩, h.unbroken hview hloaded⟩
  · by_contra hlong
    have hends : Ends _ _ m := ends_writeHeader_renamed hjson
    rw [Ends] at hends
    generalize hwrite : writeHeader (.failing .publishSync) view m = ended at hends
    obtain ⟨hx, hheader⟩ := hends
    obtain ⟨after, hafter, -⟩ := hunbroken _ _ _ hwrite hx calm calm 0 calm_calm calm_calm
    rw [reopen_ok_iff V calm_calm calm_calm] at hafter
    have hread := headerOf_headerBytes hjson hheader
    rw [if_neg hlong] at hread
    obtain ⟨e, he⟩ := hread
    rw [loaded, he] at hafter
    cases hafter
  · by_contra hnot
    rw [not_or, not_le] at hnot
    obtain ⟨hmany, hold⟩ := hnot
    have hmore : stale < L.closed.length :=
      not_le.mp fun hle => absurd (h.length_segments.mpr hle) (not_le.mpr hmany)
    have hpos : 0 < stale := by
      refine Nat.pos_of_ne_zero fun hzero => hold ?_
      subst hzero
      exact h.oldest_le (List.ne_nil_of_length_pos (by omega))
    have hends : Ends (writeHeader (.failing .reclaimSync) view) _ m := ends_writeHeader h hview
    have hpublishes : (Env.failing .reclaimSync).Publishes := ⟨rfl, rfl, rfl, rfl, rfl, rfl⟩
    rw [Ends] at hends
    generalize hwrite : writeHeader (.failing .reclaimSync) view m = ended at hends
    obtain ⟨x, m'⟩ := ended
    cases hends with
    | unpublished _ _ _ hfailed => exact hfailed json hjson hpublishes
    | published _ _ _ _ hfailed => exact hfailed hpublishes
    | taken json' gone stale' _ _ _ hkept _ _ _ hends =>
        cases hends with
        | inr hunlink =>
            obtain ⟨-, first, hreply⟩ := hunlink
            exact hreply rfl
        | inl hall =>
            obtain ⟨-, hgone, hx⟩ := hall
            have hfail : x ≠ .ok () := by
              rw [Ne, hx, not_or]
              exact ⟨by omega, fun hok => absurd (show Reply.fail = .ok from hok) (by decide)⟩
            obtain ⟨after, hafter, -⟩ :=
              hunbroken _ _ _ hwrite hfail calm calm 0 calm_calm calm_calm
            rw [reopen_ok_iff V calm_calm calm_calm, hkept.toLeft.loaded_iff] at hafter
            exact h.not_loadable_reclaimed hpos hmore hgone hafter.1

/-- A checkpoint of a loaded store, of a view at the last version, can be broken off
anywhere, if and only if its header can be read back and no segment that the store has
given up comes before one to reclaim. -/
theorem Run.checkpoint_atomic_iff [LawfulHeaderSerde V] {Meets : World → Event V → Prop} {w : World}
    (h : Run Meets w) (hup : w.phase = .up) (hview : Versioned.version view = w.log.tip)
    {env₁ env₂ : Env} (hcalm₁ : env₁.Calm) (hcalm₂ : env₂.Calm) {rotateBytes : ℕ}
    (hloads : (reopen V env₁ env₂ rotateBytes w.machine).1 = .ok before) :
    w.machine.Unbroken view before ↔ w.machine.Publishable view := by
  have hgood := h.good
  rw [World.Good, hup] at hgood
  obtain ⟨L, stale, hkept⟩ := hgood
  exact hkept.unbroken_iff hview ((reopen_ok_iff V hcalm₁ hcalm₂).mp hloads)

end

section Sample

attribute [local instance] ieee

/-- The witness of `Run.checkpoint_atomic_iff`. -/
theorem written_unbroken : ∃ before : Recovered Mark,
    (reopen Mark calm calm 64 World.written.machine).1 = .ok before ∧
      (World.written.machine.Unbroken ⟨1⟩ before ↔
        World.written.machine.Publishable (⟨1⟩ : Mark)) := by
  have hok : (reopen Mark calm calm 64 World.written.machine).1.isOk = true := by decide +kernel
  obtain ⟨before, hloads⟩ := Exit.exists_of_isOk hok
  exact ⟨before, hloads, Run.checkpoint_atomic_iff run_written rfl rfl calm_calm calm_calm hloads⟩

def World.opened : World :=
  (World.initial.step calm (.opening 32 : Event Mark)).step calm (.load : Event Mark)

/-- Three segments of one record. -/
def World.grown : World :=
  ((World.opened.step calm (.append [⟨1, [7]⟩] : Event Mark)).step calm
    (.append [⟨2, [8]⟩] : Event Mark)).step calm (.append [⟨3, [9]⟩] : Event Mark)

theorem run_grown : Run (fun _ (_ : Event Mark) => True) World.grown :=
  have hopened : Run (fun _ (_ : Event Mark) => True) World.opened :=
    .step calm (.step calm (.start _) rfl trivial) (show Phase.opened ≠ .down by decide) trivial
  .step calm (.step calm (.step calm hopened (.inr (.inl rfl)) trivial) (.inr (.inl rfl)) trivial)
    (.inr (.inl rfl)) trivial

/-- A checkpoint that could not remove the first of them. -/
def World.spared : World :=
  World.grown.step (.failing (.unlink 1)) (.writeHeader ⟨3⟩ : Event Mark)

/-- The next checkpoint removes the second, and leaves the first and the third. -/
theorem spared_broken : ¬∀ (w : World) (view : Mark) (before : Recovered Mark),
    Run (fun _ (_ : Event Mark) => True) w → w.phase = .up → view.version = w.log.tip →
      (reopen Mark calm calm 32 w.machine).1 = .ok before → w.machine.Unbroken view before := by
  intro h
  have hrun : Run (fun _ (_ : Event Mark) => True) World.spared :=
    .step _ run_grown (.inl ⟨by decide +kernel, by decide +kernel⟩) trivial
  have hup : World.spared.phase = .up := by decide +kernel
  have htip : 3 = World.spared.log.tip := by decide +kernel
  have hok : (reopen Mark calm calm 32 World.spared.machine).1.isOk = true := by decide +kernel
  obtain ⟨before, hloads⟩ := Exit.exists_of_isOk hok
  have hunbroken := h World.spared ⟨3⟩ before hrun hup htip hloads
  have hfails : (writeHeader (.failing .reclaimSync) (⟨3⟩ : Mark) World.spared.machine).1.isOk =
      false := by decide +kernel
  have hlost : (reopen Mark calm calm 32
      (writeHeader (.failing .reclaimSync) (⟨3⟩ : Mark) World.spared.machine).2).1.isOk =
        false := by decide +kernel
  generalize hwrite : writeHeader (.failing .reclaimSync) (⟨3⟩ : Mark) World.spared.machine =
    ended at hfails hlost
  obtain ⟨x, m'⟩ := ended
  have hfailed : x ≠ .ok () := by
    rintro rfl
    cases hfails
  obtain ⟨after, hafter, -⟩ :=
    hunbroken _ x m' hwrite hfailed calm calm 32 calm_calm calm_calm
  have hlost : (reopen Mark calm calm 32 m').1.isOk = false := hlost
  rw [hafter] at hlost
  cases hlost

end Sample

end Lug.Wal
