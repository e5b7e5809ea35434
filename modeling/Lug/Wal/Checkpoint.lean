import Lug.Wal.Append

/-!
`write_header` and `reclaim`: the new header stands over all of the log before any
segment goes, and what goes is covered by it.
-/

namespace Lug.Wal

open Octets Faulty Runs

variable [Crc32] {V : Type} [Versioned V] [HeaderSerde V] {log : Journal} {L : Layout} {stale : ℕ}
  {env : Env} {m : Machine} {p : Piece} {d : Dir}

/-- A header is read back, unless its text is too long for the frame. -/
theorem parseHeader_headerBytes [LawfulHeaderSerde V] {h : Header V} {json : Bytes}
    (hjson : HeaderSerde.toVec h = .ok json) (hversion : h.version = Versioned.version h.view) :
    if json.length < 2 ^ 32 then parseHeader (headerBytes json) = .ok h
    else ∃ e, (parseHeader (headerBytes json) : Except Err (Header V)) = .error e := by
  have hmagic : (headerBytes json).take 8 = hdrMagic := by
    rw [headerBytes, List.append_assoc, List.append_assoc]
    exact List.take_left' (show hdrMagic.length = 8 from rfl)
  have hframe : (hdrMagic ++ le 4 (Crc32.hash json).toNat).length = 12 := by
    rw [List.length_append, length_le]
    rfl
  have hhead : (hdrMagic ++ le 4 (Crc32.hash json).toNat ++ le 4 json.length).length = 16 := by
    rw [List.length_append, hframe, length_le]
  have hcrc : ((headerBytes json).drop 8).take 4 = le 4 (Crc32.hash json).toNat := by
    rw [headerBytes, List.append_assoc, List.append_assoc]
    show (((hdrMagic ++ _ : Bytes)).drop hdrMagic.length).take 4 = _
    rw [List.drop_left, List.take_left' (length_le 4 _)]
  have hlen : ((headerBytes json).drop 12).take 4 = le 4 json.length := by
    rw [headerBytes, List.append_assoc, ← hframe, List.drop_left, List.take_left' (length_le 4 _)]
  have htext : (headerBytes json).drop 16 = json := by
    rw [headerBytes, ← hhead, List.drop_left]
  have hlength : (headerBytes json).length = 16 + json.length := by
    rw [headerBytes, List.length_append, hhead]
  have hsum : ofLe (le 4 (Crc32.hash json).toNat) = (Crc32.hash json).toNat :=
    ofLe_le_of_lt (UInt32.toNat_lt _)
  by_cases hshort : json.length < 2 ^ 32
  · have hsize : ofLe (le 4 json.length) = json.length := ofLe_le_of_lt hshort
    rw [if_pos hshort, parseHeader, if_neg (by omega), if_neg (not_not.mpr hmagic)]
    dsimp only
    rw [hcrc, hlen, htext, hsum, hsize, if_neg (by omega), List.take_length,
      if_neg (not_not.mpr rfl), LawfulHeaderSerde.fromSlice_toVec hjson]
    exact if_neg (not_not.mpr hversion)
  · have hsize : ofLe (le 4 json.length) < json.length := by
      have hlt := ofLe_lt (le 4 json.length)
      rw [length_le] at hlt
      omega
    obtain ⟨e, he⟩ := LawfulHeaderSerde.fromSlice_take hjson hsize
    rw [if_neg hshort, parseHeader, if_neg (by omega), if_neg (not_not.mpr hmagic)]
    dsimp only
    rw [hcrc, hlen, htext, if_neg (by omega), he]
    split_ifs
    · exact ⟨_, rfl⟩
    · exact ⟨_, rfl⟩

/-- The header file is one of this view, or cannot be read. -/
theorem headerOf_headerBytes [LawfulHeaderSerde V] {view : V} {json : Bytes}
    (hjson : HeaderSerde.toVec (⟨Versioned.version view, view⟩ : Header V) = .ok json)
    (hheader : d.header = some (headerBytes json)) :
    if json.length < 2 ^ 32 then headerOf V d = .ok (some ⟨Versioned.version view, view⟩)
    else ∃ e, headerOf V d = .error e := by
  have hparse := parseHeader_headerBytes hjson rfl
  rw [headerOf, hheader]
  split_ifs at hparse ⊢ with hshort
  · dsimp only
    rw [hparse]
    rfl
  · obtain ⟨e, he⟩ := hparse
    dsimp only
    rw [he]
    exact ⟨e, rfl⟩

/-- Another header over the same segments. -/
theorem Left.publish (h : Left V log L d) {d' : Dir} (hsegments : d'.segments = d.segments)
    (hheader : ∀ g, headerOf V d' = .ok g → versionOf g = log.tip) : Left V log L d' := by
  refine ⟨h.numbered, h.fits, hsegments.trans h.files, h.spaced, h.taken, h.closed, h.last, h.empty,
    h.stub, ?_, ?_, ?_⟩
  · intro g hg
    rw [hheader g hg]
    exact ⟨Journal.base_le_tip, le_rfl⟩
  · intro s hs g hg
    have hnext := h.next_le (List.mem_of_mem_head? hs)
    rw [Span.next, Journal.next] at hnext
    rw [hheader g hg]
    omega
  · intro p hp _
    exact .inr fun g hg => (hheader g hg).ge

theorem Kept.publish (h : Kept V log L stale m) {d' : Dir} (hsegments : d'.segments = m.dir.segments)
    (hheader : ∀ g, headerOf V d' = .ok g → versionOf g = log.tip) :
    Kept V log L stale { m with dir := d' } := by
  refine ⟨h.toLeft.publish hsegments hheader, h.stale_le, h.segments, h.clean, h.active, h.linked,
    h.covered, ?_, h.recovered, h.room⟩
  intro g hg
  rw [hheader g hg]
  exact h.covered.2

/-- The temporary file is nobody's concern. -/
theorem Kept.scratch (h : Kept V log L stale m) {d' : Dir} (hsegments : d'.segments = m.dir.segments)
    (hheader : d'.header = m.dir.header) : Kept V log L stale { m with dir := d' } := by
  have hsame := headerOf_congr (V := V) hheader
  refine ⟨⟨h.numbered, h.fits, hsegments.trans h.files, h.spaced, h.taken, h.closed, h.last, h.empty,
    h.stub, ?_, ?_, ?_⟩, h.stale_le, h.segments, h.clean, h.active, h.linked, h.covered, ?_,
    h.recovered, h.room⟩
  · rw [hsame]
    exact h.header
  · rw [hsame]
    exact h.reach
  · rw [hsame]
    exact h.continues
  · rw [hsame]
    exact h.known

/-! ### Reclaiming -/

/-- The layout without the closed segments from `stale` on that come before `kept`
more. -/
def Layout.reclaimed (stale gone : ℕ) (L : Layout) : Layout :=
  { L with closed := L.closed.take stale ++ L.closed.drop (stale + gone) }

/-- The first segment of the store is its no more. -/
theorem Kept.pop (h : Kept V log L stale m) {s t : Segment} {rest : List Segment}
    (hsegments : m.store.segments = s :: t :: rest) :
    Kept V log L (stale + 1) { m with store := { m.store with segments := t :: rest } } := by
  have hdrop : (L.spans.drop (stale + 1)).map Span.segment = t :: rest := by
    rw [← List.tail_drop, List.map_tail, ← h.segments, hsegments]
    rfl
  have hroom : stale + 1 ≤ L.closed.length := by
    have hlength := congrArg List.length h.segments
    rw [hsegments, List.length_map, List.length_drop, List.length_cons, List.length_cons,
      Layout.spans, Layout.pieces, List.length_map, List.length_append] at hlength
    have hone : L.last.toList.length ≤ 1 := by cases L.last <;> simp
    omega
  refine ⟨h.toLeft, hroom, hdrop.symm, h.clean, h.active, ?_, h.covered, h.known, h.recovered, h.room⟩
  obtain ⟨n, hlinked⟩ := h.linked
  rw [← List.drop_drop]
  exact hlinked.drop 1

/-- The file of the segment that is the store's no more goes. -/
theorem Kept.unlink {pre post : List Piece} (h : Kept V log L (pre.length + 1) m)
    (hclosed : L.closed = pre ++ p :: post)
    (hnext : ∀ s, (L.spans.drop (pre.length + 1)).head? = some s →
      s.first ≤ m.store.headerVersion + 1) :
    Kept V log { L with closed := pre ++ post } pre.length
      { m with dir := m.dir.unlink p.first } := by
  have hlast : ∃ q, L.last = some q := by
    cases hlast : L.last with
    | some q => exact ⟨q, rfl⟩
    | none =>
        have hnil := (h.empty hlast).1
        rw [hclosed] at hnil
        simp at hnil
  obtain ⟨q, hlast⟩ := hlast
  have hspans : L.spans = pre.map Piece.toSpan ++ p.toSpan :: (post.map Piece.toSpan ++ [q.toSpan]) := by
    rw [Layout.spans_of_last hlast, hclosed]
    simp
  have hspans' : Layout.spans { L with closed := pre ++ post } =
      pre.map Piece.toSpan ++ (post.map Piece.toSpan ++ [q.toSpan]) := by
    rw [Layout.spans_of_last (show Layout.last { L with closed := pre ++ post } = some q from hlast)]
    simp
  have hdrop : L.spans.drop (pre.length + 1) = post.map Piece.toSpan ++ [q.toSpan] := by
    rw [hspans, ← List.length_map (f := Piece.toSpan), ← List.drop_drop, List.drop_left]
    rfl
  have hdrop' : (Layout.spans { L with closed := pre ++ post }).drop pre.length =
      post.map Piece.toSpan ++ [q.toSpan] := by
    rw [hspans', ← List.length_map (f := Piece.toSpan), List.drop_left]
  have hsub : (Layout.spans { L with closed := pre ++ post }).Sublist L.spans := by
    rw [hspans, hspans']
    exact (List.sublist_cons_self _ _).append_left _
  have hfiles : m.dir.segments = pre.map Piece.file ++ p.file ::
      (post.map Piece.file ++ [q.file] ++ L.stub.toList.map Stub.file) := by
    rw [h.files, Layout.files, Layout.pieces, hclosed, hlast]
    simp
  have hgone := Dir.segments_unlink hfiles
  have hheader : headerOf V (m.dir.unlink p.first) = headerOf V m.dir := headerOf_congr rfl
  rw [hdrop] at hnext
  refine ⟨⟨h.numbered, h.fits, ?_, h.spaced.sublist hsub, fun s hs => h.taken s (hsub.subset hs), ?_,
    h.last, ?_, h.stub, h.header, ?_, ?_⟩, ?_, ?_, h.clean, h.active, ?_, h.covered, h.known,
    h.recovered, h.room⟩
  · rw [show (m.dir.unlink p.first).segments = _ from hgone, Layout.files, Layout.pieces]
    simp [hlast]
  · intro c hc
    refine h.closed c ?_
    rw [hclosed]
    exact (List.sublist_cons_self p post).append_left pre |>.subset hc
  · intro hnone
    rw [show L.last = none from hnone] at hlast
    cases hlast
  · intro s hs g hg
    rw [hspans'] at hs
    cases pre with
    | nil =>
        have hfirst := hnext s hs
        have hknown := h.known g hg
        omega
    | cons c pre =>
        refine h.reach s ?_ g hg
        rw [hspans]
        exact hs
  · intro p' hp' hrecords
    cases h.continues p' hp' hrecords with
    | inr hcover => exact .inr hcover
    | inl hdue =>
        cases hpost : post.getLast? with
        | some c =>
            left
            intro c' hc'
            refine hdue c' ?_
            rw [show Layout.closed { L with closed := pre ++ post } = pre ++ post from rfl,
              List.getLast?_append, hpost] at hc'
            rw [hclosed, List.getLast?_append, List.getLast?_cons, hpost]
            exact hc'
        | none =>
            -- the last segment starts no later than where the header reaches
            right
            intro g hg
            have hfirst := hnext q.toSpan (by rw [List.getLast?_eq_none_iff.mp hpost]; rfl)
            have hknown := h.known g hg
            rw [hlast] at hp'
            cases hp'
            have hend := (h.last q hlast).1
            rw [Span.next, hrecords, Journal.next] at hend
            simp only [List.length_nil] at hend
            omega
  · rw [List.length_append]
    exact Nat.le_add_right ..
  · rw [hdrop', h.segments, hdrop]
  · rw [hdrop', ← hdrop]
    exact h.linked

omit [Crc32] in
theorem Layout.reclaimed_zero (stale : ℕ) (L : Layout) : L.reclaimed stale 0 = L := by
  rw [Layout.reclaimed, Nat.add_zero, List.take_append_drop]

omit [Crc32] in
theorem Layout.reclaimed_succ {pre post : List Piece} (hclosed : L.closed = pre ++ p :: post)
    (gone : ℕ) : Layout.reclaimed pre.length gone { L with closed := pre ++ post } =
      L.reclaimed pre.length (gone + 1) := by
  have hdrop : (pre ++ post).drop (pre.length + gone) = L.closed.drop (pre.length + (gone + 1)) := by
    rw [hclosed, ← List.drop_drop, List.drop_left, ← List.drop_drop, List.drop_left, List.drop_succ_cons]
  have htake : (pre ++ post).take pre.length = L.closed.take pre.length := by
    rw [hclosed, List.take_left, List.take_left]
  rw [Layout.reclaimed, Layout.reclaimed]
  show Layout.mk ((pre ++ post).take pre.length ++ (pre ++ post).drop (pre.length + gone)) _ _ = _
  rw [hdrop, htake]

/-- What the loop of `reclaim` leaves, `gone` segments later. The store forgets one more
where a removal fails. -/
structure Reclaimed (V : Type) [Versioned V] [HeaderSerde V] (env : Env) (log : Journal)
    (L : Layout) (stale : ℕ) (m : Machine) (removed : Bool) (gone stale' : ℕ) (x : Exit Err Bool)
    (m' : Machine) : Prop where
  kept : Kept V log (L.reclaimed stale gone) stale' m'
  stale : stale' = stale ∨ stale' = stale + 1 ∧ ∀ b, x ≠ .ok b
  header : m'.dir.header = m.dir.header
  store : m'.store = { m.store with segments := m'.store.segments }
  ends : (x = .ok (removed || decide (0 < gone)) ∧
      ∀ s t rest, m'.store.segments = s :: t :: rest → m.store.headerVersion + 1 < t.first) ∨
    (∀ b, x ≠ .ok b) ∧ ∃ first, env.reply (.unlink first) ≠ .ok

theorem Kept.reclaimed_none (h : Kept V log L stale m) (removed : Bool)
    (hend : ∀ s t rest, m.store.segments = s :: t :: rest → m.store.headerVersion + 1 < t.first) :
    ∃ gone stale', Reclaimed V env log L stale m removed gone stale' (.ok removed) m := by
  refine ⟨0, stale, ?_, .inl rfl, rfl, rfl, .inl ⟨by simp, hend⟩⟩
  rw [Layout.reclaimed_zero]
  exact h

theorem ends_reclaimLoop {segments : List Segment} (h : Kept V log L stale m)
    (hsegments : m.store.segments = segments) (removed : Bool) :
    Ends (reclaimLoop env m.store.headerVersion segments removed) (fun x m' => ∃ gone stale',
      Reclaimed V env log L stale m removed gone stale' x m') m := by
  induction segments generalizing m L removed with
  | nil => exact h.reclaimed_none removed fun s t rest hcons => by rw [hsegments] at hcons; cases hcons
  | cons s tail ih =>
      cases tail with
      | nil =>
          exact h.reclaimed_none removed fun s t rest hcons => by rw [hsegments] at hcons; cases hcons
      | cons t rest =>
          rw [reclaimLoop]
          by_cases hcovered : t.first ≤ m.store.headerVersion + 1
          case neg =>
            rw [if_neg hcovered]
            refine h.reclaimed_none removed fun s' t' rest' hcons => ?_
            rw [hsegments] at hcons
            cases hcons
            exact not_le.mp hcovered
          case pos =>
            rw [if_pos hcovered, ends_bind, ends_upd, after_ok, ends_bind]
            have hpop := h.pop hsegments
            have hstale := hpop.stale_le
            -- the segment that goes is the first closed one of the store
            obtain ⟨pre, p, post, hclosed, hlength⟩ : ∃ pre p post, L.closed = pre ++ p :: post ∧
                pre.length = stale := by
              refine ⟨L.closed.take stale, L.closed[stale], L.closed.drop (stale + 1), ?_, ?_⟩
              · rw [List.cons_getElem_drop_succ, List.take_append_drop]
              · rw [List.length_take]
                omega
            subst hlength
            have hlive := h.segments
            have hspans : ∃ behind, L.spans = pre.map Piece.toSpan ++ p.toSpan :: behind := by
              rw [Layout.spans, Layout.pieces, hclosed]
              exact ⟨post.map Piece.toSpan ++ L.last.toList.map Piece.toSpan, by simp⟩
            obtain ⟨behind, hspans⟩ := hspans
            rw [hsegments, hspans, ← List.length_map (f := Piece.toSpan), List.drop_left,
              List.map_cons] at hlive
            obtain ⟨hs, hrest⟩ := List.cons.inj hlive
            have hname : s.first = p.first := congrArg Segment.first hs
            have hnext : ∀ u, (L.spans.drop (pre.length + 1)).head? = some u →
                u.first ≤ m.store.headerVersion + 1 := by
              intro u hu
              rw [hspans, ← List.length_map (f := Piece.toSpan), ← List.drop_drop,
                List.drop_left] at hu
              have hfirst := congrArg List.head? hrest
              rw [List.head?_map, show behind.head? = some u from hu] at hfirst
              rw [Option.some.inj hfirst] at hcovered
              exact hcovered
            have hstopped : ∀ x : Exit Err Bool, (∀ b, x ≠ .ok b) →
                env.reply (.unlink s.first) ≠ .ok → ∃ gone stale',
                  Reclaimed V env log L pre.length m removed gone stale' x
                    ⟨{ m.store with segments := t :: rest }, m.dir⟩ := by
              intro x hx hreply
              refine ⟨0, pre.length + 1, ?_, .inr ⟨rfl, hx⟩, rfl, rfl, .inr ⟨hx, _, hreply⟩⟩
              rw [Layout.reclaimed_zero]
              exact hpop
            refine ends_sys_call (fun hok => ?_) (fun hfail => ?_) (fun hdie => ?_)
            · rw [after_ok]
              have hunlink := hpop.unlink hclosed hnext
              rw [← hname] at hunlink
              refine (ih hunlink rfl true).mono ?_
              rintro x m' ⟨gone, stale', hreclaimed⟩
              refine ⟨gone + 1, stale', ?_, hreclaimed.stale, hreclaimed.header, hreclaimed.store, ?_⟩
              · rw [← Layout.reclaimed_succ hclosed]
                exact hreclaimed.kept
              · refine hreclaimed.ends.imp_left fun h => ⟨?_, h.2⟩
                rw [h.1]
                simp
            · exact hstopped _ (fun _ h => by cases h) (by rw [hfail]; decide)
            · exact hstopped _ (fun _ h => by cases h) (by rw [hdie]; decide)

/-- All calls up to the rename get through. -/
structure Env.Renames (env : Env) : Prop where
  flush : env.reply .flush = .ok
  tmpCreate : env.reply .tmpCreate = .ok
  tmpWrite : env.written .tmpWrite = []
  tmpSync : env.reply .tmpSync = .ok
  rename : env.reply .rename = .ok

/-- All calls that put a new header in place get through. -/
structure Env.Publishes (env : Env) : Prop where
  flush : env.reply .flush = .ok
  tmpCreate : env.reply .tmpCreate = .ok
  tmpWrite : env.written .tmpWrite = []
  tmpSync : env.reply .tmpSync = .ok
  rename : env.reply .rename = .ok
  publishSync : env.reply .publishSync = .ok

omit [Crc32] in
theorem Env.Publishes.renames (h : env.Publishes) : env.Renames :=
  ⟨h.flush, h.tmpCreate, h.tmpWrite, h.tmpSync, h.rename⟩

/-- All that `write_header` can do, of a view at the last version. -/
inductive Checkpointing (V : Type) [Versioned V] [HeaderSerde V] (env : Env) (log : Journal)
    (L : Layout) (stale : ℕ) (m : Machine) (view : V) : Exit Err Unit → Machine → Prop
  | unpublished (x : Exit Err Unit) (m' : Machine) : x ≠ .ok () →
      (∀ json, HeaderSerde.toVec (⟨Versioned.version view, view⟩ : Header V) = .ok json →
        ¬env.Publishes) →
        Kept V log L stale m' → m'.store = m.store → m'.dir.segments = m.dir.segments →
          m'.dir.header = m.dir.header → Checkpointing V env log L stale m view x m'
  | published (json : Bytes) (x : Exit Err Unit) (m' : Machine) : x ≠ .ok () → ¬env.Publishes →
      HeaderSerde.toVec (⟨Versioned.version view, view⟩ : Header V) = .ok json →
        Kept V log L stale m' → m'.store = m.store → m'.dir.segments = m.dir.segments →
          m'.dir.header = some (headerBytes json) → Checkpointing V env log L stale m view x m'
  | taken (json : Bytes) (gone stale' : ℕ) (x : Exit Err Unit) (m' : Machine) :
      HeaderSerde.toVec (⟨Versioned.version view, view⟩ : Header V) = .ok json →
        Kept V log (L.reclaimed stale gone) stale' m' → stale' = stale ∨ stale' = stale + 1 →
          m'.store = { m.store with
            segments := m'.store.segments
            headerVersion := Versioned.version view } →
            m'.dir.header = some (headerBytes json) →
              (stale' = stale ∧ L.closed.length ≤ stale + gone ∧
                  (x = .ok () ↔ gone = 0 ∨ env.reply .reclaimSync = .ok) ∨
                x ≠ .ok () ∧ ∃ first, env.reply (.unlink first) ≠ .ok) →
                Checkpointing V env log L stale m view x m'

/-- The store takes note of the header it wrote. -/
theorem Kept.take_header (h : Kept V log L stale m)
    (hheader : ∀ g, headerOf V m.dir = .ok g → versionOf g = log.tip) :
    Kept V log L stale { m with store := { m.store with headerVersion := log.tip } } :=
  ⟨h.toLeft, h.stale_le, h.segments, h.clean, h.active, h.linked, ⟨Journal.base_le_tip, le_rfl⟩,
    fun g hg => (hheader g hg).ge, h.recovered, h.room⟩

/-- `reclaim` under a header that covers the log: only the last segment stays, or a
removal fails. -/
theorem ends_reclaim (h : Kept V log L stale m) (hcovers : m.store.headerVersion = log.tip) :
    Ends (reclaim env) (fun x m' => ∃ gone stale', Kept V log (L.reclaimed stale gone) stale' m' ∧
      (stale' = stale ∨ stale' = stale + 1) ∧ m'.dir.header = m.dir.header ∧
        m'.store = { m.store with segments := m'.store.segments } ∧
          (stale' = stale ∧ L.closed.length ≤ stale + gone ∧
              (x = .ok () ↔ gone = 0 ∨ env.reply .reclaimSync = .ok) ∨
            x ≠ .ok () ∧ ∃ first, env.reply (.unlink first) ≠ .ok)) m := by
  rw [reclaim, ends_bind, ends_get, after_ok, ends_bind]
  refine (ends_reclaimLoop h rfl false).mono ?_
  rintro x m₁ ⟨gone, stale', hreclaimed⟩
  have hstale : stale' = stale ∨ stale' = stale + 1 := hreclaimed.stale.imp_right And.left
  cases hreclaimed.ends with
  | inr hfail =>
      obtain ⟨hx, hreply⟩ := hfail
      cases x with
      | ok b => exact absurd rfl (hx b)
      | error e =>
          exact ⟨gone, stale', hreclaimed.kept, hstale, hreclaimed.header, hreclaimed.store,
            .inr ⟨(fun h => by cases h), hreply⟩⟩
      | died =>
          exact ⟨gone, stale', hreclaimed.kept, hstale, hreclaimed.header, hreclaimed.store,
            .inr ⟨(fun h => by cases h), hreply⟩⟩
  | inl hok =>
      obtain ⟨rfl, hend⟩ := hok
      have hsame : stale' = stale := by
        refine hreclaimed.stale.resolve_right ?_
        rintro ⟨-, hne⟩
        exact hne _ rfl
      have hkept := hreclaimed.kept
      -- every segment starts where the header reaches, so one is left
      have hgone : L.closed.length ≤ stale + gone := by
        by_contra hlong
        have hlast : ∃ q, L.last = some q := by
          cases hlast : L.last with
          | some q => exact ⟨q, rfl⟩
          | none =>
              rw [(h.empty hlast).1, List.length_nil] at hlong
              omega
        obtain ⟨q, hlast⟩ := hlast
        have hlive := hkept.segments
        rw [hkept.live (show (L.reclaimed stale gone).last = some q from hlast), hsame] at hlive
        have hdrop : (L.reclaimed stale gone).closed.drop stale = L.closed.drop (stale + gone) := by
          have hlength : (L.closed.take stale).length = stale := by
            have hle := h.stale_le
            rw [List.length_take]
            omega
          exact List.drop_left' hlength
        obtain ⟨c, cs, hcs⟩ : ∃ c cs, L.closed.drop (stale + gone) = c :: cs := by
          refine List.exists_cons_of_ne_nil fun hnil => ?_
          rw [List.drop_eq_nil_iff] at hnil
          exact hlong hnil
        rw [hdrop, hcs, List.map_cons, List.cons_append, List.map_cons] at hlive
        obtain ⟨t, ts, ht⟩ : ∃ t ts, cs.map Piece.toSpan ++ [q.toSpan] = t :: ts :=
          List.exists_cons_of_ne_nil (by simp)
        rw [ht, List.map_cons] at hlive
        have hpast := hend _ _ _ hlive
        have hmem : t ∈ L.spans := by
          have hin : t ∈ cs.map Piece.toSpan ++ [q.toSpan] := by
            rw [ht]
            exact List.mem_cons_self
          rw [Layout.spans_of_last hlast]
          refine List.mem_append.mpr ((List.mem_append.mp hin).imp_left fun hc => ?_)
          obtain ⟨c', hc', rfl⟩ := List.mem_map.mp hc
          refine List.mem_map_of_mem (List.mem_of_mem_drop (i := stale + gone) ?_)
          rw [hcs]
          exact List.mem_cons_of_mem _ hc'
        have hnext := h.next_le hmem
        rw [Span.next, Journal.next] at hnext
        have hfirst : m.store.headerVersion + 1 < t.first := hpast
        omega
      rw [after_ok, Bool.false_or]
      by_cases hpos : 0 < gone
      · rw [if_pos (decide_eq_true hpos)]
        refine ends_sys_call (fun hreply => ?_) (fun hreply => ?_) (fun hreply => ?_)
        · refine ⟨gone, stale', hkept, hstale, hreclaimed.header, hreclaimed.store,
            .inl ⟨hsame, hgone, ?_⟩⟩
          exact ⟨fun _ => .inr hreply, fun _ => rfl⟩
        · refine ⟨gone, stale', hkept, hstale, hreclaimed.header, hreclaimed.store,
            .inl ⟨hsame, hgone, iff_of_false (fun h => by cases h) ?_⟩⟩
          rw [hreply]
          rintro (hzero | hok)
          · omega
          · cases hok
        · refine ⟨gone, stale', hkept, hstale, hreclaimed.header, hreclaimed.store,
            .inl ⟨hsame, hgone, iff_of_false (fun h => by cases h) ?_⟩⟩
          rw [hreply]
          rintro (hzero | hok)
          · omega
          · cases hok
      · rw [if_neg (by simpa using hpos)]
        refine ⟨gone, stale', hkept, hstale, hreclaimed.header, hreclaimed.store,
          .inl ⟨hsame, hgone, ?_⟩⟩
        exact ⟨fun _ => .inl (by omega), fun _ => rfl⟩

omit [Crc32] in
theorem ends_sync : Ends (sync env) (fun x m' => m' = m ∧ (x ≠ .ok () → env.reply .flush ≠ .ok)) m := by
  rw [sync, ends_bind, ends_get, after_ok]
  cases m.store.active with
  | none => exact ⟨rfl, fun hne => absurd rfl hne⟩
  | some file =>
      cases m.store.last with
      | none => exact ⟨rfl, fun hne => absurd rfl hne⟩
      | some segment =>
          dsimp only
          refine ends_sys_call (fun _ => ⟨rfl, fun hne => absurd rfl hne⟩) (fun hfail => ?_)
            (fun hdie => ?_)
          · exact ⟨rfl, fun _ => by rw [hfail]; nofun⟩
          · exact ⟨rfl, fun _ => by rw [hdie]; nofun⟩

/-- The steps of `write_header`: up to the rename only the temporary file changes, and
up to `reclaim` only the header. -/
theorem ends_writeHeader_steps {view : V} {Q : Exit Err Unit → Machine → Prop}
    (unpublished : ∀ x d, x ≠ .ok () →
      (∀ json, HeaderSerde.toVec (⟨Versioned.version view, view⟩ : Header V) = .ok json →
        ¬env.Renames) → d.segments = m.dir.segments → d.header = m.dir.header → Q x ⟨m.store, d⟩)
    (published : ∀ json x d, x ≠ .ok () → ¬env.Publishes →
      HeaderSerde.toVec (⟨Versioned.version view, view⟩ : Header V) = .ok json →
        d.segments = m.dir.segments → d.header = some (headerBytes json) → Q x ⟨m.store, d⟩)
    (taken : ∀ json d, env.reply .publishSync = .ok →
      HeaderSerde.toVec (⟨Versioned.version view, view⟩ : Header V) = .ok json →
        d.segments = m.dir.segments → d.header = some (headerBytes json) →
          Ends (reclaim env) Q ⟨{ m.store with headerVersion := Versioned.version view }, d⟩) :
    Ends (writeHeader env view) Q m := by
  rw [writeHeader, ends_bind]
  refine ends_sync.mono ?_
  rintro x m₁ ⟨rfl, hflush⟩
  have hunflushed : ∀ x : Exit Err Unit, x ≠ .ok () → env.reply .flush ≠ .ok → Q x m₁ :=
    fun x hx hreply =>
      unpublished x m₁.dir hx (fun _ _ hrenames => hreply hrenames.flush) rfl rfl
  cases x with
  | error e => exact hunflushed _ (fun h => by cases h) (hflush (fun h => by cases h))
  | died => exact hunflushed _ (fun h => by cases h) (hflush (fun h => by cases h))
  | ok u =>
      rw [after_ok]
      dsimp only
      rw [ends_bind]
      cases hjson : HeaderSerde.toVec (⟨Versioned.version view, view⟩ : Header V) with
      | error e =>
          exact unpublished _ m₁.dir (fun h => by cases h)
            (fun json hok => by rw [hjson] at hok; cases hok) rfl rfl
      | ok json =>
          rw [Except.mapError, ends_lift_ok, after_ok, ends_bind]
          have hunpublished : ∀ (x : Exit Err Unit) (d : Dir), x ≠ .ok () → ¬env.Renames →
              d.segments = m₁.dir.segments → d.header = m₁.dir.header → Q x ⟨m₁.store, d⟩ :=
            fun x d hx hrenames => unpublished x d hx (fun _ _ => hrenames)
          refine ends_sys_call (fun _ => ?_) (fun hfail => ?_) (fun hdie => ?_)
          case refine_2 =>
            exact hunpublished _ m₁.dir (fun h => by cases h)
              (fun hp => by rw [hp.tmpCreate] at hfail; cases hfail) rfl rfl
          case refine_3 =>
            exact hunpublished _ m₁.dir (fun h => by cases h)
              (fun hp => by rw [hp.tmpCreate] at hdie; cases hdie) rfl rfl
          rw [after_ok, ends_bind]
          have hnonempty : headerBytes json ≠ [] := by
            rw [headerBytes, hdrMagic]
            simp
          refine ends_sys.mpr (ends_pwritevAll_single hnonempty (fun _ _ => Nat.zero_le _)
            fun x hall hfail => ?_)
          have hedit : ∀ data : Bytes, (m₁.dir.put .headerTmp []).edit .headerTmp
              (overwrite 0 data) = m₁.dir.put .headerTmp data := by
            intro data
            have hbytes : (m₁.dir.put .headerTmp []).bytes .headerTmp = some [] := rfl
            rw [Dir.edit_of_bytes _ hbytes, Dir.put_put, overwrite_zero]
            simp
          rw [hedit]
          have hwritten : x ≠ .ok () → ¬env.Renames := by
            intro hx hp
            refine hx (hall.mpr ?_)
            rw [hp.tmpWrite]
            rfl
          cases x with
          | error u =>
              exact hunpublished _ _ (fun h => by cases h) (hwritten fun h => by cases h) rfl rfl
          | died =>
              exact hunpublished _ _ (fun h => by cases h) (hwritten fun h => by cases h) rfl rfl
          | ok u =>
              rw [hall.mp rfl, List.take_length, Exit.mapError, after_ok, ends_bind]
              refine ends_sys_call (fun _ => ?_) (fun hfail => ?_) (fun hdie => ?_)
              case refine_2 =>
                exact hunpublished _ _ (fun h => by cases h)
                  (fun hp => by rw [hp.tmpSync] at hfail; cases hfail) rfl rfl
              case refine_3 =>
                exact hunpublished _ _ (fun h => by cases h)
                  (fun hp => by rw [hp.tmpSync] at hdie; cases hdie) rfl rfl
              rw [after_ok, ends_bind]
              refine ends_sys_call (fun _ => ?_) (fun hfail => ?_) (fun hdie => ?_)
              case refine_2 =>
                exact hunpublished _ _ (fun h => by cases h)
                  (fun hp => by rw [hp.rename] at hfail; cases hfail) rfl rfl
              case refine_3 =>
                exact hunpublished _ _ (fun h => by cases h)
                  (fun hp => by rw [hp.rename] at hdie; cases hdie) rfl rfl
              have hpublished : ∀ x : Exit Err Unit, x ≠ .ok () → ¬env.Publishes →
                  Q x ⟨m₁.store, (m₁.dir.put .headerTmp (headerBytes json)).publish⟩ :=
                fun x hx hpublishes => published json x _ hx hpublishes hjson rfl rfl
              rw [after_ok, ends_bind]
              refine ends_sys_call (fun hsynced => ?_) (fun hfail => ?_) (fun hdie => ?_)
              case refine_2 =>
                exact hpublished _ (fun h => by cases h)
                  (fun hp => by rw [hp.publishSync] at hfail; cases hfail)
              case refine_3 =>
                exact hpublished _ (fun h => by cases h)
                  (fun hp => by rw [hp.publishSync] at hdie; cases hdie)
              rw [after_ok, ends_bind, ends_upd, after_ok]
              exact taken json _ hsynced hjson rfl rfl

/-- The header of a view that was written has the version of the view, if it can be
read. -/
theorem versionOf_headerBytes [LawfulHeaderSerde V] {view : V} {json : Bytes}
    (hjson : HeaderSerde.toVec (⟨Versioned.version view, view⟩ : Header V) = .ok json)
    (hheader : d.header = some (headerBytes json)) {g : Option (Header V)}
    (hg : headerOf V d = .ok g) : versionOf g = Versioned.version view := by
  have hread := headerOf_headerBytes hjson hheader
  split_ifs at hread with hshort
  · rw [hread] at hg
    cases hg
    rfl
  · obtain ⟨e, he⟩ := hread
    rw [he] at hg
    cases hg

theorem ends_writeHeader [LawfulHeaderSerde V] (h : Kept V log L stale m) {view : V}
    (hview : Versioned.version view = log.tip) :
    Ends (writeHeader env view) (Checkpointing V env log L stale m view) m := by
  refine ends_writeHeader_steps (fun x d hx hrenames hsegments hheader => ?_)
    (fun json x d hx hpublishes hjson hsegments hheader => ?_)
    (fun json d _ hjson hsegments hheader => ?_)
  · exact .unpublished x _ hx (fun json hjson hp => hrenames json hjson hp.renames) (h.scratch hsegments hheader) rfl hsegments hheader
  · have hkept := h.publish hsegments fun g hg =>
      (versionOf_headerBytes hjson hheader hg).trans hview
    exact .published json x _ hx hpublishes hjson hkept rfl hsegments hheader
  · have hread : ∀ g, headerOf V d = .ok g → versionOf g = log.tip := fun g hg =>
      (versionOf_headerBytes hjson hheader hg).trans hview
    rw [hview]
    refine (ends_reclaim ((h.publish hsegments hread).take_header hread) rfl).mono ?_
    rintro x m' ⟨gone, stale', hkept, hstale, hsame, hstore, hends⟩
    exact .taken json gone stale' x m' hjson hkept hstale (by rw [hstore, hview])
      (hsame.trans hheader) hends

end Lug.Wal
