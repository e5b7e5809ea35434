import Lug.Client.Follower
import Lug.Server.Delivery

/-!
What a follower publishes is a version of the log it follows, with the document of that
version, and it never goes back. Three sources move it: the preamble of a stream, the records
behind it, and views read elsewhere, which a stream may lag behind.
-/

namespace Lug.Client.Follower

open Cavlc Runs

variable [TextCodec]

namespace History

variable {h h' : History}

theorem Grows.document (hgrows : h.Grows h') {v : ℕ} {d : Json}
    (hd : h.documents[v]? = some d) : h'.documents[v]? = some d := by
  obtain ⟨later, hlater⟩ := hgrows.documents
  rw [← hlater, List.getElem?_append_left (List.getElem?_eq_some_iff.mp hd).1]
  exact hd

theorem Grows.patch (hgrows : h.Grows h') {v : ℕ} {p : Json} (hp : h.patches[v]? = some p) :
    h'.patches[v]? = some p := by
  obtain ⟨later, hlater⟩ := hgrows.patches
  rw [← hlater, List.getElem?_append_left (List.getElem?_eq_some_iff.mp hp).1]
  exact hp

theorem Grows.version_le (hgrows : h.Grows h') : h.version ≤ h'.version :=
  hgrows.patches.length_le

theorem le_version {v : ℕ} {d : Json} (hd : h.documents[v]? = some d) : v ≤ h.version := by
  have hlt := (List.getElem?_eq_some_iff.mp hd).1
  rw [h.counted] at hlt
  exact Nat.le_of_lt_succ hlt

end History

/-! ### Frames on their way -/

/-- An error frame that the server sends. -/
structure Passes (h : History) (failure : Failure) : Prop where
  range : failure.code ≠ .outOfRange
  reducible : failure.code = .notReducible → h.reducible = false

/-- The frames go on from one cursor to another, past no version in silence. -/
inductive Flows (h : History) : ℕ → List Frame → ℕ → Prop
  | nil {n : ℕ} : Flows h n [] n
  | records {n m : ℕ} {rs : List Pushed} {fs : List Frame}
      (run : Consecutive Pushed.version (n + 1) rs)
      (committed : ∀ r ∈ rs, h.patches[r.version - 1]? = some r.patch)
      (rest : Flows h (n + rs.length) fs m) : Flows h n (.records rs :: fs) m
  | gap {n to_ m : ℕ} {fs : List Frame} (above : n < to_) (reached : to_ ≤ h.version)
      (rest : Flows h to_ fs m) : Flows h n (.gap n to_ :: fs) m
  | error {n m : ℕ} {failure : Failure} {fs : List Frame} (passes : Passes h failure)
      (rest : Flows h n fs m) : Flows h n (.error failure :: fs) m

namespace Flows

variable {h h' : History} {n m k : ℕ} {fs gs : List Frame}

theorem append (hf : Flows h n fs m) (hg : Flows h m gs k) : Flows h n (fs ++ gs) k := by
  induction hf with
  | nil => exact hg
  | records run committed _ ih => exact .records run committed (ih hg)
  | gap above reached _ ih => exact .gap above reached (ih hg)
  | error passes _ ih => exact .error passes (ih hg)

theorem grow (hgrows : h.Grows h') (hf : Flows h n fs m) : Flows h' n fs m := by
  induction hf with
  | nil => exact .nil
  | records run committed _ ih =>
      exact .records run (fun r hr => hgrows.patch (committed r hr)) ih
  | gap above reached _ ih => exact .gap above (reached.trans hgrows.version_le) ih
  | error passes _ ih =>
      exact .error ⟨passes.range, fun hcode => hgrows.reducible.trans (passes.reducible hcode)⟩ ih

/-- Frames that cover the versions behind a cursor, as those of a stream task do. -/
theorem of_covers (hc : Covers n fs m) (hreached : m ≤ h.version)
    (hcommitted : ∀ frame ∈ fs, ∀ p ∈ frame.pushed,
      h.patches[p.version - 1]? = some p.patch)
    (hpasses : ∀ failure, .error failure ∈ fs → Passes h failure) : Flows h n fs m := by
  induction hc with
  | nil => exact .nil
  | records _ _ run ih =>
      rw [List.forall_mem_append] at hcommitted
      have hfirst := ih (by omega) hcommitted.1 fun f hf =>
        hpasses f (List.mem_append_left _ hf)
      exact hfirst.append (.records run (hcommitted.2 _ (List.mem_singleton.mpr rfl)) .nil)
  | gap _ above ih =>
      rw [List.forall_mem_append] at hcommitted
      have hfirst := ih (by omega) hcommitted.1 fun f hf =>
        hpasses f (List.mem_append_left _ hf)
      exact hfirst.append (.gap above hreached .nil)
  | error _ ih =>
      rw [List.forall_mem_append] at hcommitted
      have hfirst := ih hreached hcommitted.1 fun f hf => hpasses f (List.mem_append_left _ hf)
      have hlast := hpasses _ (List.mem_append_right _ (List.mem_singleton.mpr rfl))
      exact hfirst.append (.error hlast .nil)

end Flows

/-! ### What a task has published -/

namespace Task

omit [TextCodec] in
/-- Events are all that `emit` is about. -/
theorem emit_fields (t : Task) (record : Pushed) (room room' : Bool) :
    (t.emit record room room').cursor = t.cursor ∧ (t.emit record room room').store = t.store ∧
      (t.emit record room room').mode = t.mode ∧
        (t.emit record room room').published = t.published := by
  have hsend : ∀ t : Task, ∀ event room, (t.trySend event room).cursor = t.cursor ∧
      (t.trySend event room).store = t.store ∧ (t.trySend event room).mode = t.mode ∧
        (t.trySend event room).published = t.published := fun t event room => by
    rw [trySend]
    split_ifs
    · exact ⟨rfl, rfl, rfl, rfl⟩
    · exact ⟨rfl, rfl, rfl, rfl⟩
  rw [emit]
  split
  · split_ifs
    · exact hsend _ _ _
    · exact ⟨rfl, rfl, rfl, rfl⟩
  · exact hsend _ _ _

end Task

/-- A state that was published shows the log as it was at some version. -/
def State.Shows (h : History) (s : State) : Prop :=
  ∀ snapshot, s.snapshot = some snapshot →
    snapshot.version = s.version ∧ h.documents[s.version]? = some snapshot.root.toJson

/-- The task holds a version of the log, and published no others. -/
structure Sound (h : History) (t : Task) : Prop where
  behind : t.cursor ≤ h.version
  kept : ∀ s, t.store = some s → h.reducible = true ∧ s.snapshot.version = t.cursor ∧
    h.documents[t.cursor]? = some s.snapshot.root.toJson
  plain : t.mode = .records → h.reducible = false
  shows_ : ∀ s ∈ t.published, s.Shows h
  ascending : (t.published.map State.version).Pairwise (· ≤ ·)
  below : ∀ s ∈ t.published, s.version ≤ t.cursor

namespace Sound

variable {h h' : History} {t : Task}

theorem grow (hgrows : h.Grows h') (ht : Sound h t) : Sound h' t where
  behind := ht.behind.trans hgrows.version_le
  kept s hs := by
    obtain ⟨hreducible, hversion, hdocument⟩ := ht.kept s hs
    exact ⟨hgrows.reducible.trans hreducible, hversion, hgrows.document hdocument⟩
  plain hmode := hgrows.reducible.trans (ht.plain hmode)
  shows_ s hs snapshot hsnapshot := by
    obtain ⟨hversion, hdocument⟩ := ht.shows_ s hs snapshot hsnapshot
    exact ⟨hversion, hgrows.document hdocument⟩
  ascending := ht.ascending
  below := ht.below

theorem storeless (ht : Sound h t) (hmode : t.mode = .records) : t.store = none := by
  cases hstore : t.store with
  | none => rfl
  | some s =>
      have hreducible := (ht.kept s hstore).1
      rw [ht.plain hmode] at hreducible
      cases hreducible

theorem publish (ht : Sound h t) (status : Status) : Sound h (t.publish status) where
  behind := ht.behind
  kept := ht.kept
  plain := ht.plain
  shows_ s hs := by
    cases List.mem_append.mp hs with
    | inl hold => exact ht.shows_ s hold
    | inr hnew =>
        rw [List.mem_singleton.mp hnew]
        intro snapshot hsnapshot
        obtain ⟨store, hstore, rfl⟩ := Option.map_eq_some_iff.mp hsnapshot
        exact (ht.kept store hstore).2
  ascending := by
    rw [Task.publish, List.map_append, List.pairwise_append]
    refine ⟨ht.ascending, List.pairwise_singleton _ _, fun v hv _ hnew => ?_⟩
    obtain ⟨s, hs, rfl⟩ := List.mem_map.mp hv
    rw [List.mem_singleton.mp hnew]
    exact ht.below s hs
  below s hs := by
    cases List.mem_append.mp hs with
    | inl hold => exact ht.below s hold
    | inr hnew =>
        rw [List.mem_singleton.mp hnew]
        exact le_rfl

/-- The phase says nothing about it. -/
theorem move (ht : Sound h t) (phase : Phase) : Sound h { t with phase } :=
  ⟨ht.behind, ht.kept, ht.plain, ht.shows_, ht.ascending, ht.below⟩

theorem fail (ht : Sound h t) (e : Error) : Sound h (t.fail e) := by
  rw [Task.fail]
  split_ifs
  · exact (ht.publish _).move _
  · exact (ht.publish _).move _

theorem announce (ht : Sound h t) (from_ to_ : ℕ) (view : Option Snapshot) :
    Sound h (t.announce from_ to_ view) :=
  ⟨ht.behind, ht.kept, ht.plain, ht.shows_, ht.ascending, ht.below⟩

/-- The cursor moves on with the store, or there is no store. -/
theorem advance (ht : Sound h t) {cursor : ℕ} {store : Option Store} (hle : t.cursor ≤ cursor)
    (hbehind : cursor ≤ h.version)
    (hkept : ∀ s, store = some s → h.reducible = true ∧ s.snapshot.version = cursor ∧
      h.documents[cursor]? = some s.snapshot.root.toJson) :
    Sound h { t with cursor, store } :=
  ⟨hbehind, hkept, ht.plain, ht.shows_, ht.ascending, fun s hs => (ht.below s hs).trans hle⟩

theorem adopt (ht : Sound h t) {snapshot : Snapshot} (hreducible : h.reducible = true)
    (hle : t.cursor ≤ snapshot.version)
    (hdocument : h.documents[snapshot.version]? = some snapshot.root.toJson) :
    Sound h (t.adopt snapshot) := by
  refine (ht.advance hle (History.le_version hdocument) fun s hs => ?_).publish _
  cases hs
  exact ⟨hreducible, rfl, hdocument⟩

theorem emit (ht : Sound h t) (record : Pushed) (room room' : Bool) :
    Sound h (t.emit record room room') := by
  obtain ⟨hcursor, hstore, hmode, hpublished⟩ := Task.emit_fields t record room room'
  constructor
  · rw [hcursor]
    exact ht.behind
  · rw [hcursor, hstore]
    exact ht.kept
  · rw [hmode]
    exact ht.plain
  · rw [hpublished]
    exact ht.shows_
  · rw [hpublished]
    exact ht.ascending
  · rw [hcursor, hpublished]
    exact ht.below

end Sound

/-! ### A record folded -/

omit [TextCodec] in
/-- A patch of the log takes a store from its document to the next one, or the store is
full. -/
theorem apply_leads {s : Store} {q : OrderedPatch} {next : Json}
    (hedit : q.toJson.edit s.snapshot.root.toJson = .ok (some next)) :
    (∃ e, s.apply q = (.error e, s)) ∨ ∃ applied s', s.apply q = (.ok applied, s') ∧
      applied.snapshot = s'.snapshot ∧ s'.snapshot.version = s.snapshot.version + 1 ∧
        s'.snapshot.root.toJson = next := by
  have happly := q.apply_edit s.snapshot.root
  rw [hedit] at happly
  obtain ⟨o, ho, hrel⟩ := happly.symm.ok_left
  cases hrel with
  | @some w _ hw =>
      have hbatch : s.beginBatch.apply q =
          .ok { s.beginBatch with patches := [q], working := w } := by
        rw [Batch.apply, show s.beginBatch.working = s.snapshot.root from rfl, ho]
        rfl
      rw [Store.apply, hbatch]
      dsimp only
      by_cases hmax : s.snapshot.version < versionMax
      · refine .inr ⟨_, _, Store.applyBatch_publish rfl rfl (List.cons_ne_nil _ _) hmax, ?_, ?_,
          ?_⟩
        · rw [Store.snapshot_push]
        · rw [Store.snapshot_push]
        · rw [Store.snapshot_push]
          exact hw
      · refine .inl ⟨.versionOverflow, ?_⟩
        simp [Store.applyBatch, Store.beginBatch, hmax]

/-- A round of `fold` with a record that comes next. -/
theorem Sound.fold_next {h : History} {t : Task} (ht : Sound h t) {record : Pushed}
    (records : List Pushed) (hnext : record.version = t.cursor + 1)
    (hcommitted : h.patches[record.version - 1]? = some record.patch) (version : ℕ)
    (room room' : Bool) :
    (∃ e, t.fold version room room' (record :: records) = t.fail e) ∨
    ∃ store, store.isSome = t.store.isSome ∧
      Sound h { t with cursor := record.version, store } ∧
      t.fold version room room' (record :: records) =
        { { t with cursor := record.version, store }.emit record room room' with
          phase := .folding records } := by
  have hprev : record.version - 1 = t.cursor := by omega
  rw [hprev] at hcommitted
  have hlt : t.cursor < h.version := (List.getElem?_eq_some_iff.mp hcommitted).1
  rw [Task.fold, if_neg (by omega), if_neg (by omega)]
  cases hstore : t.store with
  | none => exact .inr ⟨none, rfl, ht.advance (by omega) (by omega) nofun, rfl⟩
  | some s =>
      obtain ⟨hreducible, hversion, hdocument⟩ := ht.kept s hstore
      obtain ⟨next, hnextdoc⟩ : ∃ next, h.documents[t.cursor + 1]? = some next :=
        ⟨_, List.getElem?_eq_getElem (by rw [h.counted]; exact Nat.succ_lt_succ hlt)⟩
      obtain ⟨q, hq, hedit⟩ := h.leads hreducible _ _ _ _ hcommitted hdocument hnextdoc
      dsimp only
      rw [hq]
      dsimp only
      obtain ⟨e, happly⟩ | ⟨applied, s', happly, hshown, hminted, hroot⟩ := apply_leads hedit
      · rw [happly]
        refine .inl ⟨.view e, ?_⟩
        show ({ t with store := some s } : Task).fail _ = _
        rw [← hstore]
      · rw [happly]
        dsimp only
        rw [if_neg (by rw [hshown, hminted]; omega)]
        refine .inr ⟨some s', rfl, ht.advance (by omega) (by omega) fun u hu => ?_, rfl⟩
        cases hu
        rw [hnext, hminted, hversion, hroot]
        exact ⟨hreducible, rfl, hnextdoc⟩

/-! ### Where the stream is -/

/-- What is to come of the stream of a follower that waits. -/
inductive Coming (h : History) (t : Task) (c : Conn) : Prop
  | opening (opening : c.opening = true) (going : c.ended = false) (none : c.inFlight = [])
      (cursor : c.cursor = t.cursor)
  | viewed {v : ℕ} {d : Json} {fs : List Frame} (opened : c.opening = false)
      (first : c.inFlight = .view v d :: fs) (reducible : h.reducible = true)
      (ahead : t.cursor ≤ v) (shown : h.documents[v]? = some d) (flows : Flows h v fs c.cursor)
  | refused {failure : Failure} (ended : c.ended = true) (last : c.inFlight = [.error failure])
      (passes : Passes h failure)
  | flowing {n : ℕ} (opened : c.opening = false) (held : t.mode = .reducible → t.store.isSome)
      (behind : n ≤ t.cursor) (level : t.mode = .records → n = t.cursor)
      (flows : Flows h n c.inFlight c.cursor)

/-- What is known of the stream in each phase. -/
def Placed (h : History) (t : Task) (c : Conn) : Prop :=
  match t.phase with
  | .idle | .stopped => True
  | .waiting => Coming h t c
  | .folding rs => ∃ n, c.opening = false ∧ (t.mode = .reducible → t.store.isSome) ∧
      n ≤ t.cursor ∧ (t.mode = .records → n = t.cursor) ∧
      Consecutive Pushed.version (n + 1) rs ∧
      (∀ r ∈ rs, h.patches[r.version - 1]? = some r.patch) ∧
      Flows h (n + rs.length) c.inFlight c.cursor
  | .reading from_ to_ asked => c.opening = false ∧ t.mode = .reducible ∧ t.store.isSome ∧
      from_ ≤ t.cursor ∧ from_ < to_ ∧ t.cursor ≤ asked ∧ Flows h to_ c.inFlight c.cursor
  | .announcing _ to_ none => c.opening = false ∧ t.mode = .records ∧ to_ = t.cursor ∧
      Flows h to_ c.inFlight c.cursor
  | .announcing _ to_ (some snapshot) => ∃ n, c.opening = false ∧ n ≤ to_ ∧
      h.reducible = true ∧ snapshot.version = to_ ∧ t.cursor ≤ to_ ∧
      h.documents[to_]? = some snapshot.root.toJson ∧ Flows h n c.inFlight c.cursor

/-! ### Steps of the server -/

section Server

variable {h h' : History} {t : Task} {c c' : Conn} {n : ℕ}

theorem Placed.grow (hgrows : h.Grows h') (hp : Placed h t c) : Placed h' t c := by
  unfold Placed at hp ⊢
  split at hp
  · trivial
  · trivial
  · cases hp with
    | opening opening going none cursor => exact .opening opening going none cursor
    | viewed opened first reducible ahead shown flows =>
        exact .viewed opened first (hgrows.reducible.trans reducible) ahead
          (hgrows.document shown) (flows.grow hgrows)
    | refused ended last passes =>
        exact .refused ended last ⟨passes.range, fun hcode =>
          hgrows.reducible.trans (passes.reducible hcode)⟩
    | flowing opened held behind level flows =>
        exact .flowing opened held behind level (flows.grow hgrows)
  · obtain ⟨n, hopened, hheld, hbehind, hlevel, hrun, hcommitted, hflows⟩ := hp
    exact ⟨n, hopened, hheld, hbehind, hlevel, hrun, fun r hr => hgrows.patch (hcommitted r hr),
      hflows.grow hgrows⟩
  · obtain ⟨hopened, hmode, hstore, hfrom, habove, hasked, hflows⟩ := hp
    exact ⟨hopened, hmode, hstore, hfrom, habove, hasked, hflows.grow hgrows⟩
  · obtain ⟨hopened, hmode, hto, hflows⟩ := hp
    exact ⟨hopened, hmode, hto, hflows.grow hgrows⟩
  · obtain ⟨n, hopened, hle, hreducible, hversion, hcursor, hshown, hflows⟩ := hp
    exact ⟨n, hopened, hle, hgrows.reducible.trans hreducible, hversion, hcursor,
      hgrows.document hshown, hflows.grow hgrows⟩

/-- What is sent goes on from the cursor of the stream. -/
theorem Conn.Sends.flows (hsends : c.Sends h c') (hopened : c.opening = false)
    (hflows : Flows h n c.inFlight c.cursor) :
    c'.opening = false ∧ Flows h n c'.inFlight c'.cursor := by
  cases hsends with
  | view opening =>
      rw [hopened] at opening
      cases opening
  | records _ _ _ run committed =>
      exact ⟨hopened, hflows.append (.records run committed .nil)⟩
  | gap _ _ above reached => exact ⟨hopened, hflows.append (.gap above reached .nil)⟩
  | error _ range reducible => exact ⟨hopened, hflows.append (.error ⟨range, reducible⟩ .nil)⟩

theorem Coming.send (hsends : c.Sends h c') (ht : Sound h t) (hc : Coming h t c) :
    Coming h t c' := by
  cases hc with
  | opening opening going none cursor =>
      cases hsends with
      | @view d _ _ reducible current =>
          have hmax : max c.cursor h.version = h.version :=
            max_eq_right (cursor ▸ ht.behind)
          have hfirst : c.inFlight ++ [.view h.version d] = [.view h.version d] := by
            rw [none]
            rfl
          refine .viewed rfl hfirst reducible ht.behind current ?_
          show Flows h h.version [] (max c.cursor h.version)
          rw [hmax]
          exact .nil
      | records opened =>
          rw [opening] at opened
          cases opened
      | gap opened =>
          rw [opening] at opened
          cases opened
      | error _ range reducible =>
          refine .refused rfl ?_ ⟨range, reducible⟩
          rw [none]
          rfl
  | @viewed v d fs opened first reducible ahead shown flows =>
      cases hsends with
      | view opening =>
          rw [opened] at opening
          cases opening
      | records _ _ _ run committed =>
          exact .viewed opened (by rw [first]; rfl) reducible ahead shown
            (flows.append (.records run committed .nil))
      | gap _ _ above reached =>
          exact .viewed opened (by rw [first]; rfl) reducible ahead shown
            (flows.append (.gap above reached .nil))
      | error _ range hreducible =>
          exact .viewed opened (by rw [first]; rfl) reducible ahead shown
            (flows.append (.error ⟨range, hreducible⟩ .nil))
  | refused ended last passes =>
      have hgoing : c.ended = false := by cases hsends <;> assumption
      rw [ended] at hgoing
      cases hgoing
  | flowing opened held behind level flows =>
      obtain ⟨hopened', hflows'⟩ := hsends.flows opened flows
      exact .flowing hopened' held behind level hflows'

theorem Placed.send (hsends : c.Sends h c') (ht : Sound h t) (hp : Placed h t c) :
    Placed h t c' := by
  unfold Placed at hp ⊢
  split at hp
  · trivial
  · trivial
  · exact hp.send hsends ht
  · obtain ⟨n, hopened, hheld, hbehind, hlevel, hrun, hcommitted, hflows⟩ := hp
    obtain ⟨hopened', hflows'⟩ := hsends.flows hopened hflows
    exact ⟨n, hopened', hheld, hbehind, hlevel, hrun, hcommitted, hflows'⟩
  · obtain ⟨hopened, hmode, hstore, hfrom, habove, hasked, hflows⟩ := hp
    obtain ⟨hopened', hflows'⟩ := hsends.flows hopened hflows
    exact ⟨hopened', hmode, hstore, hfrom, habove, hasked, hflows'⟩
  · obtain ⟨hopened, hmode, hto, hflows⟩ := hp
    obtain ⟨hopened', hflows'⟩ := hsends.flows hopened hflows
    exact ⟨hopened', hmode, hto, hflows'⟩
  · obtain ⟨n, hopened, hle, hreducible, hversion, hcursor, hshown, hflows⟩ := hp
    obtain ⟨hopened', hflows'⟩ := hsends.flows hopened hflows
    exact ⟨n, hopened', hle, hreducible, hversion, hcursor, hshown, hflows'⟩

end Server

/-! ### Steps of the task -/

section Task

variable {h : History} {t : Task} {c : Conn}

theorem placed_off (hphase : t.phase = .idle ∨ t.phase = .stopped) : Placed h t c := by
  unfold Placed
  cases hphase with
  | inl hidle => rw [hidle]; trivial
  | inr hstopped => rw [hstopped]; trivial

omit [TextCodec] in
theorem fail_phase (t : Task) (e : Error) :
    (t.fail e).phase = .idle ∨ (t.fail e).phase = .stopped := by
  rw [Task.fail]
  split_ifs
  · exact .inr rfl
  · exact .inl rfl

/-- A subscription from where the task stands. -/
theorem placed_subscribe (t : Task) :
    Placed h { t with phase := .waiting } (.open t.cursor t.mode) := by
  show Coming h _ _
  cases hmode : t.mode with
  | reducible => exact .opening rfl rfl rfl rfl
  | records =>
      exact .flowing (n := t.cursor) rfl nofun le_rfl (fun _ => rfl) .nil

/-- A subscription that is refused is given up, or made in the other mode. -/
theorem receive_error (ht : Sound h t) {failure : Failure} (hpasses : Passes h failure)
    (version : ℕ) : Sound h (t.receive version (.error failure)) ∧
      Placed h (t.receive version (.error failure)) c := by
  rw [Task.receive]
  split_ifs with hmode hrange
  · refine ⟨⟨ht.behind, ht.kept, fun _ => hpasses.reducible hmode.1, ht.shows_, ht.ascending,
      ht.below⟩, placed_off (.inl rfl)⟩
  · exact absurd hrange hpasses.range
  · exact ⟨ht.fail _, placed_off (fail_phase _ _)⟩

theorem receive_view (ht : Sound h t) {v : ℕ} {d : Json} {fs : List Frame}
    (hopened : c.opening = false) (hreducible : h.reducible = true) (hahead : t.cursor ≤ v)
    (hshown : h.documents[v]? = some d) (hflows : Flows h v fs c.cursor) (version : ℕ) :
    Sound h (t.receive version (.view v d)) ∧
      Placed h (t.receive version (.view v d)) { c with inFlight := fs } := by
  obtain ⟨s, hs, rfl, rfl⟩ := (h.decodes hreducible v d hshown).1
  rw [Task.receive, hs]
  dsimp only
  split_ifs with hskips
  · exact ⟨ht.announce _ _ _, _, hopened, le_rfl, hreducible, rfl, hahead, hshown, hflows⟩
  · exact ⟨(ht.adopt hreducible hahead hshown).move _,
      .flowing hopened (fun _ => rfl) le_rfl (fun _ => rfl) hflows⟩

theorem receive_gap (ht : Sound h t) {n to_ : ℕ} {fs : List Frame} (hopened : c.opening = false)
    (hheld : t.mode = .reducible → t.store.isSome) (hbehind : n ≤ t.cursor)
    (hlevel : t.mode = .records → n = t.cursor) (habove : n < to_) (hreached : to_ ≤ h.version)
    (hflows : Flows h to_ fs c.cursor) :
    Sound h (t.receive h.version (.gap n to_)) ∧
      Placed h (t.receive h.version (.gap n to_)) { c with inFlight := fs } := by
  rw [Task.receive, Task.recover]
  split_ifs with hmode
  · have hcursor := hlevel hmode
    have hstore := ht.storeless hmode
    refine ⟨?_, hopened, hmode, rfl, hflows⟩
    exact (ht.advance (by omega) hreached fun s hs => by rw [hstore] at hs; cases hs).announce _ _ _
  · have hreducible : t.mode = .reducible := by
      cases hm : t.mode with
      | records => exact absurd hm hmode
      | reducible => rfl
    exact ⟨ht.move _, hopened, hreducible, hheld hreducible, hbehind, habove, ht.behind, hflows⟩

theorem Coming.receive (ht : Sound h t) (hc : Coming h t c) {frame : Frame} {fs : List Frame}
    (hnext : c.inFlight = frame :: fs) :
    Sound h (t.receive h.version frame) ∧
      Placed h (t.receive h.version frame) { c with inFlight := fs } := by
  cases hc with
  | opening _ _ none =>
      rw [hnext] at none
      cases none
  | viewed opened first reducible ahead shown flows =>
      rw [hnext] at first
      cases first
      exact receive_view ht opened reducible ahead shown flows _
  | refused ended last passes =>
      rw [hnext] at last
      cases last
      exact receive_error ht passes _
  | flowing opened held behind level flows =>
      rw [hnext] at flows
      cases flows with
      | records run committed rest =>
          exact ⟨ht.move _, _, opened, held, behind, level, run, committed, rest⟩
      | gap above reached rest =>
          exact receive_gap ht opened held behind level above reached rest
      | error passes rest => exact receive_error ht passes _

/-- A round of `fold`: the records go on from the cursor at the most, so none of them is
jumped over. -/
theorem Placed.fold (ht : Sound h t) {rs : List Pushed} (hphase : t.phase = .folding rs)
    (hp : Placed h t c) (room room' : Bool) :
    Sound h (t.fold h.version room room' rs) ∧ Placed h (t.fold h.version room room' rs) c := by
  rw [Placed, hphase] at hp
  obtain ⟨n, hopened, hheld, hbehind, hlevel, hrun, hcommitted, hflows⟩ := hp
  cases rs with
  | nil => exact ⟨(ht.publish _).move _, .flowing hopened hheld hbehind hlevel hflows⟩
  | cons record records =>
      obtain ⟨hversion, hrun⟩ := consecutive_cons.mp hrun
      rw [List.forall_mem_cons] at hcommitted
      rw [List.length_cons, show n + (records.length + 1) = n + 1 + records.length by omega]
        at hflows
      by_cases hold : record.version ≤ t.cursor
      · rw [Task.fold, if_pos hold]
        refine ⟨ht.move _, n + 1, hopened, hheld, ?_, fun hmode => ?_, hrun, hcommitted.2, hflows⟩
        · show n + 1 ≤ t.cursor
          omega
        · have hcursor : n = t.cursor := hlevel hmode
          omega
      · have hnext : record.version = t.cursor + 1 := by omega
        obtain ⟨e, hfold⟩ | ⟨store, hsome, hsound, hfold⟩ :=
          ht.fold_next records hnext hcommitted.1 h.version room room'
        · rw [hfold]
          exact ⟨ht.fail e, placed_off (fail_phase t e)⟩
        · obtain ⟨hcursor, hstore, hmode, -⟩ := Task.emit_fields
            { t with cursor := record.version, store } record room room'
          rw [hfold]
          refine ⟨(hsound.emit _ _ _).move _, n + 1, hopened, ?_, ?_, ?_, hrun, hcommitted.2,
            hflows⟩
          · show (Task.emit _ _ _ _).mode = _ → (Task.emit _ _ _ _).store.isSome
            rw [hstore, hmode, hsome]
            exact hheld
          · show n + 1 ≤ (Task.emit _ _ _ _).cursor
            rw [hcursor]
            exact hversion.ge
          · show _ → n + 1 = (Task.emit _ _ _ _).cursor
            rw [hcursor]
            exact fun _ => hversion.symm

theorem Placed.answer (ht : Sound h t) {from_ to_ asked version : ℕ} {d : Json}
    (hphase : t.phase = .reading from_ to_ asked) (hp : Placed h t c)
    (hreducible : h.reducible = true) (hsince : asked ≤ version)
    (hcurrent : h.documents[version]? = some d) :
    Sound h (t.answered from_ to_ version d) ∧ Placed h (t.answered from_ to_ version d) c := by
  rw [Placed, hphase] at hp
  obtain ⟨hopened, -, -, -, -, hasked, hflows⟩ := hp
  obtain ⟨s, hs, rfl, rfl⟩ := (h.decodes hreducible version d hcurrent).2
  rw [Task.answered, hs]
  dsimp only
  split_ifs with hshort
  · exact ⟨ht.move _, placed_off (.inl rfl)⟩
  · exact ⟨ht.announce _ _ _, to_, hopened, not_lt.mp hshort, hreducible, rfl,
      hasked.trans hsince, hcurrent, hflows⟩

theorem Placed.announce (ht : Sound h t) {from_ to_ : ℕ} {view : Option Snapshot}
    (hphase : t.phase = .announcing from_ to_ view) (hp : Placed h t c) :
    Sound h (t.announced from_ to_ view) ∧ Placed h (t.announced from_ to_ view) c := by
  rw [Placed, hphase] at hp
  have hsent : Sound h { t with events := t.events ++ [.gap from_ to_] } :=
    ⟨ht.behind, ht.kept, ht.plain, ht.shows_, ht.ascending, ht.below⟩
  cases view with
  | none =>
      obtain ⟨hopened, hmode, hto, hflows⟩ := hp
      refine ⟨(hsent.publish _).move _, .flowing hopened (fun hm => ?_) hto.le (fun _ => hto) hflows⟩
      have hcontra : t.mode = .reducible := hm
      rw [hmode] at hcontra
      cases hcontra
  | some snapshot =>
      obtain ⟨n, hopened, hle, hreducible, rfl, hcursor, hshown, hflows⟩ := hp
      refine ⟨(hsent.adopt hreducible hcursor hshown).move _, ?_⟩
      refine .flowing hopened (fun _ => rfl) hle (fun hm => ?_) hflows
      rw [ht.plain hm] at hreducible
      cases hreducible

end Task

namespace World

structure Inv (w : World) : Prop where
  sound : Sound w.history w.task
  placed : Placed w.history w.task w.conn

variable {w w' : World}

theorem Inv.step (hw : w.Inv) (hstep : Step w w') : w'.Inv := by
  obtain ⟨hsound, hplaced⟩ := hw
  cases hstep with
  | grow grows => exact ⟨hsound.grow grows, hplaced.grow grows⟩
  | send sends => exact ⟨hsound, hplaced.send sends hsound⟩
  | subscribe idle => exact ⟨hsound.move _, placed_subscribe w.task⟩
  | breaks e => exact ⟨hsound.fail e, placed_off (fail_phase w.task e)⟩
  | ends waiting => exact ⟨(hsound.publish _).move _, placed_off (.inr rfl)⟩
  | receive waiting next =>
      rw [Placed, waiting] at hplaced
      obtain ⟨hsound', hplaced'⟩ := hplaced.receive hsound next
      exact ⟨hsound', hplaced'⟩
  | fold room room' folding =>
      obtain ⟨hsound', hplaced'⟩ := hplaced.fold hsound folding room room'
      exact ⟨hsound', hplaced'⟩
  | answer reading reducible since current =>
      obtain ⟨hsound', hplaced'⟩ := hplaced.answer hsound reading reducible since current
      exact ⟨hsound', hplaced'⟩
  | refuse e reading =>
      rw [Task.unanswered]
      split_ifs
      · exact ⟨hsound.move _, placed_off (.inl rfl)⟩
      · exact ⟨hsound.fail e, placed_off (fail_phase w.task e)⟩
  | announce announcing =>
      obtain ⟨hsound', hplaced'⟩ := hplaced.announce hsound announcing
      exact ⟨hsound', hplaced'⟩

theorem inv_start (h : History) (c : Conn) : (start h c).Inv where
  sound :=
    { behind := Nat.zero_le _
      kept := nofun
      plain := nofun
      shows_ := fun s hs => by
        rw [List.mem_singleton.mp hs]
        exact nofun
      ascending := List.pairwise_singleton _ _
      below := fun s hs => by
        rw [List.mem_singleton.mp hs]
        exact le_rfl }
  placed := trivial

/-- Whatever happens in whatever order, a state that is published shows the document of its
version, and the versions that are published never decrease. -/
theorem published_true {h : History} {c : Conn}
    (hrun : Relation.ReflTransGen Step (start h c) w) :
    (∀ s ∈ w.task.published, ∀ snapshot, s.snapshot = some snapshot →
      snapshot.version = s.version ∧
        w.history.documents[s.version]? = some snapshot.root.toJson) ∧
      (w.task.published.map State.version).Pairwise (· ≤ ·) := by
  have hinv : w.Inv := by
    induction hrun with
    | refl => exact inv_start h c
    | tail _ hstep ih => exact ih.step hstep
  exact ⟨hinv.sound.shows_, hinv.sound.ascending⟩

end World

end Lug.Client.Follower
