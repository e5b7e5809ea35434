import Lug.Cavlc.Grammar
import Lug.Client.Following
import Lug.Core.Text
import Mathlib.Data.List.Chain

/-!
The events of a follower abut: each goes on where the one before it ended, and what a slow
consumer missed is announced as a gap. A gap of the server that starts below what the
consumer was told already, behind a view read elsewhere, is announced from there again.
-/

namespace Lug.Client.Follower

open Cavlc Runs

/-- An event goes on where another one ended. -/
def Event.Follows (e : Event) : Event → Prop
  | .record r => r.version = e.cursor + 1
  | .gap from_ to_ => from_ = e.cursor ∧ e.cursor < to_

/-- The events abut, and the last one ends here. -/
structure Ends (events : List Event) (n : ℕ) : Prop where
  chain : events.IsChain Event.Follows
  last : ∀ e, events.getLast? = some e → e.cursor = n

namespace Ends

variable {events : List Event} {n : ℕ}

theorem nil (n : ℕ) : Ends [] n := ⟨.nil, nofun⟩

theorem push (h : Ends events n) {event : Event}
    (hnext : ∀ e, events.getLast? = some e → e.Follows event) :
    Ends (events ++ [event]) event.cursor where
  chain := by
    refine List.isChain_append.mpr ⟨h.chain, .singleton _, fun e he e' he' => ?_⟩
    cases he'
    exact hnext e he
  last e he := by
    rw [List.getLast?_append_cons, List.getLast?_singleton] at he
    cases he
    rfl

theorem record (h : Ends events n) {r : Pushed} (hversion : r.version = n + 1) :
    Ends (events ++ [.record r]) (n + 1) := by
  rw [← hversion]
  refine h.push fun e he => ?_
  show r.version = e.cursor + 1
  rw [hversion, h.last e he]

theorem gap (h : Ends events n) {to_ : ℕ} (habove : n < to_) :
    Ends (events ++ [.gap n to_]) to_ := by
  have hnext : ∀ e, events.getLast? = some e → e.Follows (.gap n to_) := fun e he => by
    show n = e.cursor ∧ e.cursor < to_
    rw [h.last e he]
    exact ⟨rfl, habove⟩
  exact h.push hnext

end Ends

/-- What the channel took, and what it did not, up to a cursor. -/
structure Heard (events : List Event) (dropped : Option (ℕ × ℕ)) (cursor : ℕ) : Prop where
  ends : Ends events (dropped.elim cursor Prod.fst)
  dropped : ∀ d, dropped = some d → d.1 < cursor ∧ d.2 = cursor

namespace Task

/-- What the consumer has been told of, unless it is about to be told more. -/
def told (t : Task) : ℕ := t.dropped.elim t.cursor Prod.fst

end Task

namespace Heard

variable {events : List Event} {dropped : Option (ℕ × ℕ)} {cursor : ℕ}

theorem nil (cursor : ℕ) : Heard [] none cursor := ⟨.nil cursor, nofun⟩

theorem of_ends (h : Ends events cursor) : Heard events none cursor := ⟨h, nofun⟩

end Heard

/-- The channel takes a record, or it is dropped with those before it. -/
theorem heard_emit {t : Task} {n : ℕ} (h : Heard t.events t.dropped n) {record : Pushed}
    (hversion : record.version = n + 1) (room room' : Bool) :
    Heard (t.emit record room room').events (t.emit record room room').dropped (n + 1) := by
  have hsend : ∀ t : Task, Ends t.events n → t.dropped = none → ∀ room,
      Heard (t.trySend (.record record) room).events (t.trySend (.record record) room).dropped
        (n + 1) := by
    intro t hends hnone room
    rw [Task.trySend]
    split_ifs
    · show Heard _ t.dropped _
      rw [hnone]
      exact .of_ends (hends.record hversion)
    · rw [hnone]
      show Heard t.events (some (record.version - 1, record.version)) (n + 1)
      rw [hversion]
      refine ⟨hends, fun d hd => ?_⟩
      cases hd
      exact ⟨Nat.lt_succ_self _, rfl⟩
  have hends := h.ends
  rw [Task.emit]
  split
  · rename_i from_ to_ hdropped
    obtain ⟨hlt, rfl⟩ := h.dropped _ hdropped
    rw [hdropped] at hends
    split_ifs
    · exact hsend _ (hends.gap hlt) rfl _
    · refine ⟨hends, fun d hd => ?_⟩
      cases hd
      exact ⟨Nat.lt_succ_of_lt hlt, hversion⟩
  · rename_i hdropped
    rw [hdropped] at hends
    exact hsend t hends hdropped _

/-- What a task has told its consumer, and what it is about to. -/
structure Told (t : Task) : Prop where
  heard : match t.phase with
    | .announcing from_ to_ _ => t.dropped = none ∧ from_ < to_ ∧ Ends t.events from_
    | .reading from_ _ _ => Heard t.events t.dropped t.cursor ∧
        (t.dropped.elim from_ fun lost => min lost.1 from_) = t.told
    | _ => Heard t.events t.dropped t.cursor
  fresh : t.mode = .reducible → t.store = none → t.events = [] ∧ t.dropped = none

section Task

variable [TextCodec] {h : History} {t : Task} {c : Conn}

omit [TextCodec] in
/-- Between sessions, and while it waits. -/
theorem Told.calm (ht : Told t) (hphase : t.phase = .idle ∨ t.phase = .waiting ∨
    ∃ rs, t.phase = .folding rs) : Heard t.events t.dropped t.cursor := by
  have hheard := ht.heard
  obtain hidle | hwaiting | ⟨rs, hfolding⟩ := hphase
  · rw [hidle] at hheard
    exact hheard
  · rw [hwaiting] at hheard
    exact hheard
  · rw [hfolding] at hheard
    exact hheard

omit [TextCodec] in
theorem Told.fail (hheard : Heard t.events t.dropped t.cursor)
    (hfresh : t.mode = .reducible → t.store = none → t.events = [] ∧ t.dropped = none)
    (e : Error) : Told (t.fail e) := by
  rw [Task.fail]
  split_ifs
  · exact ⟨hheard, hfresh⟩
  · exact ⟨hheard, hfresh⟩

/-- A round of `fold`. -/
theorem Told.fold (hsound : Sound h t) (hplaced : Placed h t c) (ht : Told t)
    {rs : List Pushed} (hphase : t.phase = .folding rs) (room room' : Bool) :
    Told (t.fold h.version room room' rs) := by
  have hheard := ht.calm (.inr (.inr ⟨rs, hphase⟩))
  have hfresh := ht.fresh
  rw [Placed, hphase] at hplaced
  obtain ⟨n, -, hheld, hbehind, -, hrun, hcommitted, -⟩ := hplaced
  cases rs with
  | nil => exact ⟨hheard, hfresh⟩
  | cons record records =>
      obtain ⟨hversion, hrun⟩ := consecutive_cons.mp hrun
      rw [List.forall_mem_cons] at hcommitted
      by_cases hold : record.version ≤ t.cursor
      · rw [Task.fold, if_pos hold]
        exact ⟨hheard, hfresh⟩
      · have hnext : record.version = t.cursor + 1 := by omega
        obtain ⟨e, hfold⟩ | ⟨store, hsome, -, hfold⟩ :=
          hsound.fold_next records hnext hcommitted.1 h.version room room'
        · rw [hfold]
          exact .fail hheard hfresh e
        · obtain ⟨hcursor, hstore, hmode, -⟩ := Task.emit_fields
            { t with cursor := record.version, store } record room room'
          have hemit := heard_emit (t := { t with cursor := record.version, store }) hheard hnext
            room room'
          rw [hfold]
          refine ⟨?_, fun hm hnone => ?_⟩
          · show Heard (Task.emit _ _ _ _).events (Task.emit _ _ _ _).dropped
              (Task.emit _ _ _ _).cursor
            rw [hcursor, show ({ t with cursor := record.version, store } : Task).cursor =
              t.cursor + 1 from hnext]
            exact hemit
          · have hnone' : store = none := hstore.symm.trans hnone
            have hheld' := hheld (hmode.symm.trans hm)
            rw [← hsome, hnone'] at hheld'
            cases hheld'

end Task

namespace World

variable [TextCodec] {w w' : World}

/-- No gap is at hand that starts below what the consumer was told already. -/
def Clear (w : World) : Prop :=
  ∀ from_ to_ later, w.task.phase = .waiting → w.conn.inFlight = .gap from_ to_ :: later →
    w.task.told ≤ from_

end World

/-! ### A stream that lags behind -/

section Sample

attribute [local instance] codec

theorem leads_encode {p : Patch Json} {d next : Json} (hordered : p.Ordered)
    (hcanonical : p.All Json.Canonical) (hvalid : p.validate Json.isObject = .ok ())
    (hedit : p.edit d = .ok (some next)) : Leads p.encode d next := by
  obtain ⟨q, hq, rfl⟩ := ofJson_ok (Patch.read_encode hordered hcanonical hvalid)
  exact ⟨q, hq, hedit⟩

/-- What a log of two versions says. -/
def creating : Patch Json := .mk [("a", .null)] [] []

def replacing : Patch Json := .mk [] [("a", .value (.bool true))] []

theorem decodes_sample (version : ℕ) (fields : List (String × Json)) (hlength : fields.length ≤ 1)
    (hj : (Json.object fields).Canonical) (hview : fields.lookup "view" = none) :
    Decodes version (.object fields) := by
  refine decodes_bare version hj ⟨hview, fun _ _ _ _ heq => ?_⟩
  rw [heq] at hlength
  simp at hlength

theorem canonical_a {j : Json} (hj : j.Canonical) : (Json.object [("a", j)]).Canonical :=
  .object (List.pairwise_singleton _ _) fun f hf => by
    rw [List.mem_singleton.mp hf]
    exact hj

def grown : History where
  reducible := true
  patches := [creating.encode, replacing.encode]
  documents := [.object [], .object [("a", .null)], .object [("a", .bool true)]]
  counted := rfl
  decodes _ v d hd := by
    match v with
    | 0 =>
        cases hd
        exact decodes_sample _ _ (Nat.zero_le _) (.object SortedMap.sorted_nil (by simp)) rfl
    | 1 =>
        cases hd
        exact decodes_sample _ _ le_rfl (canonical_a .null) (by decide)
    | 2 =>
        cases hd
        exact decodes_sample _ _ le_rfl (canonical_a (.bool true)) (by decide)
    | v + 3 => cases hd
  leads _ v p d next hp hd hnext := by
    match v with
    | 0 =>
        cases hp
        cases hd
        cases hnext
        refine leads_encode ?_ ?_ rfl rfl
        · exact ⟨List.pairwise_singleton _ _, SortedMap.sorted_nil, trivial⟩
        · exact ⟨by simpa using Json.Canonical.null, trivial⟩
    | 1 =>
        cases hp
        cases hd
        cases hnext
        refine leads_encode ?_ ?_ rfl rfl
        · exact ⟨SortedMap.sorted_nil, List.pairwise_singleton _ _, trivial, trivial⟩
        · exact ⟨by simp, .bool true, trivial⟩
    | v + 2 => cases hp

def empty : History where
  reducible := true
  patches := []
  documents := [.object []]
  counted := rfl
  decodes _ v d hd := grown.decodes rfl v d (by
    match v with
    | 0 =>
        cases hd
        rfl
    | v + 1 => cases hd)
  leads _ v p d next hp := by cases hp

theorem empty_grows : empty.Grows grown := ⟨rfl, ⟨_, rfl⟩, ⟨_, rfl⟩⟩

/-- The view of the empty log is on its way. -/
def opened : World where
  history := empty
  conn := ⟨0, false, false, [.view 0 (.object [])]⟩
  task := { Task.start with phase := .waiting }

/-- It was read, and the stream lags behind a log that has grown since. -/
def lagging : World where
  history := grown
  conn := ⟨1, false, false, [.gap 0 1]⟩
  task := opened.task.receive 0 (.view 0 (.object []))

/-- The gap is answered by a view of the log as it stands, and another gap follows. -/
def ahead : World where
  history := grown
  conn := ⟨2, false, false, [.gap 1 2]⟩
  task := (((lagging.task.receive 2 (.gap 0 1)).answered 0 1 2
    (.object [("a", .bool true)])).announced 0 2 (some ⟨2, .ofJson (.object [("a", .bool true)])⟩))

def repeated : World where
  history := grown
  conn := ⟨2, false, false, []⟩
  task := (((ahead.task.receive 2 (.gap 1 2)).answered 1 2 2
    (.object [("a", .bool true)])).announced 1 2 (some ⟨2, .ofJson (.object [("a", .bool true)])⟩))

/-- A run whose steps are all clear. -/
def ClearRun : World → World → Prop :=
  Relation.ReflTransGen fun w w' => w.Clear ∧ World.Step w w'

theorem ClearRun.run {w w' : World} (h : ClearRun w w') : Relation.ReflTransGen World.Step w w' := by
  induction h with
  | refl => exact .refl
  | tail _ hstep ih => exact ih.tail hstep.2

theorem clear_of_told {w : World} (h : w.task.told = 0) : w.Clear := fun _ _ _ _ _ => by
  rw [h]
  exact Nat.zero_le _

theorem run_opened (c : Conn) : ClearRun (.start empty c) opened :=
  .tail (.tail .refl ⟨clear_of_told rfl, .subscribe rfl⟩)
    ⟨clear_of_told rfl, .send (.view rfl rfl rfl rfl)⟩

theorem run_lagging (c : Conn) : ClearRun (.start empty c) lagging := by
  have hviewed : ClearRun (.start empty c) _ :=
    (run_opened c).tail ⟨clear_of_told rfl, .receive (w := opened) rfl rfl⟩
  refine (hviewed.tail ⟨clear_of_told rfl, .grow empty_grows⟩).tail ⟨clear_of_told rfl, ?_⟩
  exact .send (.gap rfl rfl Nat.one_pos (by decide))

theorem run_ahead (c : Conn) : ClearRun (.start empty c) ahead := by
  have hreading : (lagging.task.receive 2 (.gap 0 1)).phase = .reading 0 1 2 := rfl
  have hannouncing : ((lagging.task.receive 2 (.gap 0 1)).answered 0 1 2
      (.object [("a", .bool true)])).phase =
        .announcing 0 2 (some ⟨2, .ofJson (.object [("a", .bool true)])⟩) := rfl
  have hasked : ClearRun (.start empty c) _ :=
    (run_lagging c).tail ⟨clear_of_told rfl, .receive (w := lagging) rfl rfl⟩
  have hanswered : ClearRun (.start empty c) _ :=
    hasked.tail ⟨clear_of_told rfl, .answer hreading rfl le_rfl rfl⟩
  have hadopted : ClearRun (.start empty c) _ :=
    hanswered.tail ⟨clear_of_told rfl, .announce hannouncing⟩
  refine hadopted.tail ⟨fun _ _ _ _ hgap => ?_, .send (.gap rfl rfl Nat.one_lt_two le_rfl)⟩
  cases hgap

/-- The witness of `World.published_true`. -/
theorem ahead_true : (∀ s ∈ ahead.task.published, ∀ snapshot, s.snapshot = some snapshot →
      snapshot.version = s.version ∧ grown.documents[s.version]? = some snapshot.root.toJson) ∧
    (ahead.task.published.map State.version).Pairwise (· ≤ ·) :=
  World.published_true (run_ahead (.open 0 .reducible)).run

end Sample

end Lug.Client.Follower
