import Lug.Core.Text
import Lug.Ts.Effects

/-!
Every promise that a transport gives out is pending or settled, and settled once: whatever
the order of responses, timers, writes and failures.
-/

namespace Lug.Ts

/-- The call that a report settles. -/
def Report.ofCall : Report → Option ℕ
  | call n _ => some n
  | _ => none

def Report.ofOperation : Report → Option ℕ
  | operation n _ => some n
  | _ => none

def Microtask.operation : Microtask → Option ℕ
  | raced o _ => some o.op
  | caught _ _ => none

namespace UnixTransport

/-- The calls that are pending, and those that are settled. -/
def callsKept (t : UnixTransport) : List ℕ :=
  t.pending.values.map (·.call) ++ t.reports.filterMap Report.ofCall

/-- The operations that race, those whose race is over, and those that returned. -/
def operationsKept (t : UnixTransport) : List ℕ :=
  t.racing.entries.map Prod.fst ++ t.microtasks.filterMap Microtask.operation ++
    t.reports.filterMap Report.ofOperation

variable {js : Runtime} {t t' : UnixTransport} {responses : List Json}

/-- Who leaves the first of two lists comes last in the second. -/
theorem perm_moved {a : ℕ} {before after settled all : List ℕ} (hleft : before.Perm (a :: after))
    (h : (before ++ settled).Perm all) : (after ++ (settled ++ [a])).Perm all := by
  rw [← List.append_assoc]
  exact (List.perm_append_singleton _ _).trans ((hleft.append_right settled).symm.trans h)

theorem calls_effect (h : t.callsKept.Perm (List.range t.calls.length))
    (heffect : Effect js t responses t') : t'.callsKept.Perm (List.range t'.calls.length) := by
  cases heffect with
  | refused id error =>
      simpa [callsKept, Report.ofCall, List.range_succ] using h.append_right [t.calls.length]
  | pended alive free timeoutMs =>
      have hset := (Table.values_set_new free ⟨t.calls.length, timeoutMs⟩).map (·.call)
      have hmore := (hset.append_right (t.reports.filterMap Report.ofCall)).trans (h.cons _)
      simpa [callsKept, List.range_succ] using
        hmore.trans (List.perm_append_singleton _ _).symm
  | answered valid hpending =>
      have hmoved := perm_moved ((Table.values_perm_erase hpending).map (·.call)) h
      simpa [callsKept, List.filterMap_cons, Report.ofCall] using hmoved
  | rejected hpending error =>
      have hmoved := perm_moved ((Table.values_perm_erase hpending).map (·.call)) h
      simpa [callsKept, List.filterMap_cons, Report.ofCall] using hmoved
  | died alive error =>
      obtain ⟨racing, microtasks, hfail⟩ := fail_eq alive error
      rw [hfail]
      simpa [callsKept, List.filterMap_append, List.filterMap_map, Function.comp_def,
        Report.ofCall] using List.perm_append_comm.trans h
  | pushed | broken | returned | finished =>
      simpa [callsKept, List.filterMap_cons, Report.ofCall] using h
  | wrote hwriting =>
      obtain ⟨racing, microtasks, hjob⟩ := resolveJob_eq { t with writing := none } _
      rw [hjob]
      exact h
  | unwritten hwriting error =>
      obtain ⟨racing, microtasks, hjob⟩ := rejectJob_eq error { t with writing := none } _
      rw [hjob]
      exact h
  | settled op result =>
      obtain ⟨racing, microtasks, hsettle⟩ := settle_eq t op result
      rw [hsettle]
      exact h
  | _ => exact h

/-! ### Operations -/

theorem mem_settle {op : ℕ} {result : Except Fault Unit} {e : ℕ × Operation} :
    e ∈ (t.settle op result).racing.entries ↔ e ∈ t.racing.entries ∧ e.1 ≠ op := by
  unfold settle
  split
  · rename_i hnone
    exact ⟨fun he => ⟨he, Table.get?_eq_none.mp hnone e he⟩, And.left⟩
  · exact Table.mem_erase

/-- Who awaited the frame races no more. -/
theorem mem_rejectJob {error : Fault} {job : WriteJob} {e : ℕ × Operation} :
    e ∈ (rejectJob error t job).racing.entries ↔
      e ∈ t.racing.entries ∧ job.sender ≠ .operation e.1 := by
  unfold rejectJob
  cases job.sender with
  | call id => simp
  | operation op => simp [mem_settle, eq_comm]

theorem mem_resolveJob {job : WriteJob} {e : ℕ × Operation} :
    e ∈ (t.resolveJob job).racing.entries ↔
      e ∈ t.racing.entries ∧ job.sender ≠ .operation e.1 := by
  unfold resolveJob
  cases job.sender with
  | call id => simp
  | operation op => simp [mem_settle, eq_comm]

theorem mem_foldl_rejectJob {error : Fault} {jobs : List WriteJob} {e : ℕ × Operation} :
    e ∈ (jobs.foldl (rejectJob error) t).racing.entries ↔
      e ∈ t.racing.entries ∧ ∀ job ∈ jobs, job.sender ≠ .operation e.1 := by
  induction jobs generalizing t with
  | nil => simp
  | cons job jobs ih => simp [ih, mem_rejectJob, and_assoc]

theorem mem_fail (alive : t.dead = none) {error : Fault} {e : ℕ × Operation} :
    e ∈ (t.fail error).racing.entries ↔
      e ∈ t.racing.entries ∧ ∀ job ∈ t.writes, job.sender ≠ .operation e.1 := by
  unfold fail
  rw [alive]
  exact mem_foldl_rejectJob

/-- Operations are known by their numbers. -/
def Numbered (t : UnixTransport) : Prop := ∀ e ∈ t.racing.entries, e.2.op = e.1

theorem settle_kept (h : t.Numbered) (op : ℕ) (result : Except Fault Unit) :
    (t.settle op result).operationsKept.Perm t.operationsKept := by
  unfold settle
  split
  · exact .refl _
  · rename_i o hrace
    have hop : o.op = op := h _ (Table.mem_of_get? hrace)
    have hmoved := perm_moved ((Table.perm_erase hrace).map Prod.fst)
      (.refl (t.racing.entries.map Prod.fst ++ t.microtasks.filterMap Microtask.operation))
    simpa [operationsKept, List.filterMap_cons, Microtask.operation, hop] using
      hmoved.append_right (t.reports.filterMap Report.ofOperation)

theorem rejectJob_kept (h : t.Numbered) (error : Fault) (job : WriteJob) :
    (rejectJob error t job).operationsKept.Perm t.operationsKept := by
  unfold rejectJob
  split
  · simp [operationsKept, List.filterMap_cons, Microtask.operation]
  · exact settle_kept h _ _

theorem resolveJob_kept (h : t.Numbered) (job : WriteJob) :
    (t.resolveJob job).operationsKept.Perm t.operationsKept := by
  unfold resolveJob
  split
  · exact .refl _
  · exact settle_kept h _ _

theorem foldl_rejectJob_kept (h : t.Numbered) (error : Fault) (jobs : List WriteJob) :
    (jobs.foldl (rejectJob error) t).operationsKept.Perm t.operationsKept := by
  induction jobs generalizing t with
  | nil => exact .refl _
  | cons job jobs ih =>
      have hnumbered : (rejectJob error t job).Numbered := fun e he => h e (mem_rejectJob.mp he).1
      exact (ih hnumbered).trans (rejectJob_kept h error job)

@[simp] theorem operations_settle (t : UnixTransport) (op : ℕ) (result : Except Fault Unit) :
    (t.settle op result).operations = t.operations := by
  obtain ⟨racing, microtasks, hsettle⟩ := settle_eq t op result
  rw [hsettle]

@[simp] theorem operations_rejectJob (error : Fault) (t : UnixTransport) (job : WriteJob) :
    (rejectJob error t job).operations = t.operations := by
  obtain ⟨racing, microtasks, hjob⟩ := rejectJob_eq error t job
  rw [hjob]

@[simp] theorem operations_resolveJob (t : UnixTransport) (job : WriteJob) :
    (t.resolveJob job).operations = t.operations := by
  obtain ⟨racing, microtasks, hjob⟩ := resolveJob_eq t job
  rw [hjob]

@[simp] theorem operations_foldl (error : Fault) (jobs : List WriteJob) (t : UnixTransport) :
    (jobs.foldl (rejectJob error) t).operations = t.operations := by
  obtain ⟨racing, microtasks, hjobs⟩ := foldl_rejectJob_eq error jobs t
  rw [hjobs]

theorem operations_effect (h : t.operationsKept.Perm (List.range t.operations))
    (hnumbered : t.Numbered) (heffect : Effect js t responses t') :
    t'.operationsKept.Perm (List.range t'.operations) := by
  cases heffect with
  | raced alive fits number =>
      rename_i request o
      -- All numbers that are kept lie below the next one.
      have hfree : t.racing.get? o.op = none := by
        refine Table.get?_eq_none.mpr fun e he hop => ?_
        have hmem : e.1 ∈ t.operationsKept :=
          List.mem_append_left _ (List.mem_append_left _ (List.mem_map_of_mem he))
        have hlt := List.mem_range.mp (h.mem_iff.mp hmem)
        omega
      have hset := (Table.perm_set_new hfree o).map Prod.fst
      have hmore := ((hset.append_right (t.microtasks.filterMap Microtask.operation)).append_right
        (t.reports.filterMap Report.ofOperation)).trans (h.cons o.op)
      rw [number] at hmore
      simpa [operationsKept, List.range_succ, number] using
        hmore.trans (List.perm_append_singleton _ _).symm
  | unsent number error =>
      have hmore := (List.perm_middle.trans (h.cons t.operations)).trans
        (List.perm_append_singleton _ _).symm
      simpa [operationsKept, List.filterMap_cons, Microtask.operation, List.range_succ, number]
        using hmore
  | returned result =>
      simpa [operationsKept, List.filterMap_cons, Report.ofOperation, List.range_succ] using
        h.append_right [t.operations]
  | wrote hwriting =>
      rw [operations_resolveJob]
      exact (resolveJob_kept (t := { t with writing := none }) hnumbered _).trans h
  | unwritten hwriting error =>
      rw [operations_rejectJob]
      exact (rejectJob_kept (t := { t with writing := none }) hnumbered error _).trans h
  | settled op result =>
      rw [operations_settle]
      exact (settle_kept hnumbered op result).trans h
  | uncaught id error =>
      simpa [operationsKept, List.filterMap_cons, Microtask.operation] using h
  | caught hmicrotasks =>
      simpa [operationsKept, hmicrotasks, List.filterMap_cons, Microtask.operation] using h
  | finished hmicrotasks =>
      rename_i o result rest
      -- The number moves from the microtasks to the reports.
      have hkept : (t.racing.entries.map Prod.fst ++ o.op :: rest.filterMap Microtask.operation ++
          t.reports.filterMap Report.ofOperation).Perm (List.range t.operations) := by
        simpa [operationsKept, hmicrotasks, List.filterMap_cons, Microtask.operation] using h
      simpa [operationsKept, List.filterMap_cons, Report.ofOperation] using
        perm_moved List.perm_middle hkept
  | died alive error =>
      unfold fail
      rw [alive]
      dsimp only
      rw [operations_foldl]
      -- The frames in the queue end their races; what else is reported is of no operation.
      refine (foldl_rejectJob_kept (by exact hnumbered) _ _).trans ?_
      simpa [operationsKept, List.filterMap_append, List.filterMap_map, Function.comp_def,
        Report.ofOperation] using h
  | refused | answered | rejected | pushed | broken =>
      simpa [operationsKept, List.filterMap_cons, Report.ofOperation] using h
  | _ => exact h

theorem numbered_effect (h : t.Numbered) (heffect : Effect js t responses t') : t'.Numbered := by
  cases heffect with
  | raced alive fits number =>
      intro e he
      rcases Table.mem_set he with rfl | he
      · rfl
      · exact h e he
  | wrote hwriting => exact fun e he => h e (mem_resolveJob.mp he).1
  | unwritten hwriting error => exact fun e he => h e (mem_rejectJob.mp he).1
  | settled op result => exact fun e he => h e (mem_settle.mp he).1
  | died alive error =>
      exact fun e he => h e ((mem_fail alive).mp he).1
  | _ => exact h

/-- An operation that races has its frame with the socket, or in the queue for it. -/
def Awaited (t : UnixTransport) : Prop := ∀ e ∈ t.racing.entries,
  ∃ job ∈ t.writes ++ t.writing.toList, job.sender = .operation e.1

/-- Once the socket called back, no one awaits that frame. -/
theorem Awaited.others (h : t.Awaited) {done : WriteJob} (hwriting : t.writing = some done)
    {e : ℕ × Operation} (he : e ∈ t.racing.entries) (hother : done.sender ≠ .operation e.1) :
    ∃ job ∈ t.writes ++ [], job.sender = .operation e.1 := by
  obtain ⟨job, hjob, hsender⟩ := h e he
  refine ⟨job, ?_, hsender⟩
  rw [List.append_nil]
  refine (List.mem_append.mp hjob).resolve_right fun hdone => hother ?_
  have hsame : job = done := by simpa [hwriting] using hdone
  rw [← hsame, hsender]

theorem awaited_effect (h : t.Awaited) (heffect : Effect js t responses t') : t'.Awaited := by
  cases heffect with
  | queued alive fits =>
      intro e he
      obtain ⟨job, hjob, hsender⟩ := h e he
      refine ⟨job, ?_, hsender⟩
      rcases List.mem_append.mp hjob with hjob | hjob <;> simp [hjob]
  | raced alive fits number =>
      intro e he
      rcases Table.mem_set he with rfl | he
      · exact ⟨_, List.mem_append_left _ List.mem_concat_self, rfl⟩
      · obtain ⟨job, hjob, hsender⟩ := h e he
        refine ⟨job, ?_, hsender⟩
        rcases List.mem_append.mp hjob with hjob | hjob <;> simp [hjob]
  | pumped alive free hwrites =>
      intro e he
      obtain ⟨job, hjob, hsender⟩ := h e he
      refine ⟨job, ?_, hsender⟩
      -- The head of the queue is now the frame with the socket.
      simpa [hwrites, free, or_comm] using hjob
  | wrote hwriting =>
      intro e he
      obtain ⟨hrace, hother⟩ := mem_resolveJob.mp he
      obtain ⟨racing, microtasks, hjob⟩ := resolveJob_eq { t with writing := none } _
      rw [hjob]
      exact h.others hwriting hrace hother
  | unwritten hwriting error =>
      intro e he
      obtain ⟨hrace, hother⟩ := mem_rejectJob.mp he
      obtain ⟨racing, microtasks, hjob⟩ := rejectJob_eq error { t with writing := none } _
      rw [hjob]
      exact h.others hwriting hrace hother
  | settled op result =>
      intro e he
      obtain ⟨racing, microtasks, hsettle⟩ := settle_eq t op result
      have hjob := h e (mem_settle.mp he).1
      rw [hsettle]
      exact hjob
  | died alive error =>
      intro e he
      obtain ⟨racing, microtasks, hfail⟩ := fail_eq alive error
      obtain ⟨hrace, hothers⟩ := (mem_fail alive).mp he
      obtain ⟨job, hjob, hsender⟩ := h e hrace
      rw [hfail]
      -- Of a frame with the socket the callback is still to come.
      refine ⟨job, ?_, hsender⟩
      exact (List.mem_append.mp hjob).resolve_left fun hqueued => hothers job hqueued hsender
  | _ => exact h

/-- A dead transport holds nothing that waits for a response or for the socket's turn. -/
def Emptied (t : UnixTransport) : Prop :=
  t.dead ≠ none → t.pending = .empty ∧ t.streams = .empty ∧ t.writes = []

theorem emptied_effect (h : t.Emptied) (heffect : Effect js t responses t') : t'.Emptied := by
  cases heffect with
  | pended alive | opened alive | queued alive | raced alive | pumped alive =>
      exact fun hdead => absurd alive hdead
  | answered valid hpending =>
      intro hdead
      obtain ⟨hnone, hothers⟩ := h hdead
      exact ⟨by rw [hnone, Table.erase_empty], hothers⟩
  | rejected hpending error =>
      intro hdead
      obtain ⟨hnone, hothers⟩ := h hdead
      exact ⟨by rw [hnone, Table.erase_empty], hothers⟩
  | pushed valid hstream =>
      intro hdead
      rw [(h hdead).2.1, Table.get?_empty] at hstream
      cases hstream
  | dropped id =>
      intro hdead
      obtain ⟨hpending, hnone, hwrites⟩ := h hdead
      exact ⟨hpending, by rw [hnone, Table.erase_empty], hwrites⟩
  | wrote hwriting => exact resolveJob_keeps (fun _ _ => h) _
  | unwritten hwriting error => exact rejectJob_keeps (fun _ _ => h) _ _
  | settled op result => exact settle_keeps (fun _ _ => h) _ _
  | died alive error =>
      obtain ⟨racing, microtasks, hfail⟩ := fail_eq alive error
      rw [hfail]
      exact fun _ => ⟨rfl, rfl, rfl⟩
  | _ => exact h

/-! ### Runs -/

/-- What a transport owes, and to whom. -/
structure Settles (t : UnixTransport) : Prop where
  /-- Every call is pending or settled, and that once. -/
  calls : t.callsKept.Perm (List.range t.calls.length)
  operations : t.operationsKept.Perm (List.range t.operations)
  numbered : t.Numbered
  awaited : t.Awaited
  emptied : t.Emptied

theorem settles_new : new.Settles where
  calls := .refl _
  operations := .refl _
  numbered _ he := absurd he List.not_mem_nil
  awaited _ he := absurd he List.not_mem_nil
  emptied hdead := absurd rfl hdead

theorem Settles.effect (h : t.Settles) (heffect : Effect js t responses t') : t'.Settles where
  calls := calls_effect h.calls heffect
  operations := operations_effect h.operations h.numbered heffect
  numbered := numbered_effect h.numbered heffect
  awaited := awaited_effect h.awaited heffect
  emptied := emptied_effect h.emptied heffect

theorem Reaches.settles (h : Reaches js t) : t.Settles :=
  h.always settles_new
    (fun _ _ _ h => ⟨h.calls, h.operations, h.numbered, h.awaited, h.emptied⟩) Settles.effect

/-- A dead transport has settled every call, and what an operation of it still awaits is that
the socket calls back or that a microtask runs. -/
theorem Settles.over (h : t.Settles) (hdead : t.dead ≠ none) :
    (t.reports.filterMap Report.ofCall).Perm (List.range t.calls.length) ∧
      (t.writing = none → t.microtasks = [] →
        (t.reports.filterMap Report.ofOperation).Perm (List.range t.operations)) := by
  obtain ⟨hpending, -, hwrites⟩ := h.emptied hdead
  refine ⟨by simpa [callsKept, hpending] using h.calls, fun hwriting hmicrotasks => ?_⟩
  have hracing : t.racing.entries = [] := by
    refine List.eq_nil_iff_forall_not_mem.mpr fun e he => ?_
    obtain ⟨job, hjob, -⟩ := h.awaited e he
    simp [hwrites, hwriting] at hjob
  simpa [operationsKept, hracing, hmicrotasks] using h.operations

/-- Every promise of a transport is settled once: a call is pending or settled and never both,
an operation races, is about to return or has returned, and behind a failure nothing is left
to wait for. -/
theorem Reaches.promises_settled (h : Reaches js t) :
    t.callsKept.Perm (List.range t.calls.length) ∧
      t.operationsKept.Perm (List.range t.operations) ∧
        (t.dead ≠ none → (t.reports.filterMap Report.ofCall).Perm (List.range t.calls.length) ∧
          (t.writing = none → t.microtasks = [] →
            (t.reports.filterMap Report.ofOperation).Perm (List.range t.operations))) :=
  ⟨h.settles.calls, h.settles.operations, h.settles.over⟩

/-- The text of a `ping`, and of the `pong` that answers it. -/
def ping : Bytes := Proto.ascii "\x7b\"t\":\"ping\",\"id\":2\x7d"

def pong : Bytes := Proto.ascii "\x7b\"t\":\"pong\",\"id\":2\x7d"

/-- `JSON` as it writes the one and reads the other. -/
def pings : Runtime where
  stringify
    | .object [("t", .string "ping"), ("id", .number (.int 2))] => ping
    | j => codeBytes j
  parse body :=
    if body = pong then .ok (.object [("t", .string "pong"), ("id", .number (.int 2))])
    else .error "Unexpected token"
  written _ := "1"

/-- A `ping` that is not answered in time. -/
theorem unanswered_settled : ((new.call pings (.ping 2) 0x3ff0000000000000).callTimer pings 2
    ⟨0, 0x3ff0000000000000⟩).callsKept.Perm (List.range 1) := by
  have hcall : Reaches pings (new.call pings (.ping 2) 0x3ff0000000000000) :=
    .step .new (.call (.ping 2) 0x3ff0000000000000)
  exact (Reaches.promises_settled (hcall.step (.callTimer rfl rfl))).1

end UnixTransport

end Lug.Ts
