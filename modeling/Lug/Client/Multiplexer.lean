import Lug.Client.Exchanges

/-!
All the exchanges of a connection at once, and the queue of what it has to send.
-/

namespace Lug.Client.Conn

variable {P Q : Type} {cap : ℕ} {start c c' : Conn P Q} {id : ℕ} {e : Event P Q}
  {es later : List (Event P Q)}

/-! ### The queue -/

/-- What stands of the requests that were accepted. -/
structure Queue (cap : ℕ) (asked : List (Request Q)) (c : Conn P Q) : Prop where
  bounded : c.pending.length ≤ cap
  ordered : c.sent ++ c.pending <+: asked
  whole : c.running = true → c.sent ++ c.pending = asked

theorem queue_finish {asked : List (Request Q)} (h : Queue cap asked c) :
    Queue cap asked c.finish := by
  refine ⟨Nat.zero_le _, ?_, nofun⟩
  show c.sent ++ [] <+: asked
  rw [List.append_nil]
  exact (List.prefix_append c.sent c.pending).trans h.ordered

/-- A turn that leaves the queue alone. -/
theorem Queue.alike {asked : List (Request Q)} (h : Queue cap asked c)
    (hpending : c'.pending = c.pending) (hsent : c'.sent = c.sent)
    (hrunning : c'.running = c.running) : Queue cap asked c' := by
  refine ⟨?_, ?_, ?_⟩
  · rw [hpending]
    exact h.bounded
  · rw [hsent, hpending]
    exact h.ordered
  · rw [hsent, hpending, hrunning]
    exact h.whole

theorem queue_enqueue {asked : List (Request Q)} (h : Queue cap asked c) {req : Request Q}
    (hrunning : c.running = true) (hroom : c.pending.length < cap)
    (hpending : c'.pending = c.pending ++ [req]) (hsent : c'.sent = c.sent) :
    Queue cap (asked ++ [req]) c' := by
  have hwhole : c'.sent ++ c'.pending = asked ++ [req] := by
    rw [hsent, hpending, ← List.append_assoc, h.whole hrunning]
  refine ⟨?_, ?_, fun _ => hwhole⟩
  · rw [hpending, List.length_append, List.length_singleton]
    exact hroom
  · exact ⟨[], (List.append_nil _).trans hwhole⟩

theorem queue_deliver (c : Conn P Q) (frame : Response P) :
    (c.deliver frame).pending = c.pending ∧ (c.deliver frame).sent = c.sent := by
  rw [deliver]
  split
  · exact ⟨rfl, rfl⟩
  · exact ⟨rfl, rfl⟩
  · dsimp only
    split_ifs
    · exact ⟨rfl, rfl⟩
    · exact ⟨rfl, rfl⟩
    · exact ⟨rfl, rfl⟩

theorem queue_step {asked : List (Request Q)} (h : Queue cap asked c)
    (hstep : c.step cap e = some c') : Queue cap (asked ++ e.asks.toList) c' := by
  by_cases hdeath : e.isDeath = true
  · have hnone : e.asks = none := by
      cases e with
      | command cmd =>
          cases cmd with
          | none => rfl
          | some cmd => cases hdeath
      | permit ok => rfl
      | inbound frame => rfl
      | take id => rfl
      | close id => rfl
    rw [step_death hstep hdeath, hnone, Option.toList_none, List.append_nil]
    exact queue_finish h
  cases e with
  | permit ok =>
      cases ok with
      | false => exact absurd rfl hdeath
      | true =>
          obtain ⟨req, pending, hrunning, hpending, rfl⟩ := step_permit hstep
          have hwhole := h.whole hrunning
          have hbounded := h.bounded
          rw [hpending] at hwhole hbounded
          have hsent : (c.sent ++ [req]) ++ pending = asked := by
            rw [List.append_assoc]
            exact hwhole
          show Queue cap (asked ++ []) _
          rw [List.append_nil]
          exact ⟨Nat.le_of_succ_le hbounded, ⟨[], (List.append_nil _).trans hsent⟩, fun _ => hsent⟩
  | command cmd =>
      cases cmd with
      | none => exact absurd rfl hdeath
      | some cmd =>
          obtain ⟨hrunning, hroom, rfl⟩ := step_command hstep
          cases cmd with
          | call req => exact queue_enqueue h hrunning hroom rfl rfl
          | stream req capacity closed => exact queue_enqueue h hrunning hroom rfl rfl
          | fire req => exact queue_enqueue h hrunning hroom rfl rfl
          | forget id =>
              show Queue cap (asked ++ []) _
              rw [List.append_nil]
              exact h.alike rfl rfl rfl
  | inbound frame =>
      cases frame with
      | none => exact absurd rfl hdeath
      | some frame =>
          obtain ⟨-, rfl⟩ := step_inbound hstep
          obtain ⟨hpending, hsent⟩ := queue_deliver c frame
          show Queue cap (asked ++ []) _
          rw [List.append_nil]
          exact h.alike hpending hsent (running_deliver c frame)
  | take id =>
      rw [step] at hstep
      split_ifs at hstep
      cases hstep
      show Queue cap (asked ++ []) _
      rw [List.append_nil]
      exact h.alike rfl rfl rfl
  | close id =>
      cases hstep
      show Queue cap (asked ++ []) _
      rw [List.append_nil]
      exact h.alike rfl rfl rfl

theorem exec_queue {asked : List (Request Q)} (h : Queue cap asked start)
    (hexec : start.exec cap es = some c) : Queue cap (asked ++ es.filterMap Event.asks) c := by
  induction es generalizing start asked with
  | nil =>
      cases hexec
      rwa [List.filterMap_nil, List.append_nil]
  | cons e es ih =>
      obtain ⟨next, hstep, hrest⟩ := exec_cons hexec
      have hasks : (e :: es).filterMap Event.asks = e.asks.toList ++ es.filterMap Event.asks := by
        rw [List.filterMap_cons]
        cases e.asks with
        | none => rfl
        | some req => rfl
      rw [hasks, ← List.append_assoc]
      exact ih (queue_step h hstep) hrest

/-! ### Every exchange -/

/-- A connection that is over holds no waiter. -/
def Returned (c : Conn P Q) : Prop := c.running = false → ∀ id, c.waiters id = none

theorem returned_step (h : Returned c) (hstep : c.step cap e = some c') : Returned c' := by
  by_cases hdeath : e.isDeath = true
  · rw [step_death hstep hdeath]
    exact fun _ _ => rfl
  intro hover
  cases e with
  | permit ok =>
      cases ok with
      | false => exact absurd rfl hdeath
      | true =>
          obtain ⟨req, pending, hrunning, -, rfl⟩ := step_permit hstep
          exact absurd (hrunning.symm.trans hover) nofun
  | command cmd =>
      cases cmd with
      | none => exact absurd rfl hdeath
      | some cmd =>
          obtain ⟨hrunning, -, rfl⟩ := step_command hstep
          rw [running_accept, hrunning] at hover
          cases hover
  | inbound frame =>
      cases frame with
      | none => exact absurd rfl hdeath
      | some frame =>
          obtain ⟨hrunning, rfl⟩ := step_inbound hstep
          rw [running_deliver, hrunning] at hover
          cases hover
  | take id =>
      rw [step] at hstep
      split_ifs at hstep
      cases hstep
      exact h hover
  | close id =>
      cases hstep
      exact h hover

theorem exec_returned (h : Returned start) (hexec : start.exec cap es = some c) : Returned c := by
  induction es generalizing start with
  | nil =>
      cases hexec
      exact h
  | cons e es ih =>
      obtain ⟨next, hstep, hrest⟩ := exec_cons hexec
      exact ih (returned_step h hstep) hrest

/-- The turn that opens an exchange, between what comes before and what comes later: its id
is new, and never comes again. -/
theorem exec_opens {before : List (Event P Q)} (hids : Distinct (before ++ e :: later))
    (hopens : e.opens = some id) (h : exec cap .new (before ++ e :: later) = some c) :
    ∃ mid start, exec cap .new before = some mid ∧ mid.step cap e = some start ∧
      start.exec cap later = some c ∧ Same id .new mid ∧
        id ∉ later.filterMap Event.opens := by
  rw [exec_append, Option.bind_eq_some_iff] at h
  obtain ⟨mid, hmid, hrest⟩ := h
  obtain ⟨start, hstep, hlater⟩ := exec_cons hrest
  rw [Distinct, List.filterMap_append, List.filterMap_cons, hopens, List.nodup_append] at hids
  obtain ⟨-, hnodup, hapart⟩ := hids
  have hbefore : id ∉ before.filterMap Event.opens := fun hmem =>
    hapart id hmem id List.mem_cons_self rfl
  exact ⟨mid, start, hmid, hstep, hlater, exec_absent hmid rfl hbefore,
    (List.nodup_cons.mp hnodup).1⟩

/-- What a connection promises about a schedule. -/
structure Delivers (cap : ℕ) (es : List (Event P Q)) (c : Conn P Q) : Prop where
  /-- A call is answered at most once, by a frame of its own or as disconnected. -/
  calls : ∀ before req later, es = before ++ .command (some (.call req)) :: later →
    CallFate req.id later c
  /-- A channel gets the frames of its stream, until something ends it. -/
  streams : ∀ before req capacity closed later,
    es = before ++ .command (some (.stream req capacity closed)) :: later →
      ∃ mid start, exec cap .new before = some mid ∧
        mid.step cap (.command (some (.stream req capacity closed))) = some start ∧
          (start.sinks req.id).handed = [] ∧ StreamFate cap start req.id later c
  /-- Nothing is left waiting when `run` has returned. -/
  returned : Returned c
  queue : Queue cap (es.filterMap Event.asks) c

/-- Whatever the order in which commands, frames and the end of a connection are served. -/
theorem exec_delivers (cap : ℕ) {es : List (Event P Q)} (hids : Distinct es) {c : Conn P Q}
    (h : exec cap .new es = some c) : Delivers cap es c := by
  refine ⟨?_, ?_, ?_, ?_⟩
  · intro before req later heq
    rw [heq] at h hids
    obtain ⟨mid, start, -, hstep, hlater, hsame, hfresh⟩ := exec_opens hids rfl h
    obtain ⟨hrunning, -, rfl⟩ := step_command hstep
    have hwaiter : (mid.accept (.call req)).waiters req.id = some .call :=
      Function.update_self _ _ _
    exact call_fate hlater hwaiter hrunning hsame.replies hfresh
  · intro before req capacity closed later heq
    rw [heq] at h hids
    obtain ⟨mid, start, hmid, hstep, hlater, -, hfresh⟩ := exec_opens hids rfl h
    obtain ⟨hrunning, -, hstart⟩ := step_command hstep
    refine ⟨mid, start, hmid, hstep, ?_, ?_⟩
    · rw [hstart]
      show (Function.update mid.sinks req.id _ req.id).handed = []
      rw [Function.update_self]
      rfl
    · exact stream_fate hlater (by rw [hstart]; exact Function.update_self _ _ _)
        (by rw [hstart, running_accept]; exact hrunning) hfresh
  · have hnew : Returned (new : Conn P Q) := fun hover => by cases hover
    exact exec_returned hnew h
  · exact exec_queue ⟨Nat.zero_le _, List.prefix_rfl, fun _ => rfl⟩ h

/-- A stream whose channel is full at its second frame, a call that is answered, and one the
death of the connection leaves without an answer. -/
def crowded : List (Event ℕ ℕ) :=
  [.command (some (.stream ⟨1, 0⟩ 1 false)), .command (some (.call ⟨2, 0⟩)), .permit true,
    .inbound (some (.other 1 0)), .command (some (.call ⟨3, 0⟩)), .inbound (some (.other 1 1)),
    .inbound (some (.ended 2)), .command (some (.forget 2)), .inbound none, .take 1]

theorem crowded_delivers : ∃ c, exec 3 .new crowded = some c ∧ Delivers 3 crowded c := by
  have hids : Distinct crowded := by
    rw [Distinct]
    decide
  have hruns : (exec 3 .new crowded).isSome = true := by decide
  obtain ⟨c, hc⟩ := Option.isSome_iff_exists.mp hruns
  exact ⟨c, hc, exec_delivers 3 hids hc⟩

end Lug.Client.Conn
