import Lug.Ts.Unix

/-!
What an event does to a transport, as a chain of small parts: what every part preserves,
a run does.
-/

namespace Lug.Ts

open Proto (putU32)

namespace UnixTransport

/-- The frame of a request. -/
def frameOf (js : Runtime) (request : Request) : Bytes :=
  putU32 (js.stringify request.json).length ++ js.stringify request.json

/-- The parts that events are made of, each with the responses that it is about. -/
inductive Effect (js : Runtime) (t : UnixTransport) : List Json → UnixTransport → Prop
  /-- A call that is rejected at once. -/
  | refused (id : ℕ) (error : Fault) : Effect js t [] { t with
      calls := t.calls ++ [id]
      reports := t.reports ++ [.call t.calls.length (.error error)] }
  | pended (alive : t.dead = none) {id : ℕ} (free : t.pending.get? id = none)
      (timeoutMs : Double) : Effect js t [] { t with
        calls := t.calls ++ [id]
        pending := t.pending.set id ⟨t.calls.length, timeoutMs⟩ }
  | answered {response : Json} {p : PendingCall} (valid : isResponse response = true)
      (h : t.pending.get? (idOf response) = some p) : Effect js t [response] { t with
        pending := t.pending.erase (idOf response)
        reports := t.reports ++ [.call p.call (.ok response)] }
  | rejected {id : ℕ} {p : PendingCall} (h : t.pending.get? id = some p) (error : Fault) :
      Effect js t [] { t with
        pending := t.pending.erase id
        reports := t.reports ++ [.call p.call (.error error)] }
  | opened (alive : t.dead = none) (id : ℕ) : Effect js t [] { t with
      started := t.started ++ [id]
      streams := t.streams.set id t.started.length }
  | pushed {response : Json} {stream : ℕ} (valid : isResponse response = true)
      (h : t.streams.get? (idOf response) = some stream) (data : tagOf response ≠ "ok") :
      Effect js t [response] { t with
        reports := t.reports ++ [.inbox stream (.ok response)]
        streams := if isLast response then t.streams.erase (idOf response) else t.streams }
  /-- A response that nobody takes. -/
  | passed (response : Json) : Effect js t [response] t
  | dropped (id : ℕ) : Effect js t [] { t with streams := t.streams.erase id }
  | broken (stream : ℕ) (error : Fault) : Effect js t []
      { t with reports := t.reports ++ [.inbox stream (.error error)] }
  | queued (alive : t.dead = none) {request : Request}
      (fits : (js.stringify request.json).length ≤ t.maxFrame) : Effect js t [] { t with
        writes := t.writes ++ [⟨frameOf js request, .call request.id⟩]
        queued := t.queued ++ [request] }
  /-- An operation is asked for, and races. -/
  | raced (alive : t.dead = none) {request : Request}
      (fits : (js.stringify request.json).length ≤ t.maxFrame) {o : Operation}
      (number : o.op = t.operations) : Effect js t [] { t with
        operations := t.operations + 1
        writes := t.writes ++ [⟨frameOf js request, .operation o.op⟩]
        queued := t.queued ++ [request]
        racing := t.racing.set o.op o }
  | unsent {o : Operation} (number : o.op = t.operations) (error : Fault) :
      Effect js t [] { t with
        operations := t.operations + 1
        microtasks := t.microtasks ++ [.raced o (.error error)] }
  | returned (result : Except Fault Unit) : Effect js t [] { t with
      operations := t.operations + 1
      reports := t.reports ++ [.operation t.operations result] }
  | pumped (alive : t.dead = none) (free : t.writing = none) {job : WriteJob}
      {writes : List WriteJob} (h : t.writes = job :: writes) : Effect js t [] { t with
        writes
        writing := some job
        written := t.written ++ [job.frame] }
  | wrote {job : WriteJob} (h : t.writing = some job) :
      Effect js t [] (resolveJob { t with writing := none } job)
  | unwritten {job : WriteJob} (h : t.writing = some job) (error : Fault) :
      Effect js t [] (rejectJob error { t with writing := none } job)
  | settled (op : ℕ) (result : Except Fault Unit) : Effect js t [] (t.settle op result)
  | uncaught (id : ℕ) (error : Fault) : Effect js t []
      { t with microtasks := t.microtasks ++ [.caught id error] }
  | caught {id : ℕ} {error : Fault} {rest : List Microtask}
      (h : t.microtasks = .caught id error :: rest) : Effect js t [] { t with microtasks := rest }
  | finished {o : Operation} {result : Except Fault Unit} {rest : List Microtask}
      (h : t.microtasks = .raced o result :: rest) : Effect js t [] { t with
        microtasks := rest
        reports := t.reports ++ [.operation o.op result] }
  | died (alive : t.dead = none) (error : Fault) : Effect js t [] (t.fail error)
  | destroyed : Effect js t [] { t with destroyed := true }
  | limited {n : ℕ} (h : n ≤ Proto.maxFrame) : Effect js t [] { t with maxFrame := n }

/-- Parts, one after the other. -/
inductive Effects (js : Runtime) (t : UnixTransport) : List Json → UnixTransport → Prop
  | refl : Effects js t [] t
  | tail {responses more : List Json} {t' t'' : UnixTransport} : Effects js t responses t' →
      Effect js t' more t'' → Effects js t (responses ++ more) t''

variable {js : Runtime} {t t' t'' : UnixTransport} {responses more : List Json}

theorem Effect.one (h : Effect js t responses t') : Effects js t responses t' :=
  Effects.refl.tail h

theorem Effects.trans (h : Effects js t responses t') (h' : Effects js t' more t'') :
    Effects js t (responses ++ more) t'' := by
  induction h' with
  | refl => rwa [List.append_nil]
  | tail _ heffect ih =>
      rw [← List.append_assoc]
      exact ih.tail heffect

theorem Effects.quiet (h : Effects js t [] t') (h' : Effect js t' [] t'') : Effects js t [] t'' :=
  h.tail h'

/-- Settling touches the races and the microtasks, and nothing else. -/
theorem settle_eq (t : UnixTransport) (op : ℕ) (result : Except Fault Unit) :
    ∃ racing microtasks, t.settle op result = { t with racing, microtasks } := by
  unfold settle
  split
  · exact ⟨_, _, rfl⟩
  · exact ⟨_, _, rfl⟩

theorem rejectJob_eq (error : Fault) (t : UnixTransport) (job : WriteJob) :
    ∃ racing microtasks, rejectJob error t job = { t with racing, microtasks } := by
  unfold rejectJob
  split
  · exact ⟨_, _, rfl⟩
  · exact settle_eq t _ _

theorem resolveJob_eq (t : UnixTransport) (job : WriteJob) :
    ∃ racing microtasks, t.resolveJob job = { t with racing, microtasks } := by
  unfold resolveJob
  split
  · exact ⟨_, _, rfl⟩
  · exact settle_eq t _ _

section Keeps

-- A property that looks at neither the races nor the microtasks.
variable {P : UnixTransport → Prop} (h : ∀ racing microtasks, P { t with racing, microtasks })

include h

theorem settle_keeps (op : ℕ) (result : Except Fault Unit) : P (t.settle op result) := by
  obtain ⟨racing, microtasks, hsettle⟩ := settle_eq t op result
  rw [hsettle]
  exact h racing microtasks

theorem rejectJob_keeps (error : Fault) (job : WriteJob) : P (rejectJob error t job) := by
  obtain ⟨racing, microtasks, hjob⟩ := rejectJob_eq error t job
  rw [hjob]
  exact h racing microtasks

theorem resolveJob_keeps (job : WriteJob) : P (t.resolveJob job) := by
  obtain ⟨racing, microtasks, hjob⟩ := resolveJob_eq t job
  rw [hjob]
  exact h racing microtasks

end Keeps

theorem foldl_rejectJob_eq (error : Fault) (jobs : List WriteJob) (t : UnixTransport) :
    ∃ racing microtasks,
      jobs.foldl (rejectJob error) t = { t with racing, microtasks } := by
  induction jobs generalizing t with
  | nil => exact ⟨_, _, rfl⟩
  | cons job jobs ih =>
      obtain ⟨racing, microtasks, hjob⟩ := rejectJob_eq error t job
      rw [List.foldl_cons, hjob]
      exact ih _

/-- What is left of a transport that dies. -/
theorem fail_eq (alive : t.dead = none) (error : Fault) :
    ∃ racing microtasks, t.fail error = { t with
      dead := some (deathOf error)
      pending := .empty
      streams := .empty
      writes := []
      reports := t.reports ++
        t.pending.values.map (fun p => .call p.call (.error (deathOf error))) ++
          t.streams.values.map fun stream => .inbox stream (.error (deathOf error))
      racing
      microtasks } := by
  unfold fail
  rw [alive]
  exact foldl_rejectJob_eq _ _ _

theorem fail_dead (t : UnixTransport) (error : Fault) : (t.fail error).dead ≠ none := by
  cases hdead : t.dead with
  | none =>
      obtain ⟨racing, microtasks, hfail⟩ := fail_eq hdead error
      simp [hfail]
  | some dead => simp [fail, hdead]

theorem fail_effects (t : UnixTransport) (error : Fault) : Effects js t [] (t.fail error) := by
  cases hdead : t.dead with
  | none => exact (Effect.died hdead error).one
  | some dead =>
      rw [fail, hdead]
      exact .refl

theorem pumpWrites_effects (t : UnixTransport) : Effects js t [] t.pumpWrites := by
  rw [pumpWrites]
  split_ifs with hbusy
  · exact .refl
  · rw [Bool.or_eq_true, not_or, Option.not_isSome_iff_eq_none, Option.not_isSome_iff_eq_none]
      at hbusy
    split
    · exact .refl
    · rename_i hwrites
      exact (Effect.pumped hbusy.2 hbusy.1 hwrites).one

/-- What is sent is queued, of a size that the server takes. -/
theorem send_ok {sender : Sender} {request : Request}
    (h : t.send js sender request = .ok t') :
    t.dead = none ∧ (js.stringify request.json).length ≤ t.maxFrame ∧
      t' = pumpWrites { t with
        writes := t.writes ++ [⟨frameOf js request, sender⟩]
        queued := t.queued ++ [request] } := by
  unfold send at h
  split at h
  · cases h
  · rename_i hdead
    unfold encodeFrame at h
    dsimp only at h
    split_ifs at h with hlong
    exact ⟨hdead, not_lt.mp hlong, (Except.ok.inj h).symm⟩

theorem call_effects (t : UnixTransport) (request : Request) (timeoutMs : Double) :
    Effects js t [] (t.call js request timeoutMs) := by
  unfold call
  dsimp only
  split
  · exact (Effect.refused request.id _).one
  · rename_i hdead
    split_ifs with hflight
    · exact (Effect.refused request.id _).one
    · have hfree : t.pending.get? request.id = none := by
        rw [Bool.or_eq_true, not_or] at hflight
        exact Option.not_isSome_iff_eq_none.mp hflight.1
      have hpended : Effects js t [] _ := (Effect.pended hdead hfree timeoutMs).one
      split
      · rename_i hsend
        obtain ⟨halive, hfits, rfl⟩ := send_ok hsend
        exact (hpended.quiet (.queued halive hfits)).trans (pumpWrites_effects _)
      · exact hpended.quiet (.uncaught _ _)

/-- The timer of an operation may as well run from before its frame is written. -/
theorem pumpWrites_racing (t : UnixTransport) (o : Operation) :
    { t.pumpWrites with racing := t.pumpWrites.racing.set o.op o } =
      pumpWrites { t with racing := t.racing.set o.op o } := by
  unfold pumpWrites
  dsimp only
  split_ifs
  · rfl
  · split <;> rfl

theorem sendWithin_effects (t : UnixTransport) (steer : Steer) (request : Request)
    (timeoutMs : Double) : Effects js t [] (t.sendWithin js steer request timeoutMs) := by
  unfold sendWithin
  dsimp only
  split
  · rename_i hsend
    obtain ⟨halive, hfits, rfl⟩ := send_ok hsend
    rw [pumpWrites_racing _ ⟨t.operations, steer, request.id, timeoutMs⟩]
    have hraced := Effect.raced (t := t) halive hfits
      (o := ⟨t.operations, steer, request.id, timeoutMs⟩) rfl
    exact hraced.one.trans (pumpWrites_effects _)
  · exact (Effect.unsent rfl _).one

theorem dispatch_effects (responses : List Json) (t : UnixTransport) :
    ∃ seen, seen <+: responses ∧ Effects js t seen (t.dispatch responses) := by
  induction responses generalizing t with
  | nil => exact ⟨[], List.nil_prefix, .refl⟩
  | cons response responses ih =>
      rw [dispatch]
      by_cases hinvalid : (!isResponse response) = true
      · rw [if_pos hinvalid]
        exact ⟨[], List.nil_prefix, Effect.destroyed.one.trans (fail_effects _ _)⟩
      rw [if_neg hinvalid]
      have hvalid : isResponse response = true := by simpa using hinvalid
      have hnext : ∀ t', Effect js t [response] t' → ∃ seen, seen <+: response :: responses ∧
          Effects js t seen (t'.dispatch responses) := by
        intro t' heffect
        obtain ⟨seen, hseen, heffects⟩ := ih t'
        exact ⟨[response] ++ seen, List.cons_prefix_cons.mpr ⟨rfl, hseen⟩,
          heffect.one.trans heffects⟩
      dsimp only
      split
      · rename_i hstream
        by_cases hok : tagOf response = "ok"
        · rw [if_pos hok]
          exact hnext _ (.passed response)
        · rw [if_neg hok]
          exact hnext _ (.pushed hvalid hstream hok)
      · split
        · rename_i hpending
          exact hnext _ (.answered hvalid hpending)
        · exact hnext _ (.passed response)

theorem runMicrotask_effects {task : Microtask} {rest : List Microtask}
    (h : t.microtasks = task :: rest) :
    Effects js t [] ({ t with microtasks := rest }.runMicrotask task) := by
  cases task with
  | caught id error =>
      unfold runMicrotask
      dsimp only
      have hcaught : Effects js t [] { t with microtasks := rest } := (Effect.caught h).one
      split
      · exact hcaught
      · rename_i hpending
        exact hcaught.quiet (Effect.rejected (t := { t with microtasks := rest }) hpending error)
  | raced o result =>
      unfold runMicrotask
      dsimp only
      split
      · rename_i stream error hsteer
        have hbroken : Effects js t [] _ := ((Effect.dropped (t := t) o.id).one.quiet
          (.broken stream error)).quiet (.finished h)
        simpa using hbroken
      · exact (Effect.finished h).one

/-- What an event does, beside what its bytes are decoded to. -/
inductive Came (js : Runtime) (t : UnixTransport) (t' : UnixTransport) : Prop
  | quietly (h : Effects js t [] t')
  | fed (alive : t.dead = none) (chunk : Bytes) {decoded seen : List Json}
      {decoder : FrameDecoder} (hpush : t.decoder.push js.parse chunk = (.ok decoded, decoder))
      (hseen : seen <+: decoded)
      (h : Effects js { t with received := t.received ++ chunk, decoder } seen t')
  | choked (alive : t.dead = none) (chunk : Bytes) {thrown : Thrown} {decoder : FrameDecoder}
      (hpush : t.decoder.push js.parse chunk = (.error thrown, decoder))
      (h : Effects js { t with received := t.received ++ chunk, decoder } [] t')
      (dead : t'.dead ≠ none)

theorem receive_came (t : UnixTransport) (chunk : Bytes) : Came js t (t.receive js chunk) := by
  unfold receive
  split
  · exact .quietly .refl
  · rename_i hdead
    dsimp only
    split
    · rename_i hpush
      exact .choked hdead chunk hpush (Effect.destroyed.one.trans (fail_effects _ _))
        (fail_dead _ _)
    · rename_i decoded decoder hpush
      have hdispatch : ∃ seen, seen <+: decoded ∧ Effects js _ seen _ :=
        dispatch_effects decoded { t with received := t.received ++ chunk, decoder }
      obtain ⟨seen, hseen, heffects⟩ := hdispatch
      exact .fed hdead chunk hpush hseen heffects

theorem step_came {move : Move} (h : Step js t move t') : Came js t t' := by
  cases h with
  | call request timeoutMs => exact .quietly (call_effects _ _ _)
  | start id log from_ mode timeoutMs =>
      refine .quietly ?_
      unfold start
      split
      · exact (Effect.returned _).one
      · rename_i hdead
        exact (Effect.opened hdead id).one.trans (sendWithin_effects _ _ _ _)
  | grant id timeoutMs => exact .quietly (sendWithin_effects _ _ _ _)
  | cancel id timeoutMs =>
      refine .quietly ?_
      unfold cancel
      dsimp only
      split
      · exact (Effect.dropped id).one.quiet (.returned _)
      · exact (Effect.dropped id).one.trans (sendWithin_effects _ _ _ _)
  | close => exact .quietly ((fail_effects _ _).quiet .destroyed)
  | welcomed welcome =>
      have hclose : Effects js t [] t.close := (fail_effects _ _).quiet .destroyed
      refine .quietly ?_
      unfold welcomed
      split_ifs
      · exact hclose
      · split
        · exact hclose
        · split_ifs
          · exact (Effect.limited (Nat.min_le_right _ _)).one
          · exact hclose
  | microtask hrest => exact .quietly (runMicrotask_effects hrest)
  | data idle chunk => exact receive_came t chunk
  | error idle message => exact .quietly (fail_effects _ _)
  | hangup idle => exact .quietly (fail_effects _ _)
  | wrote idle hwriting error =>
      refine .quietly ?_
      unfold wrote
      dsimp only
      split
      · exact ((Effect.unwritten hwriting _).one.trans (fail_effects _ _)).trans
          (pumpWrites_effects _)
      · exact (Effect.wrote hwriting).one.trans (pumpWrites_effects _)
  | callTimer idle hpending => exact .quietly (Effect.rejected hpending _).one
  | operationTimer idle hracing =>
      exact .quietly ((Effect.destroyed.one.trans (fail_effects _ _)).quiet (.settled _ _))

/-- What holds of a new transport, does not look at the bytes that came, and is preserved by
every part of an event holds in every run. -/
theorem Reaches.always {P : UnixTransport → Prop} (hnew : P UnixTransport.new)
    (hreceived : ∀ t received decoder, P t → P { t with received, decoder })
    (heffect : ∀ {t t' : UnixTransport} {responses : List Json}, P t →
      Effect js t responses t' → P t') (h : Reaches js t) : P t := by
  have heffects : ∀ {t t' : UnixTransport} {responses : List Json}, P t →
      Effects js t responses t' → P t' := by
    intro t t' responses ht hparts
    induction hparts with
    | refl => exact ht
    | tail _ hpart ih => exact heffect ih hpart
  induction h with
  | new => exact hnew
  | step _ hstep ih =>
      cases step_came hstep with
      | quietly hparts => exact heffects ih hparts
      | fed alive chunk hpush hseen hparts => exact heffects (hreceived _ _ _ ih) hparts
      | choked alive chunk hpush hparts dead => exact heffects (hreceived _ _ _ ih) hparts

end UnixTransport

end Lug.Ts
