import Lug.Client.Conn

/-!
One exchange of a connection: from the command that opens it to the first event that ends
it, whatever the other exchanges do in between.
-/

namespace Lug.Client.Conn

variable {P Q : Type}

/-! ### What a schedule brings -/

/-- The id an event opens an exchange for. -/
def Event.opens : Event P Q → Option ℕ
  | .command (some (.call req)) => some req.id
  | .command (some (.stream req _ _)) => some req.id
  | _ => none

/-- The request an event asks to send. -/
def Event.asks : Event P Q → Option (Request Q)
  | .command (some (.call req)) => some req
  | .command (some (.stream req _ _)) => some req
  | .command (some (.fire req)) => some req
  | _ => none

/-- A frame for an exchange. -/
def Event.frameFor (id : ℕ) : Event P Q → Option (Response P)
  | .inbound (some frame) => if frame.id = id then some frame else none
  | _ => none

def Event.forgets (id : ℕ) : Event P Q → Bool
  | .command (some (.forget id')) => id' = id
  | _ => false

/-- The writer, the server or every handle is gone. -/
def Event.isDeath : Event P Q → Bool
  | .permit false | .command none | .inbound none => true
  | _ => false

def framesFor (id : ℕ) (es : List (Event P Q)) : List (Response P) :=
  es.filterMap (Event.frameFor id)

/-- Requests come with ids of their own. -/
def Distinct (es : List (Event P Q)) : Prop := (es.filterMap Event.opens).Nodup

/-- An event that neither forgets an exchange nor ends the connection. -/
def Event.spares (id : ℕ) (e : Event P Q) : Bool := !e.forgets id && !e.isDeath

/-- Nothing among these events ends a stream, its channel apart. -/
def Flows (id : ℕ) (es : List (Event P Q)) : Prop :=
  es.all (Event.spares id) ∧ (framesFor id es).all (!·.isFinal)

/-- Nothing among these events concerns a call. -/
def Waits (id : ℕ) (es : List (Event P Q)) : Prop :=
  es.all (Event.spares id) ∧ framesFor id es = []

/-- What has become of a call that was accepted before these events. -/
inductive CallFate (id : ℕ) (later : List (Event P Q)) (c : Conn P Q) : Prop
  | waiting : Waits id later → c.running = true → c.replies id = [] → CallFate id later c
  | answered (before : List (Event P Q)) (frame : Response P) (after : List (Event P Q)) :
      later = before ++ .inbound (some frame) :: after → Waits id before → frame.id = id →
      c.replies id = [unpack frame] → CallFate id later c
  | forgotten (before : List (Event P Q)) (e : Event P Q) (after : List (Event P Q)) :
      later = before ++ e :: after → Waits id before → e.forgets id = true →
      c.replies id = [] → CallFate id later c
  | disconnected (before : List (Event P Q)) (e : Event P Q) (after : List (Event P Q)) :
      later = before ++ e :: after → Waits id before → e.isDeath = true →
      c.replies id = [.error (.disconnected id)] → CallFate id later c

/-- What a channel got: what it held when the stream was accepted, and one answer for each
frame since. -/
def Handed (start : Conn P Q) (id : ℕ) (frames : List (Response P)) (c : Conn P Q) : Prop :=
  (c.sinks id).handed = (start.sinks id).handed ++ frames.map unpack

/-- What has become of a stream that was accepted before these events, `start` being the
connection then. -/
inductive StreamFate (cap : ℕ) (start : Conn P Q) (id : ℕ) (later : List (Event P Q))
    (c : Conn P Q) : Prop
  | flowing : Flows id later → c.running = true → c.waiters id = some .stream →
      Handed start id (framesFor id later) c → StreamFate cap start id later c
  | final (before : List (Event P Q)) (frame : Response P) (after : List (Event P Q)) :
      later = before ++ .inbound (some frame) :: after → Flows id before → frame.id = id →
      frame.isFinal = true → c.waiters id = none →
      Handed start id (framesFor id before ++ [frame]) c → StreamFate cap start id later c
  | forgotten (before : List (Event P Q)) (e : Event P Q) (after : List (Event P Q)) :
      later = before ++ e :: after → Flows id before → e.forgets id = true →
      c.waiters id = none → Handed start id (framesFor id before) c →
      StreamFate cap start id later c
  | refused (before : List (Event P Q)) (frame : Response P) (after : List (Event P Q))
      (full : Conn P Q) :
      later = before ++ .inbound (some frame) :: after → Flows id before → frame.id = id →
      start.exec cap before = some full → (full.sinks id).refuses = true →
      c.waiters id = none → (c.sinks id).overrun = true →
      Handed start id (framesFor id before) c → StreamFate cap start id later c
  | disconnected (before : List (Event P Q)) (e : Event P Q) (after : List (Event P Q))
      (last : Conn P Q) :
      later = before ++ e :: after → Flows id before → e.isDeath = true →
      start.exec cap before = some last → Handed start id (framesFor id before) last →
      c.waiters id = none →
      (c.sinks id).handed = ((last.sinks id).trySend (.error (.disconnected id))).handed →
      StreamFate cap start id later c

/-! ### One turn, seen by one exchange -/

variable {cap : ℕ} {c c' : Conn P Q} {id : ℕ} {e : Event P Q}

/-- Nothing happened to an exchange. -/
structure Same (id : ℕ) (c c' : Conn P Q) : Prop where
  waiter : c'.waiters id = c.waiters id
  replies : c'.replies id = c.replies id
  handed : (c'.sinks id).handed = (c.sinks id).handed
  overrun : (c'.sinks id).overrun = (c.sinks id).overrun

theorem Same.refl (id : ℕ) (c : Conn P Q) : Same id c c := ⟨rfl, rfl, rfl, rfl⟩

theorem Same.trans {c'' : Conn P Q} (h : Same id c c') (h' : Same id c' c'') : Same id c c'' :=
  ⟨h'.waiter.trans h.waiter, h'.replies.trans h.replies, h'.handed.trans h.handed,
    h'.overrun.trans h.overrun⟩

theorem same_setSink {id' : ℕ} {sink : Sink P} (hhanded : sink.handed = (c.sinks id').handed)
    (hoverrun : sink.overrun = (c.sinks id').overrun) : Same id c (c.setSink id' sink) := by
  refine ⟨rfl, rfl, ?_, ?_⟩
  · by_cases hid : id = id'
    · rw [hid, setSink]
      simp only [Function.update_self, hhanded]
    · rw [setSink]
      simp only [Function.update_of_ne hid]
  · by_cases hid : id = id'
    · rw [hid, setSink]
      simp only [Function.update_self, hoverrun]
    · rw [setSink]
      simp only [Function.update_of_ne hid]

theorem same_deliver_of_ne {frame : Response P} (h : frame.id ≠ id) :
    Same id c (c.deliver frame) := by
  have hne : id ≠ frame.id := Ne.symm h
  rw [deliver]
  split
  · exact Same.refl id c
  · exact ⟨Function.update_of_ne hne _ _, Function.update_of_ne hne _ _, rfl, rfl⟩
  · dsimp only
    split_ifs
    · exact ⟨Function.update_of_ne hne _ _, rfl,
        congrArg Sink.handed (Function.update_of_ne hne _ _),
        congrArg Sink.overrun (Function.update_of_ne hne _ _)⟩
    · exact ⟨Function.update_of_ne hne _ _, rfl,
        congrArg Sink.handed (Function.update_of_ne hne _ _),
        congrArg Sink.overrun (Function.update_of_ne hne _ _)⟩
    · exact ⟨rfl, rfl, congrArg Sink.handed (Function.update_of_ne hne _ _),
        congrArg Sink.overrun (Function.update_of_ne hne _ _)⟩

theorem same_accept {cmd : Command Q} (hopens : (Event.command (P := P) (some cmd)).opens ≠ some id)
    (hforgets : (Event.command (P := P) (some cmd)).forgets id = false) :
    Same id c (c.accept cmd) := by
  cases cmd with
  | call req =>
      have hne : id ≠ req.id := fun h => hopens (congrArg some h.symm)
      exact ⟨Function.update_of_ne hne _ _, rfl, rfl, rfl⟩
  | stream req capacity closed =>
      have hne : id ≠ req.id := fun h => hopens (congrArg some h.symm)
      exact ⟨Function.update_of_ne hne _ _, rfl,
        congrArg Sink.handed (Function.update_of_ne hne _ _),
        congrArg Sink.overrun (Function.update_of_ne hne _ _)⟩
  | fire req => exact ⟨rfl, rfl, rfl, rfl⟩
  | forget id' =>
      have hne : id ≠ id' := fun h => by simp [Event.forgets, h] at hforgets
      exact ⟨Function.update_of_ne hne _ _, rfl, rfl, rfl⟩

theorem step_death (h : c.step cap e = some c') (he : e.isDeath = true) : c' = c.finish := by
  cases e with
  | permit ok =>
      cases ok with
      | true => cases he
      | false =>
          rw [step] at h
          split at h
          · cases h
            rfl
          · cases h
  | command cmd =>
      cases cmd with
      | some cmd => cases he
      | none =>
          rw [step] at h
          split_ifs at h
          cases h
          rfl
  | inbound frame =>
      cases frame with
      | some frame => cases he
      | none =>
          rw [step] at h
          split_ifs at h
          cases h
          rfl
  | take id => cases he
  | close id => cases he

theorem step_command {cmd : Command Q} (h : c.step cap (.command (some cmd)) = some c') :
    c.running = true ∧ c.pending.length < cap ∧ c' = c.accept cmd := by
  rw [step] at h
  split_ifs at h with hguard
  cases h
  exact ⟨hguard.1, hguard.2, rfl⟩

theorem step_inbound {frame : Response P} (h : c.step cap (.inbound (some frame)) = some c') :
    c.running = true ∧ c' = c.deliver frame := by
  rw [step] at h
  split_ifs at h with hguard
  cases h
  exact ⟨hguard, rfl⟩

theorem step_permit (h : c.step cap (.permit true) = some c') :
    ∃ req pending, c.running = true ∧ c.pending = req :: pending ∧
      c' = { c with pending, sent := c.sent ++ [req] } := by
  rw [step] at h
  split at h
  · rename_i req pending hrunning hpending
    cases h
    exact ⟨req, pending, hrunning, hpending, rfl⟩
  · cases h

theorem running_deliver (c : Conn P Q) (frame : Response P) :
    (c.deliver frame).running = c.running := by
  rw [deliver]
  split
  · rfl
  · rfl
  · dsimp only
    split_ifs <;> rfl

theorem running_accept (c : Conn P Q) (cmd : Command Q) : (c.accept cmd).running = c.running := by
  cases cmd <;> rfl

/-- A turn that does not concern an exchange. -/
theorem step_apart (h : c.step cap e = some c') (hopens : e.opens ≠ some id)
    (hspares : e.spares id = true) (hframe : e.frameFor id = none) :
    Same id c c' ∧ c'.running = c.running := by
  rw [Event.spares, Bool.and_eq_true, Bool.not_eq_true', Bool.not_eq_true'] at hspares
  obtain ⟨hforgets, hdeath⟩ := hspares
  cases e with
  | permit ok =>
      cases ok with
      | false => cases hdeath
      | true =>
          obtain ⟨req, pending, hrunning, -, rfl⟩ := step_permit h
          exact ⟨⟨rfl, rfl, rfl, rfl⟩, rfl⟩
  | command cmd =>
      cases cmd with
      | none => cases hdeath
      | some cmd =>
          obtain ⟨-, -, rfl⟩ := step_command h
          exact ⟨same_accept hopens hforgets, running_accept c cmd⟩
  | inbound frame =>
      cases frame with
      | none => cases hdeath
      | some frame =>
          obtain ⟨-, rfl⟩ := step_inbound h
          have hne : frame.id ≠ id := fun hid => by simp [Event.frameFor, hid] at hframe
          exact ⟨same_deliver_of_ne hne, running_deliver c frame⟩
  | take id' =>
      rw [step] at h
      split_ifs at h
      cases h
      exact ⟨same_setSink rfl rfl, rfl⟩
  | close id' =>
      cases h
      exact ⟨same_setSink rfl rfl, rfl⟩

theorem of_forgets (h : e.forgets id = true) : e = .command (some (.forget id)) := by
  cases e with
  | command cmd =>
      cases cmd with
      | none => cases h
      | some cmd =>
          cases cmd with
          | forget id' => rw [of_decide_eq_true h]
          | call req => cases h
          | stream req capacity closed => cases h
          | fire req => cases h
  | permit ok => cases h
  | inbound frame => cases h
  | take id' => cases h
  | close id' => cases h

theorem of_frameFor {frame : Response P} (h : e.frameFor id = some frame) :
    e = .inbound (some frame) ∧ frame.id = id := by
  cases e with
  | inbound frame' =>
      cases frame' with
      | none => cases h
      | some frame' =>
          rw [Event.frameFor] at h
          split_ifs at h with hid
          cases h
          exact ⟨rfl, hid⟩
  | permit ok => cases h
  | command cmd => cases h
  | take id' => cases h
  | close id' => cases h

/-- A turn does nothing to an exchange that is over, or not open yet. -/
theorem step_absent (h : c.step cap e = some c') (hopens : e.opens ≠ some id)
    (hnone : c.waiters id = none) : Same id c c' := by
  by_cases hdeath : e.isDeath = true
  · rw [step_death h hdeath]
    exact ⟨hnone.symm, by simp [finish, hnone], by simp [finish, hnone], by simp [finish, hnone]⟩
  by_cases hforgets : e.forgets id = true
  · rw [of_forgets hforgets] at h
    obtain ⟨-, -, rfl⟩ := step_command h
    exact ⟨by rw [hnone]; exact Function.update_self _ _ _, rfl, rfl, rfl⟩
  cases hframe : e.frameFor id with
  | none =>
      refine (step_apart h hopens ?_ hframe).1
      simp [Event.spares, hdeath, hforgets]
  | some frame =>
      obtain ⟨rfl, hid⟩ := of_frameFor hframe
      obtain ⟨-, rfl⟩ := step_inbound h
      rw [← hid] at hnone
      rw [deliver, hnone]
      exact Same.refl id c

/-! ### Whole schedules -/

variable {es later : List (Event P Q)} {start : Conn P Q}

theorem exec_append (es es' : List (Event P Q)) :
    c.exec cap (es ++ es') = (c.exec cap es).bind fun c => c.exec cap es' := by
  induction es generalizing c with
  | nil => rfl
  | cons e es ih =>
      rw [List.cons_append, exec, exec, Option.bind_assoc]
      congr 1
      funext c'
      exact ih

theorem exec_cons (h : c.exec cap (e :: es) = some c') :
    ∃ next, c.step cap e = some next ∧ next.exec cap es = some c' :=
  Option.bind_eq_some_iff.mp h

theorem fresh_cons (h : id ∉ (e :: es).filterMap Event.opens) :
    e.opens ≠ some id ∧ id ∉ es.filterMap Event.opens := by
  constructor
  · intro he
    exact h (List.mem_filterMap.mpr ⟨e, List.mem_cons_self, he⟩)
  · intro hmem
    obtain ⟨e', he', hid⟩ := List.mem_filterMap.mp hmem
    exact h (List.mem_filterMap.mpr ⟨e', List.mem_cons_of_mem _ he', hid⟩)

theorem exec_absent (h : start.exec cap later = some c) (hnone : start.waiters id = none)
    (hopens : id ∉ later.filterMap Event.opens) : Same id start c := by
  induction later generalizing start with
  | nil =>
      cases h
      exact Same.refl id _
  | cons e later ih =>
      obtain ⟨next, hstep, hrest⟩ := exec_cons h
      obtain ⟨hhere, hthere⟩ := fresh_cons hopens
      have hsame := step_absent hstep hhere hnone
      exact hsame.trans (ih hrest (hsame.waiter.trans hnone) hthere)

theorem CallFate.behind (h : CallFate id later c) (hspares : e.spares id = true)
    (hframe : e.frameFor id = none) : CallFate id (e :: later) c := by
  have hwaits : ∀ {es}, Waits id es → Waits id (e :: es) := fun hes =>
    ⟨by rw [List.all_cons, hspares, hes.1]; rfl,
      by rw [framesFor, List.filterMap_cons, hframe]; exact hes.2⟩
  cases h with
  | waiting hall hrunning hreplies => exact .waiting (hwaits hall) hrunning hreplies
  | answered before frame after heq hbefore hid hreplies =>
      exact .answered (e :: before) frame after (by rw [heq]; rfl) (hwaits hbefore) hid hreplies
  | forgotten before e' after heq hbefore hforgets hreplies =>
      exact .forgotten (e :: before) e' after (by rw [heq]; rfl) (hwaits hbefore) hforgets hreplies
  | disconnected before e' after heq hbefore hdeath hreplies =>
      exact .disconnected (e :: before) e' after (by rw [heq]; rfl) (hwaits hbefore) hdeath
        hreplies

/-- A call is over with the first event that concerns it. -/
theorem call_fate (h : start.exec cap later = some c) (hwaiter : start.waiters id = some .call)
    (hrunning : start.running = true) (hreplies : start.replies id = [])
    (hopens : id ∉ later.filterMap Event.opens) : CallFate id later c := by
  have hnil : Waits id ([] : List (Event P Q)) := ⟨rfl, rfl⟩
  induction later generalizing start with
  | nil =>
      cases h
      exact .waiting hnil hrunning hreplies
  | cons e later ih =>
      obtain ⟨next, hstep, hrest⟩ := exec_cons h
      obtain ⟨hhere, hthere⟩ := fresh_cons hopens
      by_cases hdeath : e.isDeath = true
      · have hnext := step_death hstep hdeath
        have hnone : next.waiters id = none := by rw [hnext]; rfl
        have hsame := exec_absent hrest hnone hthere
        refine .disconnected [] e later rfl hnil hdeath ?_
        rw [hsame.replies, hnext]
        simp [finish, hwaiter, hreplies]
      by_cases hforgets : e.forgets id = true
      · refine .forgotten [] e later rfl hnil hforgets ?_
        rw [of_forgets hforgets] at hstep
        obtain ⟨-, -, rfl⟩ := step_command hstep
        rw [(exec_absent hrest (Function.update_self _ _ _) hthere).replies]
        exact hreplies
      cases hframe : e.frameFor id with
      | some frame =>
          obtain ⟨rfl, rfl⟩ := of_frameFor hframe
          obtain ⟨-, rfl⟩ := step_inbound hstep
          refine .answered [] frame later rfl hnil rfl ?_
          have hdeliver : start.deliver frame =
              (start.remove frame.id).reply frame.id (unpack frame) := by
            rw [deliver, hwaiter]
          rw [hdeliver] at hrest
          rw [(exec_absent hrest (Function.update_self _ _ _) hthere).replies]
          show Function.update start.replies frame.id (start.replies frame.id ++ _) frame.id = _
          rw [Function.update_self, hreplies]
          rfl
      | none =>
          have hspares : e.spares id = true := by simp [Event.spares, hdeath, hforgets]
          obtain ⟨hsame, hstill⟩ := step_apart hstep hhere hspares hframe
          exact (ih hrest (hsame.waiter.trans hwaiter) (hstill.trans hrunning)
            (hsame.replies.trans hreplies) hthere).behind hspares hframe

theorem flows_cons {frames : List (Response P)} (hspares : e.spares id = true)
    (hframe : (e.frameFor id).toList = frames) (hfinal : frames.all (!·.isFinal))
    (h : Flows id es) :
    Flows id (e :: es) ∧ framesFor id (e :: es) = frames ++ framesFor id es := by
  have hcons : framesFor id (e :: es) = frames ++ framesFor id es := by
    rw [framesFor, List.filterMap_cons, ← hframe]
    cases e.frameFor id with
    | none => rfl
    | some frame => rfl
  refine ⟨⟨by rw [List.all_cons, hspares, h.1]; rfl, ?_⟩, hcons⟩
  rw [hcons, List.all_append, hfinal, h.2]
  rfl

theorem Handed.behind {next : Conn P Q} {frames frames' : List (Response P)}
    (h : Handed next id frames' c) (hnext : Handed start id frames next) :
    Handed start id (frames ++ frames') c := by
  rw [Handed] at *
  rw [h, hnext, List.map_append, List.append_assoc]

/-- A stream that goes on behind an event has the fate it has from there. -/
theorem StreamFate.behind {next : Conn P Q} {frames : List (Response P)}
    (h : StreamFate cap next id later c) (hstep : start.step cap e = some next)
    (hspares : e.spares id = true) (hframe : (e.frameFor id).toList = frames)
    (hfinal : frames.all (!·.isFinal)) (hnext : Handed start id frames next) :
    StreamFate cap start id (e :: later) c := by
  have hexec : ∀ {before last}, next.exec cap before = some last →
      start.exec cap (e :: before) = some last := fun hlast => by
    rw [exec, hstep]
    exact hlast
  cases h with
  | flowing hall hrunning hwaiter hhanded =>
      obtain ⟨hflows, hframes⟩ := flows_cons hspares hframe hfinal hall
      exact .flowing hflows hrunning hwaiter (by rw [hframes]; exact hhanded.behind hnext)
  | final before frame after heq hbefore hid hlast hwaiter hhanded =>
      obtain ⟨hflows, hframes⟩ := flows_cons hspares hframe hfinal hbefore
      refine .final (e :: before) frame after (by rw [heq]; rfl) hflows hid hlast hwaiter ?_
      rw [hframes, List.append_assoc]
      exact hhanded.behind hnext
  | forgotten before e' after heq hbefore hforgets hwaiter hhanded =>
      obtain ⟨hflows, hframes⟩ := flows_cons hspares hframe hfinal hbefore
      refine .forgotten (e :: before) e' after (by rw [heq]; rfl) hflows hforgets hwaiter ?_
      rw [hframes]
      exact hhanded.behind hnext
  | refused before frame after full heq hbefore hid hfull hrefuses hwaiter hoverrun hhanded =>
      obtain ⟨hflows, hframes⟩ := flows_cons hspares hframe hfinal hbefore
      refine .refused (e :: before) frame after full (by rw [heq]; rfl) hflows hid (hexec hfull)
        hrefuses hwaiter hoverrun ?_
      rw [hframes]
      exact hhanded.behind hnext
  | disconnected before e' after last heq hbefore hdeath hlast hhanded hwaiter herror =>
      obtain ⟨hflows, hframes⟩ := flows_cons hspares hframe hfinal hbefore
      refine .disconnected (e :: before) e' after last (by rw [heq]; rfl) hflows hdeath
        (hexec hlast) ?_ hwaiter herror
      rw [hframes]
      exact hhanded.behind hnext

theorem handed_nil (start : Conn P Q) (id : ℕ) : Handed start id [] start :=
  (List.append_nil _).symm

/-- A frame its channel refuses ends a stream. -/
theorem deliver_refused {frame : Response P} (h : c.waiters frame.id = some .stream)
    (hrefuses : (c.sinks frame.id).refuses = true) :
    c.deliver frame =
      (c.setSink frame.id { c.sinks frame.id with overrun := true }).remove frame.id := by
  rw [deliver, h]
  exact if_pos hrefuses

theorem deliver_handed {frame : Response P} (h : c.waiters frame.id = some .stream)
    (hrefuses : ¬ (c.sinks frame.id).refuses = true) :
    Handed c frame.id [frame] (c.deliver frame) ∧
      (c.deliver frame).waiters frame.id =
        if frame.isFinal = true then none else some .stream := by
  have hsend : (c.sinks frame.id).trySend (unpack frame) =
      { c.sinks frame.id with handed := (c.sinks frame.id).handed ++ [unpack frame] } :=
    if_neg hrefuses
  have hdeliver : c.deliver frame =
      if frame.isFinal then
        (c.setSink frame.id ((c.sinks frame.id).trySend (unpack frame))).remove frame.id
      else c.setSink frame.id ((c.sinks frame.id).trySend (unpack frame)) := by
    rw [deliver, h]
    exact if_neg hrefuses
  have hhanded : Handed c frame.id [frame]
      (c.setSink frame.id ((c.sinks frame.id).trySend (unpack frame))) := by
    rw [Handed, setSink, hsend]
    simp only [Function.update_self]
    rfl
  rw [hdeliver]
  split_ifs
  · exact ⟨hhanded, Function.update_self _ _ _⟩
  · exact ⟨hhanded, h⟩

/-- A stream sees its frames, and no others, until something ends it. -/
theorem stream_fate (h : start.exec cap later = some c)
    (hwaiter : start.waiters id = some .stream) (hrunning : start.running = true)
    (hopens : id ∉ later.filterMap Event.opens) : StreamFate cap start id later c := by
  have hnil : Flows id ([] : List (Event P Q)) := ⟨rfl, rfl⟩
  induction later generalizing start with
  | nil =>
      cases h
      exact .flowing hnil hrunning hwaiter (handed_nil _ id)
  | cons e later ih =>
      obtain ⟨next, hstep, hrest⟩ := exec_cons h
      obtain ⟨hhere, hthere⟩ := fresh_cons hopens
      by_cases hdeath : e.isDeath = true
      · have hnext := step_death hstep hdeath
        have hnone : next.waiters id = none := by rw [hnext]; rfl
        have hsame := exec_absent hrest hnone hthere
        refine .disconnected [] e later start rfl hnil hdeath rfl (handed_nil start id)
          (by rw [hsame.waiter, hnext]; rfl) ?_
        rw [hsame.handed, hnext]
        simp [finish, hwaiter]
      by_cases hforgets : e.forgets id = true
      · rw [of_forgets hforgets] at hstep
        obtain ⟨-, -, rfl⟩ := step_command hstep
        have hnone : (start.accept (.forget id)).waiters id = none := Function.update_self _ _ _
        have hsame := exec_absent hrest hnone hthere
        refine .forgotten [] e later rfl hnil hforgets (hsame.waiter.trans hnone) ?_
        exact hsame.handed.trans (List.append_nil _).symm
      have hspares : e.spares id = true := by simp [Event.spares, hdeath, hforgets]
      cases hframe : e.frameFor id with
      | none =>
          obtain ⟨hsame, hstill⟩ := step_apart hstep hhere hspares hframe
          have hlater := ih hrest (hsame.waiter.trans hwaiter) (hstill.trans hrunning) hthere
          have hnone : (e.frameFor id).toList = [] := by rw [hframe]; rfl
          exact hlater.behind hstep hspares hnone rfl
            (hsame.handed.trans (List.append_nil _).symm)
      | some frame =>
          have hframes : (e.frameFor id).toList = [frame] := by rw [hframe]; rfl
          obtain ⟨rfl, rfl⟩ := of_frameFor hframe
          have hnext := (step_inbound hstep).2
          by_cases hrefuses : (start.sinks frame.id).refuses = true
          · rw [hnext, deliver_refused hwaiter hrefuses] at hrest
            have hsame := exec_absent hrest (Function.update_self _ _ _) hthere
            refine .refused [] frame later start rfl hnil rfl rfl hrefuses
              (hsame.waiter.trans (Function.update_self _ _ _)) ?_ ?_
            · rw [hsame.overrun]
              show (Function.update start.sinks frame.id _ frame.id).overrun = true
              rw [Function.update_self]
            · refine hsame.handed.trans ?_
              show (Function.update start.sinks frame.id _ frame.id).handed = _
              rw [Function.update_self]
              exact (List.append_nil _).symm
          obtain ⟨hhanded, hstays⟩ := deliver_handed hwaiter hrefuses
          rw [← hnext] at hhanded hstays
          by_cases hfinal : frame.isFinal = true
          · rw [if_pos hfinal] at hstays
            have hsame := exec_absent hrest hstays hthere
            exact .final [] frame later rfl hnil rfl hfinal (hsame.waiter.trans hstays)
              (hsame.handed.trans hhanded)
          · rw [if_neg hfinal] at hstays
            have hstill : next.running = true := by
              rw [hnext, running_deliver]
              exact hrunning
            exact (ih hrest hstays hstill hthere).behind hstep hspares hframes
              (by simp [hfinal]) hhanded

end Lug.Client.Conn
