import Lug.Client.Http

/-!
What a refused `Credit` or `Cancel` does to the connection it was made on: over HTTP it
is a failed call, and a failed call is a failed connection.
-/

namespace Lug.Client.Http

open Lug.Server

/-- The server has the session a steering call names, and the stream in it. -/
def Wire.Finds (w : Wire) (id : ℕ) (name : Option ℕ) : Prop :=
  ∃ n f s, w.session name = some (n, f, s) ∧ (s.streams.lookup id).isSome

/-- A `Credit` or a `Cancel` is handled while its stream is open, under the session the
stream announced in time. -/
def Steered (w : Wire) : Move → Prop
  | .handle k => ∀ call name, w.calls[k]? = some call → call.stage = .posting name →
      needsSession call.request = true → w.Finds (idOf call.request) name
  | _ => True

/-- A call that was made for this exchange and was refused. -/
def Wire.Refused (w : Wire) (id : ℕ) : Prop :=
  ∃ call ∈ w.calls, idOf call.request = id ∧
    ∃ e, call.stage = .answered (.error e) ∨ call.stage = .done (.error e)

/-- The connection goes on, and no exchange was failed or cut off that was not itself
steered in vain. -/
structure Wire.Isolated (w : Wire) : Prop where
  running : w.hub.running = true
  pumping : w.pumping = true
  failed : ∀ id ∈ w.hub.failed, w.Refused id
  feeds : ∀ feed ∈ w.feeds, feed.running = true ∨ w.Refused feed.id

/-! ### What every move keeps -/

/-- No call was refused. -/
structure Wire.Calm (w : Wire) : Prop where
  running : w.hub.running = true
  pumping : w.pumping = true
  alive : w.dead = false
  failed : w.hub.failed = []
  feeds : ∀ feed ∈ w.feeds, feed.running = true
  calls : ∀ call ∈ w.calls, ∀ e, call.stage ≠ .answered (.error e)

variable {w w' : Wire} {move : Move}

theorem Wire.Calm.undisturbed (h : w.Calm) : w.Isolated := by
  refine ⟨h.running, h.pumping, fun id hid => ?_, fun feed hfeed => .inl (h.feeds feed hfeed)⟩
  rw [h.failed] at hid
  cases hid

namespace Hub

theorem accept_frame (h : Hub) (command : Command) :
    (h.accept command).running = h.running ∧ (h.accept command).failed = h.failed := by
  cases command <;> exact ⟨rfl, rfl⟩

theorem deliver_frame (h : Hub) (full : Bool) (frame : Response) :
    (h.deliver full frame).running = h.running ∧ (h.deliver full frame).failed = h.failed := by
  rw [deliver]
  split
  · exact ⟨rfl, rfl⟩
  · exact ⟨rfl, rfl⟩
  · split <;> exact ⟨rfl, rfl⟩

end Hub

namespace Wire

theorem mem_setFeed {k : ℕ} {f feed : Feed} (h : feed ∈ (w.setFeed k f).feeds) :
    feed ∈ w.feeds ∨ feed = f := List.mem_or_eq_of_mem_set h

theorem mem_setCall {k : ℕ} {c call : Call} (h : call ∈ (w.setCall k c).calls) :
    call ∈ w.calls ∨ call = c := List.mem_or_eq_of_mem_set h

/-- A session that is known stands in a feed that is. -/
theorem feed_of_session {name : Option ℕ} {n : ℕ} {f : Feed} {s : Server.Session}
    (h : w.session name = some (n, f, s)) : f ∈ w.feeds := by
  cases name with
  | none => cases h
  | some m =>
      rw [session] at h
      cases hfeed : w.feeds[m]? with
      | none => simp [hfeed] at h
      | some feed =>
          cases hsession : feed.session with
          | none => simp [hfeed, hsession] at h
          | some s' =>
              simp [hfeed, hsession] at h
              obtain ⟨-, rfl, -⟩ := h
              exact List.mem_of_getElem? hfeed

/-- A steering call is answered from one session, and touches no other feed. -/
theorem steer_frame (id : ℕ) (name : Option ℕ)
    (act : Server.Session → Except Failure Server.Session) (reply : Body) :
    ∃ feeds, (w.steer id name act reply).2 = { w with feeds } ∧
      ((∀ feed ∈ w.feeds, feed.running = true) → ∀ feed ∈ feeds, feed.running = true) := by
  rw [steer]
  cases hsession : w.session name with
  | none => exact ⟨w.feeds, rfl, fun h => h⟩
  | some found =>
      obtain ⟨n, f, s⟩ := found
      dsimp only
      cases act s with
      | error e => exact ⟨w.feeds, rfl, fun h => h⟩
      | ok s' =>
          refine ⟨_, rfl, fun h feed hfeed => ?_⟩
          cases mem_setFeed (w := w) hfeed with
          | inl hold => exact h feed hold
          | inr hnew =>
              rw [hnew]
              exact h f (feed_of_session hsession)

theorem handle_frame (request : Request) (name : Option ℕ) (answered : Body) :
    ∃ feeds, (w.handle request name answered).2 = { w with feeds } ∧
      ((∀ feed ∈ w.feeds, feed.running = true) → ∀ feed ∈ feeds, feed.running = true) := by
  cases request with
  | credit id credit => exact steer_frame id name _ .ok
  | cancel id => exact steer_frame id name _ .ended
  | subscribe | other => exact ⟨w.feeds, rfl, fun h => h⟩

/-- A steering call that finds its stream is answered as it should be. -/
theorem steer_ok {id : ℕ} {name : Option ℕ}
    {act : Server.Session → Except Failure Server.Session} {reply : Body} (hfinds : w.Finds id name)
    (hact : ∀ s : Server.Session, (s.streams.lookup id).isSome → ∃ s', act s = .ok s') :
    (w.steer id name act reply).1 = .ok reply := by
  obtain ⟨n, f, s, hsession, hopen⟩ := hfinds
  obtain ⟨s', hs'⟩ := hact s hopen
  rw [steer, hsession]
  dsimp only
  rw [hs']

theorem handle_ok {request : Request} {name : Option ℕ} (answered : Body)
    (hfinds : needsSession request = true → w.Finds (idOf request) name) :
    ∃ reply, (w.handle request name answered).1 = .ok reply := by
  cases request with
  | credit id credit =>
      refine ⟨.ok, steer_ok (hfinds rfl) fun s hopen => ?_⟩
      obtain ⟨k, hk⟩ := Option.isSome_iff_exists.mp hopen
      rw [Server.Session.grant, hk]
      exact ⟨_, rfl⟩
  | cancel id =>
      refine ⟨.ended, steer_ok (hfinds rfl) fun s hopen => ?_⟩
      obtain ⟨k, hk⟩ := Option.isSome_iff_exists.mp hopen
      rw [Server.Session.cancel, hk]
      exact ⟨_, rfl⟩
  | subscribe | other => exact ⟨answered, rfl⟩

/-- A call moves on, and is not refused. -/
theorem Calm.setCall (h : w.Calm) {k : ℕ} {c : Call} (hc : ∀ e, c.stage ≠ .answered (.error e)) :
    (w.setCall k c).Calm := by
  refine ⟨h.running, h.pumping, h.alive, h.failed, h.feeds, fun call hcall => ?_⟩
  cases mem_setCall hcall with
  | inl hold => exact h.calls call hold
  | inr hnew => exact hnew ▸ hc

theorem Calm.setFeed (h : w.Calm) {k : ℕ} {f : Feed} (hf : f.running = true) :
    (w.setFeed k f).Calm := by
  refine ⟨h.running, h.pumping, h.alive, h.failed, fun feed hfeed => ?_, h.calls⟩
  cases mem_setFeed hfeed with
  | inl hold => exact h.feeds feed hold
  | inr hnew => exact hnew ▸ hf

theorem Calm.step (h : w.Calm) (hs : Step w move w') (hsteered : Steered w move) : w'.Calm := by
  cases hs with
  | command live command =>
      obtain ⟨hrunning, hfailed⟩ := w.hub.accept_frame command
      exact ⟨hrunning.trans h.running, h.pumping, h.alive, hfailed.trans h.failed, h.feeds, h.calls⟩
  | send live pumping hpending => exact ⟨h.running, h.pumping, h.alive, h.failed, h.feeds, h.calls⟩
  | subscribe pumping hout =>
      refine ⟨h.running, h.pumping, h.alive, h.failed, fun feed hfeed => ?_, h.calls⟩
      cases List.mem_append.mp hfeed with
      | inl hold => exact h.feeds feed hold
      | inr hnew => rw [List.mem_singleton.mp hnew]
  | @spawn request rest pumping hout other =>
      refine ⟨h.running, h.pumping, h.alive, h.failed, h.feeds, fun call hcall => ?_⟩
      cases List.mem_append.mp hcall with
      | inl hold => exact h.calls call hold
      | inr hnew =>
          rw [List.mem_singleton.mp hnew]
          intro e
          dsimp only
          split <;> exact nofun
  | announced hk hcall hfound => exact h.setCall nofun
  | expired hk hcall => exact h.setCall nofun
  | @«open» k feed hk live hnew found answered => exact h.setFeed live
  | @work k feed s s' move hk hfeed own hmove =>
      exact h.setFeed (h.feeds feed (List.mem_of_getElem? hk))
  | @handle k call name hk hcall answered =>
      obtain ⟨reply, hreply⟩ := handle_ok answered fun hneeds =>
        hsteered call name hk hcall hneeds
      obtain ⟨feeds, hw, hfeeds⟩ := w.handle_frame call.request name answered
      rw [hreply, hw]
      have hcalm : Calm { w with feeds } :=
        ⟨h.running, h.pumping, h.alive, h.failed, hfeeds h.feeds, h.calls⟩
      exact hcalm.setCall nofun
  | @answer k call reply hk hcall =>
      have hcalm := h.setCall (k := k) (c := { call with stage := .done (.ok reply) }) nofun
      exact ⟨hcalm.running, hcalm.pumping, hcalm.alive, hcalm.failed, hcalm.feeds, hcalm.calls⟩
  | @refused k call e hk hcall =>
      exact absurd hcall (h.calls call (List.mem_of_getElem? hk) e)
  | @read k feed s r hk live hfeed hr =>
      have hcalm := h.setFeed (k := k) (f := { feed with read := feed.read + 1 }) live
      exact ⟨hcalm.running, hcalm.pumping, hcalm.alive, hcalm.failed, hcalm.feeds, hcalm.calls⟩
  | @deliver r rest live hin full =>
      obtain ⟨hrunning, hfailed⟩ := w.hub.deliver_frame full r
      exact ⟨hrunning.trans h.running, h.pumping, h.alive, hfailed.trans h.failed, h.feeds, h.calls⟩
  | stop hdead =>
      rw [h.alive] at hdead
      cases hdead
  | drop hdead hk =>
      rw [h.alive] at hdead
      cases hdead
  | @hangUp k feed hk gone =>
      rw [h.feeds feed (List.mem_of_getElem? hk)] at gone
      cases gone
  | disconnect live gone _ =>
      rw [h.pumping] at gone
      cases gone

end Wire

/-! ### What a refusal does -/

namespace Wire

/-- The answer to a call that was refused has been read. -/
def Failing (w : Wire) : Prop := ∃ call ∈ w.calls, ∃ e, call.stage = .done (.error e)

theorem failing_setCall {k : ℕ} {c call : Call} (hk : w.calls[k]? = some call)
    (hcall : ∀ e, call.stage ≠ .done (.error e)) (hc : ∀ e, c.stage ≠ .done (.error e)) :
    (w.setCall k c).Failing ↔ w.Failing := by
  constructor
  · rintro ⟨failed, hmem, e, hfailed⟩
    cases mem_setCall hmem with
    | inl hold => exact ⟨failed, hold, e, hfailed⟩
    | inr hnew => exact absurd hfailed (hnew ▸ hc e)
  · rintro ⟨failed, hmem, e, hfailed⟩
    obtain ⟨j, hj⟩ := List.mem_iff_getElem?.mp hmem
    have hne : k ≠ j := by
      rintro rfl
      rw [hk] at hj
      cases hj
      exact hcall e hfailed
    exact ⟨failed, List.mem_iff_getElem?.mpr ⟨j, (List.getElem?_set_ne hne).trans hj⟩, e, hfailed⟩

theorem failing_step (h : w.dead = true ↔ w.Failing) (hs : Step w move w') :
    w'.dead = true ↔ w'.Failing := by
  cases hs with
  | @spawn request rest pumping hout other =>
      refine h.trans ⟨?_, ?_⟩
      · rintro ⟨call, hmem, hfailed⟩
        exact ⟨call, List.mem_append_left _ hmem, hfailed⟩
      · rintro ⟨call, hmem, e, hfailed⟩
        cases List.mem_append.mp hmem with
        | inl hold => exact ⟨call, hold, e, hfailed⟩
        | inr hnew =>
            rw [List.mem_singleton.mp hnew] at hfailed
            dsimp only at hfailed
            split at hfailed <;> cases hfailed
  | announced hk hcall hfound =>
      exact h.trans (failing_setCall hk (by simp [hcall]) (by simp)).symm
  | expired hk hcall => exact h.trans (failing_setCall hk (by simp [hcall]) (by simp)).symm
  | @handle k call name hk hcall answered =>
      obtain ⟨feeds, hw, -⟩ := w.handle_frame call.request name answered
      rw [hw]
      exact h.trans (failing_setCall (w := { w with feeds }) hk (by simp [hcall])
        (by simp)).symm
  | answer hk hcall => exact h.trans (failing_setCall hk (by simp [hcall]) (by simp)).symm
  | @refused k call e hk hcall =>
      have hset : (w.calls.set k { call with stage := .done (.error e) })[k]? =
          some { call with stage := .done (.error e) } :=
        List.getElem?_set_self (List.getElem?_eq_some_iff.mp hk).1
      exact ⟨fun _ => ⟨_, List.mem_of_getElem? hset, e, rfl⟩, fun _ => rfl⟩
  | _ => exact h

end Wire

/-- The connection is given up when, and only when, a call was refused. -/
theorem Reaches.dead_iff {Meets : Wire → Move → Prop} (h : Reaches Meets w) :
    w.dead = true ↔ w.Failing := by
  induction h with
  | start => exact ⟨nofun, fun ⟨_, hmem, _⟩ => nomatch hmem⟩
  | step _ hs _ ih => exact Wire.failing_step ih hs

/-- And then every exchange can be failed, whatever it was steered by. -/
theorem Reaches.disconnects (h : Reaches (fun _ _ => True) w) (hdead : w.dead = true)
    (live : w.hub.running = true) : ∃ w', Reaches (fun _ _ => True) w' ∧
      ∀ e ∈ w.hub.waiters, e.1 ∈ w'.hub.failed := by
  have hstopped := (h.step (.command live (.fire (.other 0))) trivial).step (.stop hdead) trivial
  refine ⟨_, hstopped.step (.disconnect live rfl (.inl ?_)) trivial, fun e he => ?_⟩
  · exact List.append_ne_nil_of_right_ne_nil _ nofun
  · exact List.mem_append_right _ (List.mem_map_of_mem he)

/-! ### The claim on the wire -/

/-- As long as every steering call finds its stream, no exchange is failed or cut off. -/
theorem Reaches.steering_isolated (h : Reaches Steered w) : w.Isolated := by
  have hcalm : w.Calm := by
    induction h with
    | start => exact ⟨rfl, rfl, rfl, rfl, nofun, nofun⟩
    | step _ hs hsteered ih => exact ih.step hs hsteered
  exact hcalm.undisturbed

theorem length_noRecord : ([] : List Entry).length ≤ 1 := Nat.zero_le 1

/-- What a stream sees of a log without records. -/
def noRecord : Shared := ⟨⟨1, [], Nat.one_pos, length_noRecord⟩, 0, 1, ⟨0, 0, 0⟩⟩

/-- Credit for a stream that is open. -/
theorem steered_once : ∃ w, Reaches Steered w ∧ w.inbound = [⟨1, .welcome⟩, ⟨1, .ok⟩] ∧
    w.Isolated := by
  have h₀ : Reaches Steered .new := .start
  have h₁ := h₀.step (.command rfl (.stream (.subscribe 1 0 .records 1))) trivial
  have h₂ := (h₁.step (.send rfl rfl rfl) trivial).step (.subscribe rfl rfl) trivial
  have h₃ := h₂.step (.open (k := 0) rfl rfl rfl (.ok true) none) trivial
  have h₄ := h₃.step (.read (k := 0) rfl rfl rfl rfl) trivial
  have h₅ := h₄.step (.command rfl (.fire (.credit 1 1))) trivial
  have h₆ := (h₅.step (.send rfl rfl rfl) trivial).step (.spawn rfl rfl rfl) trivial
  have h₇ := h₆.step (.announced (k := 0) rfl rfl rfl) trivial
  have h₈ := h₇.step (.handle (k := 0) rfl rfl .ok) (by
    rintro call name ⟨⟩ ⟨⟩ -
    exact ⟨0, _, _, rfl, rfl⟩)
  have h₉ := h₈.step (.answer (k := 0) rfl rfl) trivial
  exact ⟨_, h₉, rfl, h₉.steering_isolated⟩

/-- Two streams, and credit that is posted for the first after it has ended. -/
theorem late_credit_disconnects : ¬∀ w, Reaches (fun _ _ => True) w → w.Isolated := by
  intro h
  have h₀ : Reaches (fun _ _ => True) .new := .start
  have h₁ := (h₀.step (.command rfl (.stream (.subscribe 1 0 .records 1))) trivial).step
    (.command rfl (.stream (.subscribe 2 0 .records 1))) trivial
  have h₂ := (h₁.step (.send rfl rfl rfl) trivial).step (.send rfl rfl rfl) trivial
  have h₃ := (h₂.step (.subscribe rfl rfl) trivial).step (.subscribe rfl rfl) trivial
  have h₄ := (h₃.step (.open (k := 0) rfl rfl rfl (.ok true) none) trivial).step
    (.open (k := 1) rfl rfl rfl (.ok true) none) trivial
  have h₅ := (h₄.step (.read (k := 0) rfl rfl rfl rfl) trivial).step
    (.work (k := 0) rfl rfl rfl (.spawn rfl rfl)) trivial
  -- the first stream waits for records, and its log goes away
  have h₆ := (h₅.step (.work (k := 0) rfl rfl rfl (.serve (k := 0) rfl rfl ⟨256, 0⟩ noRecord)) trivial).step
    (.work (k := 0) rfl rfl rfl (.serve (k := 0) rfl rfl ⟨256, 0⟩ noRecord)) trivial
  have h₇ := (h₆.step (.work (k := 0) rfl rfl rfl (.orphaned (k := 0) rfl rfl (.inr ⟨_, rfl⟩))) trivial).step
    (.work (k := 0) rfl rfl rfl (.forget (k := 0) rfl rfl rfl)) trivial
  have h₈ := h₇.step (.command rfl (.fire (.credit 1 1))) trivial
  have h₉ := (h₈.step (.send rfl rfl rfl) trivial).step (.spawn rfl rfl rfl) trivial
  have h₁₀ := h₉.step (.announced (k := 0) rfl rfl rfl) trivial
  have h₁₁ := h₁₀.step (.handle (k := 0) rfl rfl .ok) trivial
  have h₁₂ := (h₁₁.step (.refused (k := 0) rfl rfl) trivial).step
    (.command rfl (.fire (.credit 2 1))) trivial
  have h₁₃ := (h₁₂.step (.stop rfl) trivial).step (.disconnect rfl rfl (.inl nofun)) trivial
  obtain ⟨call, hcall, hid, -⟩ := (h _ h₁₃).failed 2 (List.mem_cons_of_mem _ List.mem_cons_self)
  rw [List.mem_singleton.mp hcall] at hid
  cases hid

end Lug.Client.Http
