import Lug.Ts.Written

/-!
A client over its transport. The ids the client gives out are in flight once: no call is
refused for its id, no response can be meant for a call and a stream, and what gets to the
daemon are requests it reads as they were meant.
-/

namespace Lug.Ts

/-- Events that no caller brings about. -/
def Move.isEvent : Move → Bool
  | microtask | data _ | error _ | hangup | wrote _ | callTimer _ | operationTimer _ => true
  | _ => false

/-- A `Client` over its `UnixTransport`. -/
structure Connection where
  client : Client
  transport : UnixTransport
  /-- The subscriptions that no `next` has started. -/
  unstarted : List Handed
  /-- The ids of those that one has. -/
  steered : List ℕ

namespace Connection

variable (js : Runtime)

/-- The transport while `connect` awaits the answer to its `hello`. -/
inductive Connecting (timeoutMs : Double) : UnixTransport → Prop
  | hello : Connecting timeoutMs (UnixTransport.new.call js (.hello 1 1) timeoutMs)
  | event {t t' : UnixTransport} {move : Move} : Connecting timeoutMs t →
      UnixTransport.Step js t move t' → move.isEvent = true → Connecting timeoutMs t'

/-- What the client, its subscriptions and the event loop do. -/
inductive Step (c : Connection) : Connection → Prop
  | call {request timeoutMs handed client}
      (h : c.client.use (.call request timeoutMs) = (.ok (some handed), client)) :
      Step c { c with
        client
        transport := c.transport.call js handed.request handed.timeoutMs }
  | subscribe {options handed client}
      (h : c.client.use (.subscribe options) = (.ok (some handed), client)) :
      Step c { c with
        client
        -- the transport throws where the id is in flight
        unstarted :=
          if c.transport.pending.has handed.request.id ||
              c.transport.streams.has handed.request.id then c.unstarted
          else c.unstarted ++ [handed] }
  | start {front behind id log from_ mode timeoutMs}
      (h : c.unstarted = front ++ ⟨.subscribe id log from_ mode 0, timeoutMs⟩ :: behind) :
      Step c { c with
        unstarted := front ++ behind
        steered := c.steered ++ [id]
        transport := c.transport.start js id log from_ mode timeoutMs }
  | grant {id} (h : id ∈ c.steered) (timeoutMs : Double) :
      Step c { c with transport := c.transport.grant js id timeoutMs }
  | cancel {id} (h : id ∈ c.steered) (timeoutMs : Double) :
      Step c { c with transport := c.transport.cancel js id timeoutMs }
  | close : Step c { c with
      client := c.client.close.2
      transport := if c.client.close.1 then c.transport.close else c.transport }
  | event {transport : UnixTransport} {move : Move}
      (h : UnixTransport.Step js c.transport move transport) (hevent : move.isEvent = true) :
      Step c { c with transport }

/-- The states of a client that `connect` returned. -/
inductive Reaches : Connection → Prop
  | connected {options : ClientOptions} {timeoutMs : Double} {client : Client}
      {t t' : UnixTransport} {welcome : Json}
      (hclient : Client.connect options timeoutMs = .ok client) (hfirst : client.nextId = 2)
      (ht : Connecting js timeoutMs t) (hwelcome : .call 0 (.ok welcome) ∈ t.reports)
      (h : t.welcomed welcome = (.ok (), t')) : Reaches ⟨client, t', [], []⟩
  | step {c c' : Connection} : Reaches c → Step js c c' → Reaches c'

end Connection

/-! ### What an event may add -/

namespace UnixTransport

variable {js : Runtime} {t t' t'' : UnixTransport}

/-- All that is new in flight or in the queue. -/
structure Adds (t t' : UnixTransport) (calls streams : List ℕ) (requests : List Request) :
    Prop where
  pending : ∀ e ∈ t'.pending.entries, e ∈ t.pending.entries ∨ e.1 ∈ calls
  streams : ∀ e ∈ t'.streams.entries, e ∈ t.streams.entries ∨ e.1 ∈ streams
  queued : ∀ request ∈ t'.queued, request ∈ t.queued ∨ request ∈ requests

theorem Adds.of_eq {calls streams : List ℕ} {requests : List Request}
    (hpending : t'.pending = t.pending) (hstreams : t'.streams = t.streams)
    (hqueued : t'.queued = t.queued) : Adds t t' calls streams requests where
  pending _ he := .inl (hpending ▸ he)
  streams _ he := .inl (hstreams ▸ he)
  queued _ hr := .inl (hqueued ▸ hr)

theorem Adds.refl (t : UnixTransport) : Adds t t [] [] [] := .of_eq rfl rfl rfl

theorem Adds.trans {calls streams : List ℕ} {requests : List Request}
    (h : Adds t t' calls streams requests) (h' : Adds t' t'' [] [] []) :
    Adds t t'' calls streams requests where
  pending e he := h.pending e ((h'.pending e he).resolve_right List.not_mem_nil)
  streams e he := h.streams e ((h'.streams e he).resolve_right List.not_mem_nil)
  queued r hr := h.queued r ((h'.queued r hr).resolve_right List.not_mem_nil)

theorem adds_pumpWrites (t : UnixTransport) : Adds t t.pumpWrites [] [] [] := by
  unfold pumpWrites
  split_ifs
  · exact .refl t
  · split
    · exact .refl t
    · exact .of_eq rfl rfl rfl

theorem adds_settle (t : UnixTransport) (op : ℕ) (result : Except Fault Unit) :
    Adds t (t.settle op result) [] [] [] := by
  obtain ⟨racing, microtasks, hsettle⟩ := settle_eq t op result
  rw [hsettle]
  exact .of_eq rfl rfl rfl

theorem adds_fail (t : UnixTransport) (error : Fault) : Adds t (t.fail error) [] [] [] := by
  cases hdead : t.dead with
  | none =>
      obtain ⟨racing, microtasks, hfail⟩ := fail_eq hdead error
      rw [hfail]
      exact ⟨fun _ h => absurd h List.not_mem_nil, fun _ h => absurd h List.not_mem_nil,
        fun _ => .inl⟩
  | some dead =>
      rw [fail, hdead]
      exact .refl t

theorem adds_dispatch (responses : List Json) (t : UnixTransport) :
    Adds t (t.dispatch responses) [] [] [] := by
  induction responses generalizing t with
  | nil => exact .refl t
  | cons response responses ih =>
      rw [dispatch]
      by_cases hinvalid : (!isResponse response) = true
      · rw [if_pos hinvalid]
        refine Adds.trans ?_ (adds_fail _ _)
        exact .of_eq rfl rfl rfl
      rw [if_neg hinvalid]
      dsimp only
      split
      · by_cases hok : tagOf response = "ok"
        · rw [if_pos hok]
          exact ih t
        · rw [if_neg hok]
          refine Adds.trans ?_ (ih _)
          refine ⟨fun _ => .inl, fun e he => .inl ?_, fun _ => .inl⟩
          dsimp only at he
          split_ifs at he
          · exact (Table.mem_erase.mp he).1
          · exact he
      · split
        · refine Adds.trans ?_ (ih _)
          exact ⟨fun e he => .inl (Table.mem_erase.mp he).1, fun _ => .inl, fun _ => .inl⟩
        · exact ih t

theorem adds_microtask (task : Microtask) (t : UnixTransport) :
    Adds t (t.runMicrotask task) [] [] [] := by
  cases task with
  | caught id error =>
      unfold runMicrotask
      dsimp only
      split
      · exact .refl t
      · exact ⟨fun e he => .inl (Table.mem_erase.mp he).1, fun _ => .inl, fun _ => .inl⟩
  | raced o result =>
      unfold runMicrotask
      dsimp only
      split
      · exact ⟨fun _ => .inl, fun e he => .inl (Table.mem_erase.mp he).1, fun _ => .inl⟩
      · exact .of_eq rfl rfl rfl

/-- Nothing comes to be in flight of itself. -/
theorem adds_event {move : Move} (h : Step js t move t') (hevent : move.isEvent = true) :
    Adds t t' [] [] [] := by
  cases h with
  | microtask hrest =>
      refine Adds.trans ?_ (adds_microtask _ _)
      exact .of_eq rfl rfl rfl
  | data idle chunk =>
      unfold receive
      split
      · exact .refl t
      · dsimp only
        split
        · refine Adds.trans ?_ (adds_fail _ _)
          exact .of_eq rfl rfl rfl
        · refine Adds.trans ?_ (adds_dispatch _ _)
          exact .of_eq rfl rfl rfl
  | error idle message => exact adds_fail t _
  | hangup idle => exact adds_fail t _
  | wrote idle hwriting error =>
      unfold wrote
      dsimp only
      split
      · refine Adds.trans (Adds.trans ?_ (adds_fail _ _)) (adds_pumpWrites _)
        obtain ⟨racing, microtasks, hjob⟩ := rejectJob_eq _ { t with writing := none } _
        rw [hjob]
        exact .of_eq rfl rfl rfl
      · refine Adds.trans ?_ (adds_pumpWrites _)
        obtain ⟨racing, microtasks, hjob⟩ := resolveJob_eq { t with writing := none } _
        rw [hjob]
        exact .of_eq rfl rfl rfl
  | callTimer idle hpending =>
      exact ⟨fun e he => .inl (Table.mem_erase.mp he).1, fun _ => .inl, fun _ => .inl⟩
  | operationTimer idle hracing =>
      refine Adds.trans (Adds.trans ?_ (adds_fail _ _)) (adds_settle _ _ _)
      exact .of_eq rfl rfl rfl
  | call | start | grant | cancel | close | welcomed => cases hevent

theorem adds_send {sender : Sender} {request : Request} (h : t.send js sender request = .ok t') :
    Adds t t' [] [] [request] := by
  obtain ⟨-, -, rfl⟩ := send_ok h
  refine Adds.trans ?_ (adds_pumpWrites _)
  exact ⟨fun _ => .inl, fun _ => .inl, fun r hr =>
    (List.mem_append.mp hr).imp_right id⟩

theorem adds_call (t : UnixTransport) (request : Request) (timeoutMs : Double) :
    Adds t (t.call js request timeoutMs) [request.id] [] [request] := by
  unfold call
  dsimp only
  split
  · exact .of_eq rfl rfl rfl
  · split_ifs
    · exact .of_eq rfl rfl rfl
    · have hset : ∀ p, ∀ e ∈ (t.pending.set request.id p).entries,
          e ∈ t.pending.entries ∨ e.1 ∈ [request.id] := fun p e he => by
        rcases Table.mem_set he with rfl | he
        · exact .inr List.mem_cons_self
        · exact .inl he
      split
      · rename_i hsend
        have hsent := adds_send hsend
        exact ⟨fun e he => ((hsent.pending e he).resolve_right List.not_mem_nil |> hset _ e),
          fun e he => .inl ((hsent.streams e he).resolve_right List.not_mem_nil), hsent.queued⟩
      · exact ⟨fun e he => hset _ e he, fun _ => .inl, fun _ => .inl⟩

theorem adds_sendWithin (t : UnixTransport) (steer : Steer) (request : Request)
    (timeoutMs : Double) : Adds t (t.sendWithin js steer request timeoutMs) [] [] [request] := by
  unfold sendWithin
  dsimp only
  split
  · rename_i hsend
    have hsent := adds_send hsend
    exact ⟨hsent.pending, hsent.streams, hsent.queued⟩
  · exact .of_eq rfl rfl rfl

theorem adds_start (t : UnixTransport) (id : ℕ) (log : String) (from_ : ℕ) (mode : Mode)
    (timeoutMs : Double) : Adds t (t.start js id log from_ mode timeoutMs) [] [id]
      [.subscribe id log from_ mode 0] := by
  unfold start
  split
  · exact .of_eq rfl rfl rfl
  · have hsent : Adds _ (sendWithin js _ _ _ _) [] [] _ := adds_sendWithin { t with
      started := t.started ++ [id]
      streams := t.streams.set id t.started.length } (.start t.started.length)
      (.subscribe id log from_ mode 0) timeoutMs
    refine ⟨hsent.pending, fun e he => ?_, hsent.queued⟩
    rcases Table.mem_set ((hsent.streams e he).resolve_right List.not_mem_nil) with rfl | he
    · exact .inr List.mem_cons_self
    · exact .inl he

theorem adds_cancel (t : UnixTransport) (id : ℕ) (timeoutMs : Double) :
    Adds t (t.cancel js id timeoutMs) [] [] [.cancel id] := by
  unfold cancel
  dsimp only
  split
  · exact ⟨fun _ => .inl, fun e he => .inl (Table.mem_erase.mp he).1, fun _ => .inl⟩
  · have hsent : Adds _ (sendWithin js _ _ _ _) [] [] _ :=
      adds_sendWithin { t with streams := t.streams.erase id } .cancel (.cancel id) timeoutMs
    exact ⟨hsent.pending, fun e he => .inl (Table.mem_erase.mp
      ((hsent.streams e he).resolve_right List.not_mem_nil)).1, hsent.queued⟩

theorem adds_close (t : UnixTransport) : Adds t t.close [] [] [] := by
  have hfail := adds_fail t (.connection "unix client closed")
  exact ⟨hfail.pending, hfail.streams, hfail.queued⟩

end UnixTransport

/-! ### Ids -/

theorem Client.open_of_use {c c' : Client} {u : Use} {handed : Handed}
    (h : c.use u = (.ok (some handed), c')) : c.closed = false := by
  by_contra hclosed
  rw [Bool.not_eq_false] at hclosed
  have hguard : c.ensureOpen = .error .closed := by simp [ensureOpen, hclosed]
  cases u with
  | call request timeoutMs => simp [use, call, hguard, bind, Except.bind] at h
  | subscribe options => simp [use, subscribe, hguard, bind, Except.bind] at h
  | close => simp [use] at h

/-- What a use that hands a request on has used up. -/
theorem Client.of_use {c c' : Client} {u : Use} {handed : Handed}
    (hpositive : positive c.timeoutMs = true) (h : c.use u = (.ok (some handed), c')) :
    handed.request.id = c.nextId ∧ c.nextId < 2 ^ 53 ∧ handed.request.Fits ∧
      c' = { c with nextId := c.nextId + 1 } := by
  have hopen := open_of_use h
  have hwent : Went c u := by
    cases u with
    | call request timeoutMs => exact went_call hopen hpositive request timeoutMs
    | subscribe options => exact went_subscribe hopen options
    | close => simp [use] at h
  cases hwent with
  | out handed' hsound hfree huse hid hfits hasked =>
      obtain ⟨hhanded, hclient⟩ := Prod.mk.inj (h.symm.trans huse)
      obtain rfl := Option.some.inj (Except.ok.inj hhanded)
      exact ⟨hid, hfree, hfits, hclient⟩
  | thrown e why huse =>
      rw [huse] at h
      cases (Prod.mk.inj h).1

namespace Connection

/-- The ids that subscriptions have. -/
def subscribed (c : Connection) : List ℕ := c.unstarted.map (·.request.id) ++ c.steered

/-- Every id was given out, to one call or one subscription. -/
structure Owned (c : Connection) : Prop where
  positive : positive c.client.timeoutMs = true
  bound : c.client.nextId ≤ 2 ^ 53
  given : ∀ id ∈ c.subscribed, id < c.client.nextId
  distinct : c.subscribed.Nodup
  fresh : ∀ handed ∈ c.unstarted, handed.request.Fits
  pending : ∀ e ∈ c.transport.pending.entries, e.1 < c.client.nextId ∧ e.1 ∉ c.subscribed
  streams : ∀ e ∈ c.transport.streams.entries, e.1 ∈ c.steered
  fits : ∀ request ∈ c.transport.queued, request.Fits

variable {js : Runtime} {c c' : Connection}

/-- What the transport may add by itself, or for a stream that is steered. -/
theorem Owned.adds (h : c.Owned) {transport : UnixTransport} {requests : List Request}
    (hadds : UnixTransport.Adds c.transport transport [] [] requests)
    (hfits : ∀ request ∈ requests, request.Fits) : Owned { c with transport } where
  positive := h.positive
  bound := h.bound
  given := h.given
  distinct := h.distinct
  fresh := h.fresh
  pending e he := h.pending e ((hadds.pending e he).resolve_right List.not_mem_nil)
  streams e he := h.streams e ((hadds.streams e he).resolve_right List.not_mem_nil)
  fits request hrequest := (hadds.queued request hrequest).elim (h.fits request) (hfits request)

theorem Owned.steered_fits (h : c.Owned) {id : ℕ} (hid : id ∈ c.steered) : id < 2 ^ 64 := by
  have hgiven := h.given id (List.mem_append_right _ hid)
  have hbound := h.bound
  omega

/-- A call has the next id, which no one has. -/
theorem Owned.called (h : c.Owned) {handed : Handed} (hid : handed.request.id = c.client.nextId)
    (hfree : c.client.nextId < 2 ^ 53) (hfit : handed.request.Fits) : Owned { c with
      client := { c.client with nextId := c.client.nextId + 1 }
      transport := c.transport.call js handed.request handed.timeoutMs } := by
  have hadds : UnixTransport.Adds c.transport (c.transport.call js handed.request
      handed.timeoutMs) _ [] _ := UnixTransport.adds_call _ _ _
  refine ⟨h.positive, hfree, fun id hmem => Nat.lt_succ_of_lt (h.given id hmem), h.distinct,
    h.fresh, fun e he => ?_, fun e he => ?_, fun request hrequest => ?_⟩
  · rcases hadds.pending e he with he | he
    · exact ⟨Nat.lt_succ_of_lt (h.pending e he).1, (h.pending e he).2⟩
    · rw [List.mem_singleton, hid] at he
      rw [he]
      exact ⟨Nat.lt_succ_self _, fun hmem => lt_irrefl _ (h.given _ hmem)⟩
  · exact h.streams e ((hadds.streams e he).resolve_right List.not_mem_nil)
  · exact (hadds.queued request hrequest).elim (h.fits request) fun hr =>
      List.mem_singleton.mp hr ▸ hfit

/-- A use may fail behind its id. -/
theorem Owned.spent (h : c.Owned) (hfree : c.client.nextId < 2 ^ 53) :
    Owned { c with client := { c.client with nextId := c.client.nextId + 1 } } where
  positive := h.positive
  bound := hfree
  given id hmem := Nat.lt_succ_of_lt (h.given id hmem)
  distinct := h.distinct
  fresh := h.fresh
  pending e he := ⟨Nat.lt_succ_of_lt (h.pending e he).1, (h.pending e he).2⟩
  streams := h.streams
  fits := h.fits

theorem Owned.subscribed (h : c.Owned) {handed : Handed}
    (hid : handed.request.id = c.client.nextId) (hfree : c.client.nextId < 2 ^ 53)
    (hfit : handed.request.Fits) : Owned { c with
      client := { c.client with nextId := c.client.nextId + 1 }
      unstarted := c.unstarted ++ [handed] } := by
  have hperm : (Connection.subscribed { c with
      client := { c.client with nextId := c.client.nextId + 1 }
      unstarted := c.unstarted ++ [handed] }).Perm (c.client.nextId :: c.subscribed) := by
    simp [Connection.subscribed, hid]
  -- Ids that were given out lie below the next one.
  have hnew : c.client.nextId ∉ c.subscribed := fun hmem => lt_irrefl _ (h.given _ hmem)
  refine ⟨h.positive, hfree, fun id hmem => ?_,
    hperm.nodup_iff.mpr (List.nodup_cons.mpr ⟨hnew, h.distinct⟩),
    List.forall_mem_append.mpr ⟨h.fresh, List.forall_mem_singleton.mpr hfit⟩, fun e he => ?_,
    h.streams, h.fits⟩
  · rcases List.mem_cons.mp (hperm.mem_iff.mp hmem) with rfl | hmem
    · exact Nat.lt_succ_self _
    · exact Nat.lt_succ_of_lt (h.given id hmem)
  · obtain ⟨hlt, hother⟩ := h.pending e he
    refine ⟨Nat.lt_succ_of_lt hlt, fun hmem => ?_⟩
    rcases List.mem_cons.mp (hperm.mem_iff.mp hmem) with heq | hmem
    · exact absurd hlt (by rw [heq]; exact lt_irrefl _)
    · exact hother hmem

theorem Owned.started (h : c.Owned) {front behind : List Handed} {id from_ : ℕ} {log : String}
    {mode : Mode} {timeoutMs : Double}
    (hunstarted : c.unstarted = front ++ ⟨.subscribe id log from_ mode 0, timeoutMs⟩ :: behind) :
    Owned { c with
      unstarted := front ++ behind
      steered := c.steered ++ [id]
      transport := c.transport.start js id log from_ mode timeoutMs } := by
  -- The id moves from the subscriptions that wait to those that were started.
  have hperm : (Connection.subscribed { c with
      unstarted := front ++ behind
      steered := c.steered ++ [id]
      transport := c.transport.start js id log from_ mode timeoutMs }).Perm c.subscribed := by
    have hid : (Request.subscribe id log from_ mode 0).id = id := rfl
    have hlast := List.perm_append_singleton id
      ((front ++ behind).map (·.request.id) ++ c.steered)
    have hmiddle : (id :: ((front ++ behind).map (·.request.id) ++ c.steered)).Perm
        (front.map (·.request.id) ++ id :: (behind.map (·.request.id) ++ c.steered)) := by
      simpa using List.perm_middle.symm
    simpa [Connection.subscribed, hunstarted, hid] using hlast.trans hmiddle
  have hadds : UnixTransport.Adds c.transport (c.transport.start js id log from_ mode timeoutMs)
      [] [id] _ := UnixTransport.adds_start _ _ _ _ _ _
  have hfit := h.fresh ⟨.subscribe id log from_ mode 0, timeoutMs⟩ (by simp [hunstarted])
  refine ⟨h.positive, h.bound, fun i hmem => h.given i (hperm.mem_iff.mp hmem),
    hperm.nodup_iff.mpr h.distinct, fun handed hmem => h.fresh handed ?_, fun e he => ?_,
    fun e he => ?_, fun request hrequest => ?_⟩
  · rw [hunstarted]
    rcases List.mem_append.mp hmem with hmem | hmem
    · exact List.mem_append_left _ hmem
    · exact List.mem_append_right _ (List.mem_cons_of_mem _ hmem)
  · obtain ⟨hlt, hother⟩ := h.pending e ((hadds.pending e he).resolve_right List.not_mem_nil)
    exact ⟨hlt, fun hmem => hother (hperm.mem_iff.mp hmem)⟩
  · exact (hadds.streams e he).elim (fun he => List.mem_append_left _ (h.streams e he)) fun he =>
      List.mem_append_right _ he
  · exact (hadds.queued request hrequest).elim (h.fits request) fun hr =>
      List.mem_singleton.mp hr ▸ hfit

theorem Owned.step (h : c.Owned) (hstep : Step js c c') : c'.Owned := by
  cases hstep with
  | call huse =>
      obtain ⟨hid, hfree, hfit, rfl⟩ := Client.of_use h.positive huse
      exact h.called hid hfree hfit
  | subscribe huse =>
      obtain ⟨hid, hfree, hfit, rfl⟩ := Client.of_use h.positive huse
      split_ifs
      · exact h.spent hfree
      · exact h.subscribed hid hfree hfit
  | start hunstarted => exact h.started hunstarted
  | grant hid timeoutMs =>
      refine h.adds (UnixTransport.adds_sendWithin _ _ _ _) (List.forall_mem_singleton.mpr ?_)
      exact ⟨h.steered_fits hid, by decide⟩
  | cancel hid timeoutMs =>
      refine h.adds (UnixTransport.adds_cancel _ _ _) (List.forall_mem_singleton.mpr ?_)
      exact h.steered_fits hid
  | close =>
      have hadds : UnixTransport.Adds c.transport
          (if c.client.close.1 then c.transport.close else c.transport) [] [] [] := by
        split_ifs
        · exact UnixTransport.adds_close _
        · exact .refl _
      have hclosed := h.adds hadds fun _ hr => absurd hr List.not_mem_nil
      -- Closing gives no id out, whichever close it is.
      unfold Client.close at hclosed ⊢
      cases hshut : c.client.closed with
      | true =>
          rw [hshut] at hclosed
          exact hclosed
      | false =>
          rw [hshut] at hclosed
          exact ⟨hclosed.positive, hclosed.bound, hclosed.given, hclosed.distinct, hclosed.fresh,
            hclosed.pending, hclosed.streams, hclosed.fits⟩
  | event hmove hevent =>
      exact h.adds (UnixTransport.adds_event hmove hevent) fun _ hr => absurd hr List.not_mem_nil

/-- While it connects, a transport has its `hello` in flight and nothing else. -/
theorem Connecting.adds {timeoutMs : Double} {t : UnixTransport}
    (h : Connecting js timeoutMs t) : UnixTransport.Adds .new t [1] [] [.hello 1 1] := by
  induction h with
  | hello => exact UnixTransport.adds_call _ _ _
  | event _ hstep hevent ih => exact ih.trans (UnixTransport.adds_event hstep hevent)

theorem Connecting.reaches {timeoutMs : Double} {t : UnixTransport}
    (h : Connecting js timeoutMs t) : UnixTransport.Reaches js t := by
  induction h with
  | hello => exact .step .new (.call _ _)
  | event _ hstep _ ih => exact ih.step hstep

/-- A welcome sets the limit of a frame. -/
theorem of_welcomed {t t' : UnixTransport} {welcome : Json}
    (h : t.welcomed welcome = (.ok (), t')) : ∃ maxFrame, t' = { t with maxFrame } := by
  unfold UnixTransport.welcomed at h
  split_ifs at h
  · cases (Prod.mk.inj h).1
  · split at h
    · cases (Prod.mk.inj h).1
    · split_ifs at h
      · exact ⟨_, (Prod.mk.inj h).2.symm⟩
      · cases (Prod.mk.inj h).1

theorem Reaches.owned (h : Reaches js c) : c.Owned := by
  induction h with
  | connected hclient hfirst ht hwelcome hlimit =>
      obtain ⟨maxFrame, rfl⟩ := of_welcomed hlimit
      have hadds := ht.adds
      refine ⟨(Client.connect_ok hclient).2, by rw [hfirst]; decide,
        fun _ hid => absurd hid List.not_mem_nil, List.nodup_nil,
        fun _ hmem => absurd hmem List.not_mem_nil, fun e he => ⟨?_, List.not_mem_nil⟩,
        fun e he => ?_, fun request hrequest => ?_⟩
      · have hone := (hadds.pending e he).resolve_left List.not_mem_nil
        rw [List.mem_singleton.mp hone, hfirst]
        decide
      · exact (hadds.streams e he).resolve_left List.not_mem_nil
      · have hhello := (hadds.queued request hrequest).resolve_left List.not_mem_nil
        rw [List.mem_singleton.mp hhello]
        exact ⟨by decide, by decide⟩
  | step _ hstep ih => exact ih.step hstep

/-- A connection's transport is a transport. -/
theorem Reaches.transport (h : Reaches js c) : UnixTransport.Reaches js c.transport := by
  induction h with
  | connected hclient hfirst ht hwelcome hlimit =>
      rename_i options timeoutMs client t t' welcome
      have hmove : UnixTransport.Step js t (.welcomed welcome) (t.welcomed welcome).2 :=
        .welcomed welcome
      rw [hlimit] at hmove
      exact ht.reaches.step hmove
  | step _ hstep ih =>
      cases hstep with
      | call huse => exact ih.step (.call _ _)
      | subscribe huse => exact ih
      | start hunstarted => exact ih.step (.start _ _ _ _ _)
      | grant hid timeoutMs => exact ih.step (.grant _ _)
      | cancel hid timeoutMs => exact ih.step (.cancel _ _)
      | close =>
          dsimp only
          split_ifs
          · exact ih.step .close
          · exact ih
      | event hmove hevent => exact ih.step hmove

/-- Of one client, no two calls or subscriptions ever meet in the transport: what is about to
be asked has an id that is not in flight, and no response is up for a call and a stream. -/
theorem Reaches.ids_apart (h : Reaches js c) :
    (∀ u handed client, c.client.use u = (.ok (some handed), client) →
      c.transport.pending.get? handed.request.id = none ∧
        c.transport.streams.get? handed.request.id = none) ∧
    (∀ handed ∈ c.unstarted, c.transport.pending.get? handed.request.id = none ∧
      c.transport.streams.get? handed.request.id = none) ∧
    ∀ e ∈ c.transport.pending.entries, c.transport.streams.get? e.1 = none := by
  have howned := h.owned
  have hstreams : ∀ id, id ∉ c.steered → c.transport.streams.get? id = none := fun id hid =>
    Table.get?_eq_none.mpr fun e he heq => hid (heq ▸ howned.streams e he)
  refine ⟨fun u handed client huse => ?_, fun handed hmem => ?_, fun e he => ?_⟩
  -- An id that is in flight lies below the one that is given out.
  · have hid := (Client.of_use howned.positive huse).1
    refine ⟨Table.get?_eq_none.mpr fun e he heq => ?_, hstreams _ fun hsteered => ?_⟩
    · exact absurd (howned.pending e he).1 (by rw [heq, hid]; exact lt_irrefl _)
    · have hgiven := howned.given _ (List.mem_append_right _ hsteered)
      exact absurd hgiven (by rw [hid]; exact lt_irrefl _)
  · have hsubscribed : handed.request.id ∈ c.unstarted.map (·.request.id) :=
      List.mem_map_of_mem hmem
    refine ⟨Table.get?_eq_none.mpr fun e he heq => ?_, hstreams _ fun hsteered => ?_⟩
    · exact (howned.pending e he).2 (heq ▸ List.mem_append_left _ hsubscribed)
    · exact (List.nodup_append.mp howned.distinct).2.2 _ hsubscribed _ hsteered rfl
  · exact hstreams _ fun hsteered => (howned.pending e he).2 (List.mem_append_right _ hsteered)

/-- Whatever a client is used for, whatever fails in between and however its bytes are cut, the
daemon decodes a front of the requests that were queued, each as it was meant. -/
theorem Reaches.requests_read [Serde Proto.Request] (h : Reaches js c) (hreads : Reads js)
    {pieces : List Bytes} (hpieces : pieces.flatten <+: c.transport.written.flatten) :
    ((Proto.Codec.reader Proto.Request).feed [] pieces).failure = none ∧
      ((Proto.Codec.reader Proto.Request).feed [] pieces).items <+:
        (c.transport.queued.take c.transport.written.length).map Request.asked ∧
      (pieces.flatten = c.transport.written.flatten →
        ((Proto.Codec.reader Proto.Request).feed [] pieces).items =
          (c.transport.queued.take c.transport.written.length).map Request.asked) :=
  h.transport.read_back hreads h.owned.fits hpieces

/-! ### A client that just connected -/

section Sample

/-- The text of a `hello`, and of the welcome to it. -/
def hello : Bytes := Proto.ascii "\x7b\"t\":\"hello\",\"id\":1,\"version\":1\x7d"

def welcomeText : Bytes :=
  Proto.ascii "\x7b\"t\":\"welcome\",\"id\":1,\"version\":1,\"max_frame\":16777216\x7d"

def welcome : Json := (Proto.Response.welcome 1 1 16777216 none).json

def greetings : Runtime where
  stringify
    | .object [("t", .string "hello"), ("id", .number (.int 1)), ("version", .number (.int 1))] =>
        hello
    | j => codeBytes j
  parse body := if body = welcomeText then .ok welcome else .error "Unexpected token"
  written _ := "1"

/-- The transport behind the answer. -/
def answeredHello : UnixTransport :=
  (UnixTransport.new.call greetings (.hello 1 1) 0x3ff0000000000000).receive greetings
    (Proto.putU32 welcomeText.length ++ welcomeText)

def greeted : Connection :=
  ⟨⟨0x3ff0000000000000, 2, false⟩, (answeredHello.welcomed welcome).2, [], []⟩

theorem push_one {parse : Bytes → Except String Json} {body : Bytes} {item : Json}
    (hlen : body.length ≤ Proto.maxFrame) (hparse : parse body = .ok item) :
    ∃ d, FrameDecoder.new.push parse (Proto.putU32 body.length ++ body) = (.ok [item], d) := by
  have hread : (Proto.frames parse).read (Proto.putU32 body.length ++ body) = .item item [] := by
    have hframe := Proto.readFrame_frame hlen hparse []
    rwa [List.append_nil] at hframe
  have hdrain : (Proto.frames parse).drain (FrameDecoder.new.held ++
      (Proto.putU32 body.length ++ body)) = ⟨[item], [], none⟩ := by
    rw [FrameDecoder.held_new, List.nil_append, Reader.drain_item hread,
      Reader.drain_wait Proto.read_nil]
    rfl
  have hpush := FrameDecoder.push_held parse FrameDecoder.valid_new
    (Proto.putU32 body.length ++ body)
  rw [hdrain] at hpush
  obtain ⟨d, hd, -⟩ := hpush
  exact ⟨d, hd⟩

/-- A chunk that answers a call that is pending. -/
theorem receive_answer {js : Runtime} {t : UnixTransport} {chunk : Bytes} {response : Json}
    {d : FrameDecoder} {p : PendingCall} (alive : t.dead = none)
    (hpush : t.decoder.push js.parse chunk = (.ok [response], d))
    (hresponse : isResponse response = true) (hstreams : t.streams.get? (idOf response) = none)
    (hpending : t.pending.get? (idOf response) = some p) :
    .call p.call (.ok response) ∈ (t.receive js chunk).reports := by
  have hvalid : ¬(!isResponse response) = true := by simp [hresponse]
  rw [UnixTransport.receive, alive]
  dsimp only
  rw [hpush]
  dsimp only
  rw [UnixTransport.dispatch, if_neg hvalid]
  dsimp only
  rw [hstreams, hpending]
  exact List.mem_append_right _ List.mem_cons_self

theorem isResponse_welcome : isResponse welcome = true :=
  (isResponse_json _).mpr (by simp [numbers])

theorem idOf_welcome : idOf welcome = 1 := by
  simp [idOf, integerOf, welcome, Proto.Response.json, Proto.Response.fields,
    Proto.Response.content, integer, Proto.number, List.lookup_cons]

theorem tagOf_welcome : tagOf welcome = "welcome" := by
  simp [tagOf, welcome, Proto.Response.json, Proto.Response.fields, Proto.Response.tag]

theorem welcome_reported : .call 0 (.ok welcome) ∈ answeredHello.reports := by
  have hlen : welcomeText.length ≤ Proto.maxFrame := by decide
  have hparse : greetings.parse welcomeText = .ok welcome := by simp [greetings]
  obtain ⟨decoder, hpush⟩ := push_one hlen hparse
  refine receive_answer (p := ⟨0, 0x3ff0000000000000⟩) rfl hpush isResponse_welcome ?_ ?_
  · rw [idOf_welcome]
    rfl
  · rw [idOf_welcome]
    rfl

theorem greeted_reaches : Reaches greetings greeted := by
  have hconnect : Client.connect (.unix "lug.sock") 0x3ff0000000000000 =
      .ok ⟨0x3ff0000000000000, 2, false⟩ := rfl
  have hversion : integerOf "version" welcome = some 1 := by
    simp [integerOf, welcome, Proto.Response.json, Proto.Response.fields,
      Proto.Response.content, integer, Proto.number, List.lookup_cons]
  have hmax : integerOf "max_frame" welcome = some 16777216 := by
    simp [integerOf, welcome, Proto.Response.json, Proto.Response.fields,
      Proto.Response.content, integer, Proto.number, List.lookup_cons]
  have hwelcomed : (answeredHello.welcomed welcome).1 = .ok () := by
    simp [UnixTransport.welcomed, tagOf_welcome, hversion, hmax]
  exact .connected hconnect rfl (.event .hello (.data rfl _) rfl) welcome_reported
    (Prod.ext hwelcomed rfl)

/-- What is asked next has an id of its own. -/
theorem greeted_apart : greeted.transport.pending.get? 2 = none ∧
    greeted.transport.streams.get? 2 = none := by
  have huse : greeted.client.use (.call .ping none) = (.ok (some ⟨.ping 2, 0x3ff0000000000000⟩),
      ⟨0x3ff0000000000000, 3, false⟩) := rfl
  exact (Reaches.ids_apart greeted_reaches).1 _ _ _ huse

theorem stringify_cases (j : Json) : (j = (Request.hello 1 1).json ∧
    (greetings.stringify j).head? = some 123) ∨ greetings.stringify j = codeBytes j := by
  unfold greetings
  dsimp only
  split
  · exact .inl ⟨rfl, by decide +kernel⟩
  · exact .inr rfl

theorem stringify_injective : Function.Injective greetings.stringify := by
  intro i j h
  have hhead : (greetings.stringify i).head? = (greetings.stringify j).head? :=
    congrArg List.head? h
  have hcode : ∀ k, (codeBytes k).head? = some 255 := fun k => rfl
  rcases stringify_cases i with ⟨rfl, hi⟩ | hi <;> rcases stringify_cases j with ⟨rfl, hj⟩ | hj
  case inr.inr => exact codeBytes_injective (by rw [← hi, ← hj, h])
  all_goals first
    | rfl
    | simp [hi, hj, hcode] at hhead

open Classical in
/-- `serde_json` where `greetings` wrote. -/
@[reducible] noncomputable def greetingText : Serde Proto.Request where
  toVec request := .ok (greetings.stringify request.json)
  fromSlice bytes :=
    if h : ∃ j, greetings.stringify j = bytes then
      (Proto.Request.ofJson h.choose).elim (.error "unknown variant") .ok
    else .error "expected value"
  fromValue j := (Proto.Request.ofJson j).elim (.error "unknown variant") .ok

attribute [local instance] greetingText

theorem greetings_read : Reads greetings := by
  intro request asked hasked
  have hwritten : ∃ j, greetings.stringify j = greetings.stringify request.json := ⟨_, rfl⟩
  have hchosen : hwritten.choose = request.json := stringify_injective hwritten.choose_spec
  refine (dif_pos hwritten).trans ?_
  rw [hchosen, hasked]
  rfl

theorem greeted_read :
    ((Proto.Codec.reader Proto.Request).feed [] [greeted.transport.written.flatten]).items =
      (greeted.transport.queued.take greeted.transport.written.length).map Request.asked := by
  have hwhole : [greeted.transport.written.flatten].flatten = greeted.transport.written.flatten :=
    List.flatten_singleton
  have hfront : [greeted.transport.written.flatten].flatten <+:
      greeted.transport.written.flatten := by rw [hwhole]
  exact (Reaches.requests_read greeted_reaches greetings_read hfront).2.2 hwhole

end Sample

end Connection

end Lug.Ts
