import Lug.Ts.Matched
import Lug.Proto.Framed

/-!
What the daemon reads of a transport: the requests that were sent, in the order they were,
up to the last that its bytes got through of.
-/

namespace Lug.Ts

open Proto (Codec.reader Codec.read_eq)

/-- The frames are written in the order in which they were queued. -/
structure UnixTransport.Sends (js : Runtime) (t : UnixTransport) : Prop where
  limit : t.maxFrame ≤ Proto.maxFrame
  short : ∀ request ∈ t.queued, (js.stringify request.json).length ≤ Proto.maxFrame
  written : t.written <+: t.queued.map (UnixTransport.frameOf js)
  waiting : t.dead = none →
    t.queued.map (UnixTransport.frameOf js) = t.written ++ t.writes.map (·.frame)

namespace UnixTransport

variable {js : Runtime} {t t' : UnixTransport} {responses : List Json}

theorem sends_new (js : Runtime) : new.Sends js :=
  ⟨le_rfl, fun _ h => absurd h List.not_mem_nil, List.prefix_refl _, fun _ => rfl⟩

/-- One more frame comes last. -/
theorem Sends.queued (h : t.Sends js) (alive : t.dead = none) {request : Request}
    (fits : (js.stringify request.json).length ≤ t.maxFrame) (sender : Sender) :
    Sends js { t with
      writes := t.writes ++ [⟨frameOf js request, sender⟩]
      queued := t.queued ++ [request] } where
  limit := h.limit
  short := List.forall_mem_append.mpr
    ⟨h.short, List.forall_mem_singleton.mpr (fits.trans h.limit)⟩
  written := by
    show t.written <+: List.map (frameOf js) (t.queued ++ [request])
    rw [List.map_append]
    exact h.written.trans (List.prefix_append _ _)
  waiting _ := by
    show List.map (frameOf js) (t.queued ++ [request]) =
      t.written ++ List.map (·.frame) (t.writes ++ [⟨frameOf js request, sender⟩])
    rw [List.map_append, List.map_append, h.waiting alive, List.append_assoc]
    rfl

theorem Sends.effect (h : t.Sends js) (heffect : Effect js t responses t') : t'.Sends js := by
  cases heffect with
  | queued alive fits => exact h.queued alive fits _
  | raced alive fits number =>
      obtain ⟨hlimit, hshort, hwritten, hwaiting⟩ := h.queued alive fits (.operation _)
      exact ⟨hlimit, hshort, hwritten, hwaiting⟩
  | pumped alive free hwrites =>
      have hwaiting := h.waiting alive
      rw [hwrites, List.map_cons, List.append_cons] at hwaiting
      exact ⟨h.limit, h.short, hwaiting ▸ List.prefix_append _ _, fun _ => hwaiting⟩
  | wrote hwriting =>
      exact resolveJob_keeps (fun _ _ => ⟨h.limit, h.short, h.written, h.waiting⟩) _
  | unwritten hwriting error =>
      exact rejectJob_keeps (fun _ _ => ⟨h.limit, h.short, h.written, h.waiting⟩) _ _
  | settled op result =>
      exact settle_keeps (fun _ _ => ⟨h.limit, h.short, h.written, h.waiting⟩) _ _
  | died alive error =>
      obtain ⟨racing, microtasks, hfail⟩ := fail_eq alive error
      rw [hfail]
      exact ⟨h.limit, h.short, h.written, fun hnone => by cases hnone⟩
  | limited hn => exact ⟨hn, h.short, h.written, h.waiting⟩
  | _ => exact ⟨h.limit, h.short, h.written, h.waiting⟩

theorem Reaches.sends (h : Reaches js t) : t.Sends js :=
  h.always (sends_new js) (fun _ _ _ h => ⟨h.limit, h.short, h.written, h.waiting⟩) Sends.effect

end UnixTransport

/-! ### The daemon's end -/

section Daemon

variable [Serde Proto.Request] {js : Runtime}

/-- `serde_json` reads from a text of `JSON.stringify` what it reads from the document. -/
def Reads (js : Runtime) : Prop := ∀ (request : Request) (asked : Proto.Request),
  Proto.Request.ofJson request.json = some asked →
    Serde.fromSlice (js.stringify request.json) = .ok asked

/-- Frames of requests, one behind the other. -/
theorem drain_frames (hreads : Reads js) {requests : List Request}
    (hfits : ∀ request ∈ requests, request.Fits)
    (hshort : ∀ request ∈ requests, (js.stringify request.json).length ≤ Proto.maxFrame) :
    (Codec.reader Proto.Request).drain (requests.map (UnixTransport.frameOf js)).flatten =
      ⟨requests.map Request.asked, [], none⟩ := by
  refine Reader.drain_flatten rfl fun request hmem more => ?_
  have hparse := hreads request request.asked (Request.read_json (hfits request hmem))
  exact (Codec.read_eq _).trans (Proto.readFrame_frame (hshort request hmem) hparse more)

/-- Of the bytes that the socket was given, or any front of them, the daemon reads requests
that were sent, and in their order. -/
theorem UnixTransport.Reaches.read_back {t : UnixTransport} (h : UnixTransport.Reaches js t)
    (hreads : Reads js) (hfits : ∀ request ∈ t.queued, request.Fits) {pieces : List Bytes}
    (hpieces : pieces.flatten <+: t.written.flatten) :
    ((Codec.reader Proto.Request).feed [] pieces).failure = none ∧
      ((Codec.reader Proto.Request).feed [] pieces).items <+:
        (t.queued.take t.written.length).map Request.asked ∧
      (pieces.flatten = t.written.flatten → ((Codec.reader Proto.Request).feed [] pieces).items =
        (t.queued.take t.written.length).map Request.asked) := by
  obtain ⟨hlimit, hshort, hwritten, -⟩ := h.sends
  have hframes : t.written = (t.queued.take t.written.length).map (frameOf js) := by
    rw [List.map_take]
    exact List.prefix_iff_eq_take.mp hwritten
  have hdrain := drain_frames hreads
    (fun request (hmem : request ∈ t.queued.take t.written.length) =>
      hfits request (List.mem_of_mem_take hmem))
    (fun request hmem => hshort request (List.mem_of_mem_take hmem))
  rw [← hframes] at hdrain
  have hwait : (Codec.reader Proto.Request).read [] = .wait := rfl
  have hlike := Reader.feed_like hwait pieces
  rw [List.nil_append] at hlike
  obtain ⟨hnone, hprefix⟩ := Reader.drain_of_prefix hpieces (by rw [hdrain])
  rw [hdrain] at hprefix
  refine ⟨hlike.failure.trans hnone, hlike.items ▸ hprefix, fun hall => ?_⟩
  rw [hlike.items, hall, hdrain]

end Daemon

end Lug.Ts
