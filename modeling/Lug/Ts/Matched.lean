import Lug.Ts.Settled

/-!
Who gets a response: the call or the stream whose id it carries, in the order of the wire
and once; and a stream nothing behind the frame that ends it.
-/

namespace Lug.Ts

open Proto (frames)

/-- A response that is handed on. -/
def Report.response : Report → Option Json
  | call _ (.ok response) => some response
  | inbox _ (.ok response) => some response
  | _ => none

/-- What is handed to one stream. -/
def Report.pushedTo (stream : ℕ) : Report → Option Json
  | inbox s (.ok response) => if s = stream then some response else none
  | _ => none

/-- Who gets a response asked under its id. -/
def Report.Answers (calls started : List ℕ) : Report → Prop
  | call n (.ok response) => isResponse response = true ∧ calls[n]? = some (idOf response)
  | inbox s (.ok response) =>
      isResponse response = true ∧ started[s]? = some (idOf response) ∧ tagOf response ≠ "ok"
  | _ => True

theorem getElem?_more {l : List ℕ} {i a : ℕ} (h : l[i]? = some a) (more : List ℕ) :
    (l ++ more)[i]? = some a := by
  rw [List.getElem?_append_left (List.getElem?_eq_some_iff.mp h).1, h]

theorem Report.Answers.more {calls started : List ℕ} {report : Report}
    (h : report.Answers calls started) (calls' started' : List ℕ) :
    report.Answers (calls ++ calls') (started ++ started') := by
  unfold Report.Answers at h ⊢
  split
  · exact ⟨h.1, getElem?_more h.2 _⟩
  · exact ⟨h.1, getElem?_more h.2.1 _, h.2.2⟩
  · trivial

namespace UnixTransport

/-- Entries and reports speak of the ids that were asked under. -/
structure Matched (t : UnixTransport) : Prop where
  pending : ∀ e ∈ t.pending.entries, t.calls[e.2.call]? = some e.1
  streams : ∀ e ∈ t.streams.entries, t.started[e.2]? = some e.1
  reports : ∀ report ∈ t.reports, report.Answers t.calls t.started

variable {js : Runtime} {t t' : UnixTransport} {responses : List Json}

theorem Matched.effect (h : t.Matched) (heffect : Effect js t responses t') : t'.Matched := by
  obtain ⟨hpending, hstreams, hreports⟩ := h
  cases heffect with
  | refused id error =>
      refine ⟨fun e he => getElem?_more (hpending e he) _, hstreams,
        List.forall_mem_append.mpr ⟨fun report hreport => ?_,
          List.forall_mem_singleton.mpr trivial⟩⟩
      simpa using (hreports report hreport).more [id] []
  | pended alive free timeoutMs =>
      refine ⟨fun e he => ?_, hstreams, fun report hreport => ?_⟩
      · rcases Table.mem_set he with rfl | he
        · exact List.getElem?_concat_length
        · exact getElem?_more (hpending e he) _
      · simpa using (hreports report hreport).more [_] []
  | answered valid hpend =>
      exact ⟨fun e he => hpending e (Table.mem_erase.mp he).1, hstreams,
        List.forall_mem_append.mpr ⟨hreports, List.forall_mem_singleton.mpr
          ⟨valid, hpending _ (Table.mem_of_get? hpend)⟩⟩⟩
  | rejected hpend error =>
      exact ⟨fun e he => hpending e (Table.mem_erase.mp he).1, hstreams,
        List.forall_mem_append.mpr ⟨hreports, List.forall_mem_singleton.mpr trivial⟩⟩
  | opened alive id =>
      refine ⟨hpending, fun e he => ?_, fun report hreport => ?_⟩
      · rcases Table.mem_set he with rfl | he
        · exact List.getElem?_concat_length
        · exact getElem?_more (hstreams e he) _
      · simpa using (hreports report hreport).more [] [id]
  | pushed valid hstream data =>
      refine ⟨hpending, fun e he => ?_, List.forall_mem_append.mpr ⟨hreports,
        List.forall_mem_singleton.mpr ⟨valid, hstreams _ (Table.mem_of_get? hstream), data⟩⟩⟩
      dsimp only at he
      split_ifs at he
      · exact hstreams e (Table.mem_erase.mp he).1
      · exact hstreams e he
  | dropped id => exact ⟨hpending, fun e he => hstreams e (Table.mem_erase.mp he).1, hreports⟩
  | broken | returned | finished =>
      exact ⟨hpending, hstreams, List.forall_mem_append.mpr
        ⟨hreports, List.forall_mem_singleton.mpr trivial⟩⟩
  | wrote hwriting => exact resolveJob_keeps (fun _ _ => ⟨hpending, hstreams, hreports⟩) _
  | unwritten hwriting error =>
      exact rejectJob_keeps (fun _ _ => ⟨hpending, hstreams, hreports⟩) _ _
  | settled op result => exact settle_keeps (fun _ _ => ⟨hpending, hstreams, hreports⟩) _ _
  | died alive error =>
      obtain ⟨racing, microtasks, hfail⟩ := fail_eq alive error
      rw [hfail]
      refine ⟨fun e he => absurd he List.not_mem_nil, fun e he => absurd he List.not_mem_nil,
        List.forall_mem_append.mpr ⟨List.forall_mem_append.mpr ⟨hreports, ?_⟩, ?_⟩⟩
      · exact List.forall_mem_map.mpr fun _ _ => trivial
      · exact List.forall_mem_map.mpr fun _ _ => trivial
  | _ => exact ⟨hpending, hstreams, hreports⟩

/-! ### The order of the wire -/

/-- The responses that were handed on. -/
def taken (t : UnixTransport) : List Json := t.reports.filterMap Report.response

/-- A part hands on some of the responses it is about, and leaves the decoder alone. -/
theorem taken_effect (heffect : Effect js t responses t') :
    (∃ more, more.Sublist responses ∧ t'.taken = t.taken ++ more) ∧
      t'.received = t.received ∧ t'.decoder = t.decoder ∧ (t.dead ≠ none → t'.dead ≠ none) := by
  cases heffect with
  | answered valid hpend => exact ⟨⟨_, .refl _, by simp [taken, Report.response]⟩, rfl, rfl, id⟩
  | pushed valid hstream data =>
      exact ⟨⟨_, .refl _, by simp [taken, Report.response]⟩, rfl, rfl, id⟩
  | passed response => exact ⟨⟨[], List.nil_sublist _, by simp⟩, rfl, rfl, id⟩
  | refused | rejected | broken | returned | finished =>
      exact ⟨⟨[], .refl _, by simp [taken, List.filterMap_cons, Report.response]⟩, rfl, rfl, id⟩
  | wrote hwriting =>
      obtain ⟨racing, microtasks, hjob⟩ := resolveJob_eq { t with writing := none } _
      rw [hjob]
      exact ⟨⟨[], .refl _, by simp [taken]⟩, rfl, rfl, id⟩
  | unwritten hwriting error =>
      obtain ⟨racing, microtasks, hjob⟩ := rejectJob_eq error { t with writing := none } _
      rw [hjob]
      exact ⟨⟨[], .refl _, by simp [taken]⟩, rfl, rfl, id⟩
  | settled op result =>
      obtain ⟨racing, microtasks, hsettle⟩ := settle_eq t op result
      rw [hsettle]
      exact ⟨⟨[], .refl _, by simp [taken]⟩, rfl, rfl, id⟩
  | died alive error =>
      obtain ⟨racing, microtasks, hfail⟩ := fail_eq alive error
      rw [hfail]
      refine ⟨⟨[], .refl _, ?_⟩, rfl, rfl, fun hdead => absurd alive hdead⟩
      simp [taken, List.filterMap_append, List.filterMap_map, Function.comp_def, Report.response]
  | _ => exact ⟨⟨[], .refl _, by simp [taken]⟩, rfl, rfl, id⟩

theorem taken_effects (heffects : Effects js t responses t') :
    (∃ more, more.Sublist responses ∧ t'.taken = t.taken ++ more) ∧
      t'.received = t.received ∧ t'.decoder = t.decoder ∧ (t.dead ≠ none → t'.dead ≠ none) := by
  induction heffects with
  | refl => exact ⟨⟨[], .refl _, by simp⟩, rfl, rfl, id⟩
  | tail _ heffect ih =>
      obtain ⟨⟨first, hfirst, htaken⟩, hreceived, hdecoder, hdead⟩ := ih
      obtain ⟨⟨more, hmore, htaken'⟩, hreceived', hdecoder', hdead'⟩ := taken_effect heffect
      exact ⟨⟨first ++ more, hfirst.append hmore, by rw [htaken', htaken, List.append_assoc]⟩,
        hreceived'.trans hreceived, hdecoder'.trans hdecoder, hdead' ∘ hdead⟩

/-- What was handed on stands in the bytes, in their order; and as long as the transport lives,
the decoder holds what is left of them. -/
structure Ordered (js : Runtime) (t : UnixTransport) : Prop where
  taken : t.taken.Sublist ((frames js.parse).drain t.received).items
  valid : t.dead = none → t.decoder.Valid
  held : t.dead = none → t.decoder.held = ((frames js.parse).drain t.received).rest
  sound : t.dead = none → ((frames js.parse).drain t.received).failure = none

theorem Ordered.step {move : Move} (h : t.Ordered js) (hstep : Step js t move t') :
    t'.Ordered js := by
  cases step_came hstep with
  | quietly heffects =>
      obtain ⟨⟨more, hmore, htaken⟩, hreceived, hdecoder, hdead⟩ := taken_effects heffects
      -- Nothing came, so that nothing was handed on.
      have hnil : more = [] := List.sublist_nil.mp hmore
      have halive : t'.dead = none → t.dead = none := fun hnone => by
        by_contra hsome
        exact hdead hsome hnone
      rw [hnil, List.append_nil] at htaken
      refine ⟨?_, fun hnone => ?_, fun hnone => ?_, fun hnone => ?_⟩
      · rw [htaken, hreceived]
        exact h.taken
      · rw [hdecoder]
        exact h.valid (halive hnone)
      · rw [hdecoder, hreceived]
        exact h.held (halive hnone)
      · rw [hreceived]
        exact h.sound (halive hnone)
  | fed alive chunk hpush hseen heffects =>
      obtain ⟨⟨more, hmore, htaken⟩, hreceived, hdecoder, -⟩ := taken_effects heffects
      have hheld := FrameDecoder.push_held js.parse (h.valid alive) chunk
      have hdrain := Reader.drain_append (h.sound alive) chunk
      rw [← h.held alive] at hdrain
      cases hfailure : ((frames js.parse).drain (t.decoder.held ++ chunk)).failure with
      -- Bytes that do not decode throw, which this chunk did not.
      | some e =>
          rw [hfailure] at hheld
          obtain ⟨decoder, hthrown⟩ := hheld
          rw [hthrown] at hpush
          cases hpush
      | none =>
          rw [hfailure] at hheld
          obtain ⟨decoder, hdecoded, hvalid, hrest⟩ := hheld
          rw [hdecoded] at hpush
          obtain ⟨hitems, rfl⟩ := Prod.mk.inj hpush
          obtain rfl := Except.ok.inj hitems
          refine ⟨?_, fun _ => ?_, fun _ => ?_, fun _ => ?_⟩
          · rw [htaken, hreceived, hdrain]
            exact h.taken.append (hmore.trans hseen.sublist)
          · rw [hdecoder]
            exact hvalid
          · rw [hdecoder, hreceived, hdrain]
            exact hrest
          · rw [hreceived, hdrain]
            exact hfailure
  | choked alive chunk hpush heffects dead =>
      obtain ⟨⟨more, hmore, htaken⟩, hreceived, -, -⟩ := taken_effects heffects
      -- What the chunk decodes to in front of its failure is handed to no one.
      rw [List.sublist_nil.mp hmore, List.append_nil] at htaken
      have hdrain := Reader.drain_append (h.sound alive) chunk
      refine ⟨?_, fun hnone => absurd hnone dead, fun hnone => absurd hnone dead,
        fun hnone => absurd hnone dead⟩
      rw [htaken, hreceived, hdrain]
      exact h.taken.trans (List.sublist_append_left _ _)

/-! ### The end of a stream -/

/-- What a stream was pushed. -/
def pushes (t : UnixTransport) (stream : ℕ) : List Json :=
  t.reports.filterMap (Report.pushedTo stream)

/-- A stream in the table was pushed no last frame, and behind a last one comes none. -/
structure Ends (t : UnixTransport) : Prop where
  distinct : t.streams.values.Nodup
  started : ∀ stream ∈ t.streams.values, stream < t.started.length
  fresh : ∀ stream, t.started.length ≤ stream → t.pushes stream = []
  open_ : ∀ stream ∈ t.streams.values, ∀ response ∈ t.pushes stream, isLast response = false
  last : ∀ stream, ∀ response ∈ (t.pushes stream).dropLast, isLast response = false

/-- The streams that stay, and no stream pushed to. -/
theorem Ends.kept (h : t.Ends) (hstreams : t'.streams.values.Sublist t.streams.values)
    (hstarted : t'.started = t.started) (hpushes : ∀ stream, t'.pushes stream = t.pushes stream) :
    t'.Ends where
  distinct := h.distinct.sublist hstreams
  started stream hstream := by
    rw [hstarted]
    exact h.started stream (hstreams.subset hstream)
  fresh stream hle := by
    rw [hpushes]
    exact h.fresh stream (hstarted ▸ hle)
  open_ stream hstream := by
    rw [hpushes]
    exact h.open_ stream (hstreams.subset hstream)
  last stream := by
    rw [hpushes]
    exact h.last stream

/-- A stream in the table is pushed a frame, and leaves the table if that was the last. -/
theorem Ends.pushed (h : t.Ends) {response : Json} {stream : ℕ}
    (hstream : t.streams.get? (idOf response) = some stream) :
    Ends { t with
      reports := t.reports ++ [.inbox stream (.ok response)]
      streams := if isLast response then t.streams.erase (idOf response) else t.streams } := by
  have hmem : stream ∈ t.streams.values := List.mem_map_of_mem (Table.mem_of_get? hstream)
  have hsub : (if isLast response then t.streams.erase (idOf response)
      else t.streams).values.Sublist t.streams.values := by
    split_ifs
    · exact Table.values_erase_sublist _ _
    · exact .refl _
  have hself : (t.reports ++ [Report.inbox stream (.ok response)]).filterMap
      (Report.pushedTo stream) = t.pushes stream ++ [response] := by
    simp [pushes, Report.pushedTo]
  have hother : ∀ s, s ≠ stream → (t.reports ++ [Report.inbox stream (.ok response)]).filterMap
      (Report.pushedTo s) = t.pushes s := fun s hs => by
    simp [pushes, Report.pushedTo, Ne.symm hs]
  refine ⟨h.distinct.sublist hsub, fun s hs => h.started s (hsub.subset hs), fun s hle => ?_,
    fun s hs => ?_, fun s => ?_⟩
  · have hne : s ≠ stream := fun heq => by
      have hlt := h.started stream hmem
      rw [heq] at hle
      exact absurd hlt (not_lt.mpr hle)
    exact (hother s hne).trans (h.fresh s hle)
  · by_cases hne : s = stream
    · subst hne
      -- It is still in the table, so that this frame was not its last.
      have hnot : isLast response = false := by
        by_contra hlast
        rw [Bool.not_eq_false] at hlast
        have herased := Table.values_perm_erase hstream
        rw [if_pos hlast] at hs
        exact (List.nodup_cons.mp (herased.nodup_iff.mp h.distinct)).1 hs
      show ∀ r ∈ List.filterMap _ _, _
      rw [hself]
      exact List.forall_mem_append.mpr ⟨h.open_ s hmem, List.forall_mem_singleton.mpr hnot⟩
    · show ∀ r ∈ List.filterMap _ _, _
      rw [hother s hne]
      exact h.open_ s (hsub.subset hs)
  · show ∀ r ∈ (List.filterMap _ _).dropLast, _
    by_cases hne : s = stream
    · subst hne
      rw [hself, List.dropLast_concat]
      exact h.open_ s hmem
    · rw [hother s hne]
      exact h.last s

theorem Ends.effect (h : t.Ends) (heffect : Effect js t responses t') : t'.Ends := by
  cases heffect with
  | answered valid hpend =>
      exact h.kept (.refl _) rfl fun stream => by simp [pushes, Report.pushedTo]
  | refused | rejected | broken | returned | finished =>
      exact h.kept (.refl _) rfl fun stream => by simp [pushes, Report.pushedTo]
  | opened alive id =>
      have hset := Table.values_perm_set t.streams id t.started.length
      have hold := Table.values_erase_sublist t.streams id
      have hcases : ∀ stream ∈ (t.streams.set id t.started.length).values,
          stream = t.started.length ∨ stream ∈ t.streams.values := fun stream hstream =>
        (List.mem_cons.mp (hset.mem_iff.mp hstream)).imp_right fun hmem => hold.subset hmem
      refine ⟨hset.nodup_iff.mpr (List.nodup_cons.mpr ⟨fun hmem => ?_, h.distinct.sublist hold⟩),
        fun stream hstream => ?_, fun stream hle => ?_, fun stream hstream => ?_, h.last⟩
      · exact absurd (h.started _ (hold.subset hmem)) (lt_irrefl _)
      · rw [List.length_append, List.length_singleton]
        rcases hcases stream hstream with rfl | hstream
        · exact Nat.lt_succ_self _
        · exact Nat.lt_succ_of_lt (h.started stream hstream)
      · rw [List.length_append, List.length_singleton] at hle
        exact h.fresh stream (by omega)
      · rcases hcases stream hstream with rfl | hstream
        · have hnone : t.pushes t.started.length = [] := h.fresh _ le_rfl
          intro response hresponse
          exact absurd (hnone ▸ hresponse) List.not_mem_nil
        · exact h.open_ stream hstream
  | pushed valid hstream data =>
      exact h.pushed hstream
  | dropped id => exact h.kept (Table.values_erase_sublist _ _) rfl fun _ => rfl
  | wrote hwriting =>
      exact resolveJob_keeps (t := { t with writing := none })
        (fun _ _ => h.kept (.refl _) rfl fun _ => rfl) _
  | unwritten hwriting error =>
      exact rejectJob_keeps (t := { t with writing := none })
        (fun _ _ => h.kept (.refl _) rfl fun _ => rfl) _ _
  | settled op result => exact settle_keeps (fun _ _ => h.kept (.refl _) rfl fun _ => rfl) _ _
  | died alive error =>
      obtain ⟨racing, microtasks, hfail⟩ := fail_eq alive error
      rw [hfail]
      refine h.kept (List.nil_sublist _) rfl fun stream => ?_
      simp [pushes, List.filterMap_append, List.filterMap_map, Function.comp_def, Report.pushedTo]
  | _ => exact h.kept (.refl _) rfl fun _ => rfl

/-! ### Runs -/

theorem matched_new : new.Matched :=
  ⟨fun _ he => absurd he List.not_mem_nil, fun _ he => absurd he List.not_mem_nil,
    fun _ he => absurd he List.not_mem_nil⟩

theorem ends_new : new.Ends :=
  ⟨List.nodup_nil, fun _ he => absurd he List.not_mem_nil, fun _ _ => rfl,
    fun _ he => absurd he List.not_mem_nil, fun _ _ he => absurd he List.not_mem_nil⟩

theorem ordered_new (js : Runtime) : new.Ordered js := by
  have hdrain : (frames js.parse).drain [] = ⟨[], [], none⟩ := Reader.drain_wait Proto.read_nil
  refine ⟨List.nil_sublist _, fun _ => FrameDecoder.valid_new, fun _ => ?_, fun _ => ?_⟩
  · show FrameDecoder.new.held = ((frames js.parse).drain []).rest
    rw [hdrain, FrameDecoder.held_new]
  · show ((frames js.parse).drain []).failure = none
    rw [hdrain]

theorem Reaches.ordered (h : Reaches js t) : t.Ordered js := by
  induction h with
  | new => exact ordered_new js
  | step _ hstep ih => exact ih.step hstep

theorem Reaches.answers (h : Reaches js t) : t.Matched :=
  h.always matched_new (fun _ _ _ h => ⟨h.pending, h.streams, h.reports⟩) Matched.effect

theorem Reaches.ends (h : Reaches js t) : t.Ends :=
  h.always ends_new (fun _ _ _ h => h.kept (.refl _) rfl fun _ => rfl) Ends.effect

/-- However the bytes are cut and whatever comes between them: what is handed on are responses
of the wire, in its order and each once; a call gets one that carries its id; a stream gets
those that carry its id, no acknowledgement among them and nothing behind the one that ends
it. -/
theorem Reaches.responses_matched (h : Reaches js t) :
    t.taken.Sublist ((frames js.parse).drain t.received).items ∧
      (∀ call response, .call call (.ok response) ∈ t.reports →
        isResponse response = true ∧ t.calls[call]? = some (idOf response)) ∧
      ∀ stream, (∀ response ∈ t.pushes stream, isResponse response = true ∧
          t.started[stream]? = some (idOf response) ∧ tagOf response ≠ "ok") ∧
        ∀ response ∈ (t.pushes stream).dropLast, isLast response = false := by
  refine ⟨h.ordered.taken, fun call response hmem => h.answers.reports _ hmem, fun stream =>
    ⟨fun response hmem => ?_, h.ends.last stream⟩⟩
  obtain ⟨report, hreport, hpushed⟩ := List.mem_filterMap.mp hmem
  have hanswers := h.answers.reports report hreport
  unfold Report.pushedTo at hpushed
  split at hpushed
  · split_ifs at hpushed with hstream
    cases hpushed
    rw [← hstream]
    exact hanswers
  · cases hpushed

/-- A `ping` that is answered. -/
def answered : UnixTransport := (new.call pings (.ping 2) 0x3ff0000000000000).receive pings
  (Proto.putU32 pong.length ++ pong)

theorem answered_matched :
    answered.taken.Sublist ((frames pings.parse).drain answered.received).items := by
  have hcall : Reaches pings (new.call pings (.ping 2) 0x3ff0000000000000) :=
    .step .new (.call (.ping 2) 0x3ff0000000000000)
  exact (Reaches.responses_matched (hcall.step (.data rfl _))).1

end UnixTransport

end Lug.Ts
