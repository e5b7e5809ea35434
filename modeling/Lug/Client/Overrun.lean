import Lug.Client.Credit

/-!
What ends a subscription with `Error::Overrun`. Its channel is bounded in frames,
and acknowledgements, views and gaps wait in it beside the records the credit
counts, so it is full long before the window is.
-/

namespace Lug.Client

open Lug.Server

namespace Frames

variable {f : Frames}

theorem pollFrom_nil (f : Frames) (ready : ℕ → Bool) :
    f.pollFrom ready [] =
      if f.connected then (.pending, { f.maybeGrant (ready 0) with rx := [] })
      else (.error (if f.overrun then .overrun else .disconnected),
        { f.maybeGrant (ready 0) with rx := [], done := true }) := by
  obtain ⟨-, hconnected, -, -, hoverrun⟩ := maybeGrant_frame (ready 0) f
  rw [pollFrom]
  dsimp only
  rw [hconnected, hoverrun]

/-! ### A channel that was never full -/

/-- Nothing in the channel, nor the channel itself, says `Overrun`. -/
structure Safe (f : Frames) : Prop where
  overrun : f.overrun = false
  rx : ∀ item ∈ f.rx, item ≠ .error .overrun

theorem unpack_ne_overrun (body : Body) : unpack body ≠ .error .overrun := by
  cases body <;> exact nofun

theorem Safe.deliver (h : f.Safe) (room : f.connected = true → f.rx.length < f.capacity)
    (body : Body) : (f.deliver body).Safe := by
  rw [Frames.deliver]
  split_ifs with hconnected hroom
  · refine ⟨h.overrun, fun item hitem => ?_⟩
    cases List.mem_append.mp hitem with
    | inl hold => exact h.rx item hold
    | inr hnew =>
        rw [List.mem_singleton.mp hnew]
        exact unpack_ne_overrun body
  · exact absurd (room hconnected) hroom
  · exact h

theorem Safe.fail (h : f.Safe) : f.fail.Safe := by
  rw [Frames.fail]
  split_ifs
  · refine ⟨h.overrun, fun item hitem => ?_⟩
    cases List.mem_append.mp hitem with
    | inl hold => exact h.rx item hold
    | inr hnew =>
        rw [List.mem_singleton.mp hnew]
        exact (fun h => by cases h)
  · exact ⟨h.overrun, h.rx⟩
  · exact h

theorem Safe.maybeGrant (h : f.Safe) (ready : Bool) : (f.maybeGrant ready).Safe := by
  obtain ⟨-, -, hrx, -, hoverrun⟩ := maybeGrant_frame ready f
  refine ⟨hoverrun.trans h.overrun, ?_⟩
  rw [hrx]
  exact h.rx

theorem Safe.pollFrom {f : Frames} {rx : List (Except Error Body)} {ready : ℕ → Bool}
    (h : Safe { f with rx }) :
    (f.pollFrom ready rx).1 ≠ .error .overrun ∧ (f.pollFrom ready rx).2.Safe := by
  induction rx generalizing f ready with
  | nil =>
      have hoverrun := (maybeGrant_frame (ready 0) f).2.2.2.2.trans h.overrun
      rw [pollFrom_nil]
      split
      · exact ⟨nofun, hoverrun, h.rx⟩
      · refine ⟨fun he => ?_, hoverrun, h.rx⟩
        rw [if_neg (ne_true_of_eq_false h.overrun)] at he
        cases he
  | cons item rx ih =>
      have hoverrun := (maybeGrant_frame (ready 0) f).2.2.2.2.trans h.overrun
      have htail : ∀ item ∈ rx, item ≠ .error .overrun :=
        fun item hitem => h.rx item (List.mem_cons_of_mem _ hitem)
      have hrest : ∀ g : Frames, g.overrun = false → Safe { g with rx } :=
        fun g hg => ⟨hg, htail⟩
      match item, h.rx item List.mem_cons_self with
      | .error e, hitem => exact ⟨fun he => hitem (congrArg _ (Poll.error.inj he)), hoverrun, htail⟩
      | .ok .ok, _ => exact ih (hrest _ hoverrun)
      | .ok .welcome, _ => exact ih (hrest _ hoverrun)
      | .ok .ended, _ => exact ⟨nofun, hoverrun, htail⟩
      | .ok .answer, _ => exact ⟨nofun, hoverrun, htail⟩
      | .ok (.error _), _ => exact ⟨nofun, hoverrun, htail⟩
      | .ok (.pushed (.view _ _)), _ => exact ⟨nofun, hoverrun, htail⟩
      | .ok (.pushed (.gap _ _)), _ => exact ⟨nofun, hoverrun, htail⟩
      | .ok (.pushed (.error _)), _ => exact ⟨nofun, hoverrun, htail⟩
      | .ok (.pushed (.records sent)), _ => 
          refine ⟨nofun, Safe.maybeGrant (f := { f.maybeGrant (ready 0) with
            rx, drained := min ((f.maybeGrant (ready 0)).drained + sent.length % 2 ^ 32) creditMax })
            ⟨hoverrun, htail⟩ _⟩

theorem Safe.pollNext (h : f.Safe) (ready : ℕ → Bool) :
    (f.pollNext ready).1 ≠ .error .overrun ∧ (f.pollNext ready).2.Safe := by
  rw [Frames.pollNext]
  split
  · exact ⟨(fun h => by cases h), h⟩
  · exact Safe.pollFrom h

/-! ### A channel that was full -/

/-- The stream goes on after this item. -/
def Going (item : Except Error Body) : Prop := ∃ body, item = .ok body ∧ body.isFinal = false

/-- The flags a subscription keeps while it goes on. -/
def Same (f f' : Frames) : Prop :=
  f'.done = f.done ∧ f'.connected = f.connected ∧ f'.overrun = f.overrun

theorem same_maybeGrant (ready : Bool) (f : Frames) : Same f (f.maybeGrant ready) := by
  obtain ⟨-, hconnected, -, hdone, hoverrun⟩ := maybeGrant_frame ready f
  exact ⟨hdone, hconnected, hoverrun⟩

theorem Same.trans {f g k : Frames} (h : Same f g) (h' : Same g k) : Same f k :=
  ⟨h'.1.trans h.1, h'.2.1.trans h.2.1, h'.2.2.trans h.2.2⟩

/-- What a poll finds in a channel in which nothing ends the stream. -/
inductive Outcome (f : Frames) (rx : List (Except Error Body)) : Poll → Frames → Prop
  | hands {body f'} (same : Same f f') (fewer : f'.rx.length < rx.length)
      (rest : ∀ item ∈ f'.rx, item ∈ rx) : Outcome f rx (.frame body) f'
  | waits {f'} (same : Same f f') (connected : f.connected = true) (empty : f'.rx = []) :
      Outcome f rx .pending f'
  | ends {f'} (connected : f.connected = false) :
      Outcome f rx (.error (if f.overrun then .overrun else .disconnected)) f'

/-- The loop goes past what is plumbing. -/
theorem Outcome.skip {g f' : Frames} {rx : List (Except Error Body)} {item : Except Error Body}
    {p : Poll} (h : Outcome g rx p f') (hg : Same f g) : Outcome f (item :: rx) p f' := by
  cases h with
  | hands same fewer rest =>
      exact .hands (hg.trans same) (fewer.trans (Nat.lt_succ_self _))
        fun item hitem => List.mem_cons_of_mem _ (rest item hitem)
  | waits same connected empty => exact .waits (hg.trans same) (hg.2.1 ▸ connected) empty
  | ends connected =>
      rw [hg.2.2]
      exact .ends (hg.2.1 ▸ connected)

theorem pollFrom_outcome {f : Frames} {rx : List (Except Error Body)} {ready : ℕ → Bool}
    (h : ∀ item ∈ rx, Going item) :
    Outcome f rx (f.pollFrom ready rx).1 (f.pollFrom ready rx).2 := by
  induction rx generalizing f ready with
  | nil =>
      rw [pollFrom_nil]
      split
      · rename_i hconnected
        exact .waits (same_maybeGrant _ f) hconnected rfl
      · rename_i hconnected
        exact .ends (Bool.eq_false_iff.mpr hconnected)
  | cons item rx ih =>
      have hsame := same_maybeGrant (ready 0) f
      have hrest : ∀ ready', Outcome f (item :: rx)
          ((f.maybeGrant (ready 0)).pollFrom ready' rx).1
          ((f.maybeGrant (ready 0)).pollFrom ready' rx).2 :=
        fun ready' => (ih fun i hi => h i (List.mem_cons_of_mem _ hi)).skip hsame
      have hhand : ∀ body, Outcome f (item :: rx) (.frame body)
          { f.maybeGrant (ready 0) with rx } :=
        fun body => .hands hsame (Nat.lt_succ_self _) fun i hi => List.mem_cons_of_mem _ hi
      obtain ⟨body, rfl, hgoing⟩ := h item List.mem_cons_self
      match body with
      | .ok => exact hrest fun n => ready (n + 1)
      | .welcome => exact hrest fun n => ready (n + 1)
      | .ended => cases hgoing
      | .error _ => cases hgoing
      | .answer => exact hhand _
      | .pushed (.view _ _) => exact hhand _
      | .pushed (.gap _ _) => exact hhand _
      | .pushed (.error _) => exact hhand _
      | .pushed (.records sent) =>
          obtain ⟨-, -, hrx, -⟩ := maybeGrant_frame (ready 1) { f.maybeGrant (ready 0) with
            rx, drained := min ((f.maybeGrant (ready 0)).drained + sent.length % 2 ^ 32) creditMax }
          exact .hands (hsame.trans (same_maybeGrant (ready 1) _))
            ((congrArg List.length hrx).trans_lt (Nat.lt_succ_self _))
            fun i hi => List.mem_cons_of_mem _ ((congrArg (i ∈ ·) hrx).mp hi)

/-- A stream that has not ended, and nothing that waits for it ends it. -/
structure Feeding (f : Frames) : Prop where
  done : f.done = false
  rx : ∀ item ∈ f.rx, Going item

theorem Feeding.outcome (h : f.Feeding) (ready : ℕ → Bool) :
    Outcome f f.rx (f.pollNext ready).1 (f.pollNext ready).2 := by
  rw [pollNext, if_neg (ne_true_of_eq_false h.done)]
  exact pollFrom_outcome h.rx

theorem Feeding.pollNext (h : f.Feeding) (hconnected : f.connected = true) (ready : ℕ → Bool) :
    (f.pollNext ready).2.Feeding := by
  have hout := h.outcome ready
  generalize f.pollNext ready = r at hout
  obtain ⟨p, f'⟩ := r
  cases hout with
  | hands same fewer rest => exact ⟨same.1.trans h.done, fun i hi => h.rx i (rest i hi)⟩
  | waits same connected empty =>
      refine ⟨same.1.trans h.done, ?_⟩
      rw [empty]
      exact List.forall_mem_nil _
  | ends connected => cases hconnected.symm.trans connected

theorem deliver_connected {body : Body} (h : (f.deliver body).connected = true) :
    f.connected = true := (deliver_taken f body).complete h |>.1

theorem Feeding.deliver (h : f.Feeding) {body : Body}
    (hconnected : (f.deliver body).connected = true) : (f.deliver body).Feeding := by
  have hwas := deliver_connected hconnected
  rw [Frames.deliver, if_pos hwas] at hconnected ⊢
  by_cases hroom : f.rx.length < f.capacity
  · rw [if_pos hroom] at hconnected ⊢
    refine ⟨h.done, fun item hitem => ?_⟩
    cases List.mem_append.mp hitem with
    | inl hold => exact h.rx item hold
    | inr hnew =>
        rw [List.mem_singleton.mp hnew]
        cases body with
        | ended => cases hconnected
        | error _ => cases hconnected
        | _ => exact ⟨_, rfl, rfl⟩
  · rw [if_neg hroom] at hconnected
    cases hconnected

theorem fail_connected (f : Frames) : f.fail.connected = false := by
  rw [fail]
  split_ifs with hconnected
  · rfl
  · rfl
  · exact Bool.eq_false_iff.mpr hconnected

theorem pollFrom_connected (f : Frames) (ready : ℕ → Bool) (rx : List (Except Error Body)) :
    (f.pollFrom ready rx).2.connected = f.connected := by
  induction rx generalizing f ready with
  | nil =>
      rw [pollFrom_nil]
      split <;> exact (same_maybeGrant (ready 0) f).2.1
  | cons item rx ih =>
      have hgrant := (same_maybeGrant (ready 0) f).2.1
      match item with
      | .ok .ok | .ok .welcome => exact (ih _ _).trans hgrant
      | .ok (.pushed (.records sent)) => exact ((same_maybeGrant (ready 1) _).2.1).trans hgrant
      | .error _ | .ok .ended | .ok .answer | .ok (.error _) | .ok (.pushed (.view _ _))
      | .ok (.pushed (.gap _ _)) | .ok (.pushed (.error _)) => exact hgrant

theorem pollNext_connected (f : Frames) (ready : ℕ → Bool) :
    (f.pollNext ready).2.connected = f.connected := by
  rw [pollNext]
  split
  · rfl
  · exact pollFrom_connected f ready f.rx

/-- One poll after the other. -/
def polled (ready : ℕ → ℕ → Bool) (f : Frames) : ℕ → Frames
  | 0 => f
  | n + 1 => ((polled ready f n).pollNext (ready n)).2

theorem polled_succ (ready : ℕ → ℕ → Bool) (f : Frames) (n : ℕ) :
    f.polled ready (n + 1) = (f.pollNext (ready 0)).2.polled (fun i => ready (i + 1)) n := by
  induction n with
  | zero => rfl
  | succ n ih =>
      rw [polled, ih]
      rfl

/-- A stream that was cut off hands over what waited, and then says `Overrun`. -/
theorem Feeding.overruns (h : f.Feeding) (hconnected : f.connected = false)
    (hoverrun : f.overrun = true) (ready : ℕ → ℕ → Bool) :
    ∃ n, ((f.polled ready n).pollNext (ready n)).1 = .error .overrun := by
  induction hn : f.rx.length using Nat.strong_induction_on generalizing f ready with
  | _ n ih =>
      have hout := h.outcome (ready 0)
      generalize hr : f.pollNext (ready 0) = r at hout
      obtain ⟨p, f'⟩ := r
      cases hout with
      | @hands _ _ same fewer rest =>
          have hfeeding : f'.Feeding := ⟨same.1.trans h.done, fun i hi => h.rx i (rest i hi)⟩
          obtain ⟨m, hm⟩ := ih f'.rx.length (hn ▸ fewer) hfeeding
            (same.2.1.trans hconnected) (same.2.2.trans hoverrun) (fun i => ready (i + 1)) rfl
          refine ⟨m + 1, ?_⟩
          rw [polled_succ, hr]
          exact hm
      | waits same connected empty => cases hconnected.symm.trans connected
      | ends connected =>
          refine ⟨0, ?_⟩
          rw [polled, hr, if_pos hoverrun]

end Frames

/-! ### Runs -/

namespace Link

/-- The next frame on its way gets to the client. -/
def Delivers (l l' : Link) : Prop :=
  ∃ frame rest, l.down = frame :: rest ∧
    l' = { l with frames := l.frames.deliver frame, down := rest }

/-- Of the frames the channel can hold, acknowledgements, views and gaps among
them, not all wait for the consumer. -/
def Room (l : Link) : Prop :=
  l.frames.connected = true → l.frames.rx.length < l.frames.capacity

/-- The states of a link whose deliveries all find room. -/
inductive Roomy (l₀ : Link) : Link → Prop
  | refl : Roomy l₀ l₀
  | step {l l'} (h : Roomy l₀ l) (hs : Step l l') (room : Delivers l l' → l.Room) : Roomy l₀ l'

variable {l l' : Link}

/-- The channel never was full, and nothing ends the stream before the connection
lets go of it. -/
structure Sized (l : Link) : Prop where
  safe : l.frames.Safe
  feeding : l.frames.connected = true → l.frames.Feeding

theorem Sized.step (h : l.Sized) (hs : Step l l') (room : Delivers l l' → l.Room) : l'.Sized := by
  cases hs with
  | poll ready =>
      refine ⟨(h.safe.pollNext ready).2, fun hconnected => ?_⟩
      have hwas := (Frames.pollNext_connected l.frames ready).symm.trans hconnected
      exact (h.feeding hwas).pollNext hwas ready
  | write hc =>
      exact ⟨⟨h.safe.overrun, h.safe.rx⟩, fun hc => ⟨(h.feeding hc).done, (h.feeding hc).rx⟩⟩
  | deliver hd =>
      refine ⟨h.safe.deliver (room ⟨_, _, hd, rfl⟩) _, fun hconnected => ?_⟩
      exact (h.feeding (Frames.deliver_connected hconnected)).deliver hconnected
  | lost =>
      exact ⟨h.safe.fail, fun hconnected => absurd hconnected
        (ne_true_of_eq_false (Frames.fail_connected l.frames))⟩
  | _ => exact ⟨h.safe, h.feeding⟩

theorem Roomy.sized {id from_ : ℕ} {mode : Mode} {window : UInt32}
    (h : Roomy (start id from_ mode window) l) : l.Sized := by
  induction h with
  | refl => exact ⟨⟨rfl, List.forall_mem_nil _⟩, fun _ => ⟨rfl, List.forall_mem_nil _⟩⟩
  | step _ hs room ih => exact ih.step hs room

/-- A subscription ends with `Overrun` if and only if a frame gets to a channel in
which as many frames wait as it can hold: as long as there was room no poll says
so, and the first time there is none the polls to come do. -/
theorem overrun_iff_full {id from_ : ℕ} {mode : Mode} {window : UInt32}
    (h : Roomy (start id from_ mode window) l) :
    (∀ ready, (l.frames.pollNext ready).1 ≠ .error .overrun) ∧
      (¬ l.Room → ∀ frame ready, ∃ n,
        (((l.frames.deliver frame).polled ready n).pollNext (ready n)).1 = .error .overrun) := by
  refine ⟨fun ready => (h.sized.safe.pollNext ready).1, fun hfull frame ready => ?_⟩
  obtain ⟨hconnected, hroom⟩ := Classical.not_imp.mp hfull
  have hfeeding := h.sized.feeding hconnected
  rw [Frames.deliver, if_pos hconnected, if_neg hroom]
  exact Frames.Feeding.overruns (f := { l.frames with overrun := true, connected := false })
    ⟨hfeeding.done, hfeeding.rx⟩ rfl rfl ready

/-- The acknowledgement is polled before the record comes. -/
theorem overrun_iff_full_polled : ∃ l, Roomy (start 7 0 .records 1) l ∧ l.pushed = 1 ∧
    ∀ ready, (l.frames.pollNext ready).1 ≠ .error .overrun := by
  have hquiet : ∀ {l l' : Link}, l'.down.length = l.down.length → ¬ Delivers l l' := by
    rintro l l' hlength ⟨frame, rest, hdown, rfl⟩
    rw [hdown] at hlength
    exact Nat.succ_ne_self _ hlength.symm
  have h₀ : Roomy (start 7 0 .records 1) (start 7 0 .records 1) := .refl
  have h₁ := h₀.step
    (.serve rfl ⟨256, 0⟩ oneRecord) fun hd => absurd hd (hquiet rfl)
  have h₂ := h₁.step (.serve rfl ⟨256, 0⟩ oneRecord) fun hd => absurd hd (hquiet rfl)
  have h₃ := h₂.step (.serve rfl ⟨256, 0⟩ oneRecord) fun hd => absurd hd (hquiet rfl)
  have h₄ := h₃.step (.deliver rfl) fun _ _ => by decide
  have h₅ := h₄.step (.poll fun _ => true) fun hd => absurd hd (hquiet rfl)
  have h₆ := h₅.step (.serve rfl ⟨256, 0⟩ oneRecord) fun _ _ => by decide
  have h₇ := h₆.step (.deliver rfl) fun _ _ => by decide
  exact ⟨_, h₇, rfl, (overrun_iff_full h₇).1⟩

/-- A window of one record is overrun by its own acknowledgement. -/
theorem overrun_by_ok : ¬ ∀ (id from_ : ℕ) (mode : Mode) (window : UInt32) (l : Link),
    1 ≤ window → Reaches (start id from_ mode window) l →
      ∀ ready, (l.frames.pollNext ready).1 ≠ .error .overrun := by
  intro h
  have h₀ : Reaches (start 7 0 .records 1) (start 7 0 .records 1) := .refl
  have h₁ := h₀.step (.serve rfl ⟨256, 0⟩ oneRecord)
  have h₂ := h₁.step (.serve rfl ⟨256, 0⟩ oneRecord)
  have h₃ := h₂.step (.serve rfl ⟨256, 0⟩ oneRecord)
  have h₄ := h₃.step (.serve rfl ⟨256, 0⟩ oneRecord)
  have h₅ := (h₄.step (.deliver rfl)).step (.deliver rfl)
  exact h 7 0 .records 1 _ (by decide) h₅ (fun _ => true) rfl

end Link

end Lug.Client
