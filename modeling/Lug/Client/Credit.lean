import Lug.Client.Frames

/-!
The credit protocol between a subscription and its stream task. Credit is in the
server's balance, on its way there, in the command queue, pending, or drained and
not yet asked for; records are spent against it, and handed over in the end.
-/

namespace Lug

/-! ### The stream task -/

namespace Stream

/-- The records in the hands of a stream: charged, but not sent. -/
def hand (t : Stream) : ℕ :=
  match t.phase with
  | .sending frame _ _ => frame.pushed.length
  | _ => 0

/-- The records a stream has sent. -/
def pushed (t : Stream) : ℕ := (t.sent.flatMap Frame.pushed).length

/-- A stream never charges more than it was granted. -/
def Within (granted : ℕ) (t : Stream) : Prop :=
  t.used ≤ granted ∧
    match t.phase with
    | .credited g | .reading g => t.used < g ∧ g ≤ granted
    | .awaiting _ limit => t.used + limit ≤ granted
    | _ => True

variable {granted : ℕ} {t : Stream}

theorem Within.mono (h : t.Within granted) {granted' : ℕ} (hg : granted ≤ granted') :
    t.Within granted' := by
  refine ⟨h.1.trans hg, ?_⟩
  have hphase := h.2
  split at hphase
  · exact ⟨hphase.1, hphase.2.trans hg⟩
  · exact ⟨hphase.1, hphase.2.trans hg⟩
  · exact hphase.trans hg
  · trivial

/-- What a step charges is what it then has in its hands. -/
theorem step_used (limits : Limits) (shared : Shared) (granted : ℕ) (t : Stream) :
    (t.step limits shared granted).used = t.used + (t.step limits shared granted).hand := by
  rw [Stream.step, hand]
  cases hphase : t.phase with
  | start | credited => dsimp only; split <;> rfl
  | reading g =>
      dsimp only
      split
      · rw [push]
        simp only [Frame.pushed, List.length_map]
      · rfl
  | opening | awaiting | ended => simp only [hphase, Nat.add_zero]
  | parkedCredit | parkedWatermark | parkedEmpty => rfl
  | sending frame cursor last => cases last <;> rfl

theorem step_pushed (limits : Limits) (shared : Shared) (granted : ℕ) (t : Stream) :
    (t.step limits shared granted).pushed = t.pushed + t.hand := by
  rw [Stream.step, hand]
  cases hphase : t.phase with
  | start | credited | reading => dsimp only; split <;> rfl
  | opening | awaiting | ended | parkedCredit | parkedWatermark | parkedEmpty => rfl
  | sending frame cursor last => simp only [pushed, List.flatMap_append, List.length_append,
      List.flatMap_singleton]

theorem Within.step (h : t.Within granted) (limits : Limits) (shared : Shared) :
    (t.step limits shared granted).Within granted := by
  have hcharged := h.2
  rw [Stream.step]
  cases hphase : t.phase with
  | start =>
      dsimp only
      split
      · exact ⟨h.1, trivial⟩
      · rename_i hcredit
        exact ⟨h.1, not_le.mp hcredit, le_rfl⟩
  | credited g =>
      rw [hphase] at hcharged
      dsimp only
      split
      · exact ⟨h.1, trivial⟩
      · exact ⟨h.1, hcharged⟩
  | reading g =>
      rw [hphase] at hcharged
      dsimp only at hcharged ⊢
      split
      · rename_i entry entries hread
        have hlength := Ring.readAfter_length hread
        refine ⟨?_, trivial⟩
        show t.used + (entry :: entries).length ≤ granted
        omega
      · refine ⟨h.1, ?_⟩
        dsimp only
        omega
  | opening | awaiting | ended => exact h
  | parkedCredit | parkedWatermark | parkedEmpty => exact ⟨h.1, trivial⟩
  | sending frame cursor last => cases last <;> exact ⟨h.1, trivial⟩

theorem viewed_used (t : Stream) (r : Except Failure (ℕ × Json)) :
    (t.viewed r).used = t.used + (t.viewed r).hand := by
  cases r <;> rfl

theorem caughtUp_used (t : Stream) (r : Except Failure CatchUp) :
    (t.caughtUp r).used = t.used + (t.caughtUp r).hand := by
  match r with
  | .error _ => rfl
  | .ok (.gap _) => rfl
  | .ok (.records []) => rfl
  | .ok (.records (entry :: entries)) =>
      simp only [caughtUp, push, hand, Frame.pushed, List.length_map]

theorem Within.caughtUp (h : t.Within granted) {after limit : ℕ}
    (asked : t.phase = .awaiting after limit) {r : Except Failure CatchUp}
    (bounded : ∀ es, r = .ok (.records es) → es.length ≤ limit) :
    (t.caughtUp r).Within granted := by
  have hcharged := h.2
  rw [asked] at hcharged
  match r, bounded with
  | .error _, _ => exact ⟨h.1, trivial⟩
  | .ok (.gap _), _ => exact ⟨h.1, trivial⟩
  | .ok (.records []), _ => exact ⟨h.1, trivial⟩
  | .ok (.records (entry :: entries)), bounded =>
      have hlength := bounded _ rfl
      refine ⟨?_, trivial⟩
      show t.used + (entry :: entries).length ≤ granted
      dsimp only at hcharged
      omega

end Stream

namespace Client

open Lug.Server

/-! ### The subscription -/

/-- The records a frame brings. -/
def records : Body → ℕ
  | .pushed frame => frame.pushed.length
  | _ => 0

def received : Except Error Body → ℕ
  | .ok body => records body
  | .error _ => 0

theorem records_push (frame : Frame) : records (.push frame) = frame.pushed.length := by
  cases frame <;> rfl

theorem received_unpack (body : Body) : received (Frames.unpack body) = records body := by
  cases body <;> rfl

namespace Frames

variable {f : Frames}

/-- The credit a subscription has yet to give back. -/
def credit (f : Frames) : ℕ := f.commands.sum + f.pendingCredit + f.drained

/-- The records that wait for the consumer. -/
def unread (f : Frames) : ℕ := (f.rx.map received).sum

/-- What `maybe_grant` leaves as it is. -/
theorem maybeGrant_frame (ready : Bool) (f : Frames) :
    (f.maybeGrant ready).window = f.window ∧ (f.maybeGrant ready).connected = f.connected ∧
      (f.maybeGrant ready).rx = f.rx ∧ (f.maybeGrant ready).done = f.done ∧
      (f.maybeGrant ready).overrun = f.overrun := by
  rw [maybeGrant]
  split_ifs <;> exact ⟨rfl, rfl, rfl, rfl, rfl⟩

/-- Below the counter's end, credit only moves towards the server. -/
theorem maybeGrant_credit (ready : Bool) (h : f.pendingCredit + f.drained ≤ creditMax) :
    (f.maybeGrant ready).credit = f.credit ∧
      (f.maybeGrant ready).pendingCredit + (f.maybeGrant ready).drained ≤
        f.pendingCredit + f.drained := by
  rw [maybeGrant, min_eq_left h]
  by_cases hfull : f.threshold ≤ f.drained
  · rw [if_pos hfull]
    split_ifs <;> simp only [credit, List.sum_append, List.sum_singleton] <;> omega
  · rw [if_neg hfull]
    split_ifs <;> simp only [credit, List.sum_append, List.sum_singleton, true_and] <;> omega

theorem threshold_pos (f : Frames) : 0 < f.threshold := lt_max_of_lt_right one_pos

theorem maybeGrant_drained (ready : Bool) (f : Frames) :
    (f.maybeGrant ready).drained < f.threshold := by
  rw [maybeGrant]
  by_cases hfull : f.threshold ≤ f.drained
  · rw [if_pos hfull]
    split_ifs <;> exact f.threshold_pos
  · rw [if_neg hfull]
    split_ifs <;> exact not_le.mp hfull

/-- What polling does to the credit and to the `n` records that were waiting. -/
structure Polled (f : Frames) (n : ℕ) (p : Poll) (f' : Frames) : Prop where
  credit : f'.credit = f.credit + p.records
  unread : f'.unread + p.records = n
  drained : f'.drained < f.threshold
  window : f'.window = f.window
  connected : f'.connected = f.connected

/-- One turn of the loop that hands nothing over. -/
theorem maybeGrant_polled (ready : Bool) (h : f.pendingCredit + f.drained ≤ creditMax)
    (rx : List (Except Error Body)) {p : Poll} (hp : p.records = 0) (done : Bool) :
    Polled f (rx.map received).sum p { f.maybeGrant ready with rx, done } := by
  obtain ⟨hwindow, hconnected, -⟩ := maybeGrant_frame ready f
  refine ⟨?_, ?_, maybeGrant_drained ready f, hwindow, hconnected⟩
  · rw [hp]
    exact (maybeGrant_credit ready h).1
  · rw [hp]
    rfl

theorem Polled.after_grant {ready : Bool} (h : f.pendingCredit + f.drained ≤ creditMax) {n : ℕ}
    {p : Poll} {f' : Frames} (hp : Polled (f.maybeGrant ready) n p f') : Polled f n p f' := by
  obtain ⟨hwindow, hconnected, -⟩ := maybeGrant_frame ready f
  refine ⟨?_, hp.unread, ?_, hp.window.trans hwindow, hp.connected.trans hconnected⟩
  · rw [hp.credit, (maybeGrant_credit ready h).1]
  · have hdrained := hp.drained
    rw [threshold, hwindow] at hdrained
    exact hdrained

/-- A frame of records is charged to `drained` as it is handed over. -/
theorem handed_polled (ready ready' : Bool) (rx : List (Except Error Body)) (sent : List Pushed)
    (h : f.pendingCredit + f.drained + sent.length ≤ creditMax) :
    Polled f (sent.length + (rx.map received).sum) (.frame (.pushed (.records sent)))
      (maybeGrant ready' { f.maybeGrant ready with
        rx, drained := min ((f.maybeGrant ready).drained + sent.length % 2 ^ 32) creditMax }) := by
  have hfirst := maybeGrant_credit ready (f := f) (by omega)
  obtain ⟨hwindow, hconnected, -⟩ := maybeGrant_frame ready f
  have hlength : sent.length % 2 ^ 32 = sent.length := Nat.mod_eq_of_lt (by
    rw [creditMax] at h
    omega)
  rw [hlength, min_eq_left (by omega)]
  generalize hg : { f.maybeGrant ready with
    rx, drained := (f.maybeGrant ready).drained + sent.length } = g
  have hcredit : g.credit = f.credit + sent.length := by
    rw [← hfirst.1, ← hg]
    exact (Nat.add_assoc _ _ _).symm
  have hsecond := maybeGrant_credit ready' (f := g) (by
    rw [← hg]
    dsimp only
    omega)
  obtain ⟨hwindow', hconnected', hrx', -⟩ := maybeGrant_frame ready' g
  have hgw : g.window = f.window := by rw [← hg, ← hwindow]
  refine ⟨hsecond.1.trans hcredit, ?_, ?_, hwindow'.trans hgw, hconnected'.trans ?_⟩
  · rw [unread, hrx', ← hg]
    exact Nat.add_comm _ _
  · have hdrained := maybeGrant_drained ready' g
    rw [threshold, hgw] at hdrained
    exact hdrained
  · rw [← hg, ← hconnected]

theorem pollFrom_polled {f : Frames} {rx : List (Except Error Body)} {ready : ℕ → Bool}
    (h : f.pendingCredit + f.drained + (rx.map received).sum ≤ creditMax) :
    Polled f (rx.map received).sum (f.pollFrom ready rx).1 (f.pollFrom ready rx).2 := by
  induction rx generalizing f ready with
  | nil =>
      obtain ⟨hwindow, hconnected, -⟩ := maybeGrant_frame (ready 0) f
      rw [pollFrom]
      dsimp only
      split
      · exact maybeGrant_polled (p := .pending) (ready 0) h [] rfl _
      · exact maybeGrant_polled (ready 0) h [] (Poll.records_error _) true
  | cons item rx ih =>
      rw [List.map_cons, List.sum_cons] at h ⊢
      have hbound : f.pendingCredit + f.drained ≤ creditMax := by omega
      have hgrant := (maybeGrant_credit (ready 0) hbound).2
      have hrest : ∀ ready', Polled f (0 + (rx.map received).sum)
          ((f.maybeGrant (ready 0)).pollFrom ready' rx).1
          ((f.maybeGrant (ready 0)).pollFrom ready' rx).2 := by
        intro ready'
        rw [Nat.zero_add]
        exact (ih (by omega)).after_grant hbound
      have hend : ∀ (p : Poll) (done : Bool), p.records = 0 →
          Polled f (0 + (rx.map received).sum) p { f.maybeGrant (ready 0) with rx, done } := by
        intro p done hp
        rw [Nat.zero_add]
        exact maybeGrant_polled (ready 0) hbound rx hp done
      match item with
      | .error e => exact hend (.error e) true rfl
      | .ok .ok => exact hrest fun n => ready (n + 1)
      | .ok .welcome => exact hrest fun n => ready (n + 1)
      | .ok .ended => exact hend .none true rfl
      | .ok .answer => exact hend (.frame .answer) _ rfl
      | .ok (.error e) => exact hend (.frame (.error e)) _ rfl
      | .ok (.pushed (.view version value)) => exact hend (.frame (.pushed (.view version value))) _ rfl
      | .ok (.pushed (.gap from_ to_)) => exact hend (.frame (.pushed (.gap from_ to_))) _ rfl
      | .ok (.pushed (.error e)) => exact hend (.frame (.pushed (.error e))) _ rfl
      | .ok (.pushed (.records sent)) =>
          exact handed_polled (ready 0) (ready 1) rx sent (by
            dsimp only [received, records, Frame.pushed] at h
            omega)

theorem pollNext_polled (ready : ℕ → Bool)
    (h : f.pendingCredit + f.drained + f.unread ≤ creditMax) (hdrained : f.drained < f.threshold) :
    Polled f f.unread (f.pollNext ready).1 (f.pollNext ready).2 := by
  rw [pollNext]
  split
  · exact ⟨rfl, rfl, hdrained, rfl, rfl⟩
  · exact pollFrom_polled h

/-- What a frame that brings `n` records does to a subscription, or what the end
of its connection does. -/
structure Taken (f : Frames) (n : ℕ) (f' : Frames) : Prop where
  credit : f'.credit = f.credit
  drained : f'.drained = f.drained
  window : f'.window = f.window
  unread : f'.unread ≤ f.unread + n
  complete : f'.connected = true → f.connected = true ∧ f'.unread = f.unread + n

theorem unread_concat (rx : List (Except Error Body)) (item : Except Error Body) :
    ((rx ++ [item]).map received).sum = (rx.map received).sum + received item := by
  rw [List.map_append, List.sum_append, List.map_singleton, List.sum_singleton]

theorem deliver_taken (f : Frames) (body : Body) : Taken f (records body) (f.deliver body) := by
  have hunread := (unread_concat f.rx (unpack body)).trans
    (congrArg ((f.rx.map received).sum + ·) (received_unpack body))
  rw [deliver]
  split_ifs with hconnected
  · exact ⟨rfl, rfl, rfl, hunread.le, fun _ => ⟨hconnected, hunread⟩⟩
  · exact ⟨rfl, rfl, rfl, Nat.le_add_right _ _, fun h => absurd h Bool.noConfusion⟩
  · exact ⟨rfl, rfl, rfl, Nat.le_add_right _ _, fun h => absurd h hconnected⟩

theorem fail_taken (f : Frames) : Taken f 0 f.fail := by
  rw [fail]
  split_ifs with hconnected
  · exact ⟨rfl, rfl, rfl, (unread_concat f.rx (.error .disconnected)).le,
      fun h => absurd h Bool.noConfusion⟩
  · exact ⟨rfl, rfl, rfl, le_rfl, fun h => absurd h Bool.noConfusion⟩
  · exact ⟨rfl, rfl, rfl, le_rfl, fun h => absurd h hconnected⟩

end Frames

/-! ### Both parties -/

namespace Link

/-- The states of a link, whatever its parties do. -/
inductive Reaches (l₀ : Link) : Link → Prop
  | refl : Reaches l₀ l₀
  | step {l l'} (h : Reaches l₀ l) (hs : Step l l') : Reaches l₀ l'

/-- The records the server has pushed. -/
def pushed (l : Link) : ℕ := l.task.stream.pushed

/-- The records on their way to the consumer. -/
def unread (l : Link) : ℕ :=
  l.frames.unread + ((l.down ++ l.owed).map records).sum + l.task.stream.hand

/-- What is left of the credit the server was granted. -/
def remaining (l : Link) : ℕ := l.task.granted - l.task.stream.used

/-- Every record and every credit is in one place. -/
structure Inv (window : ℕ) (l : Link) : Prop where
  size : l.frames.window.toNat = window
  within : l.task.stream.Within l.task.granted
  charged : l.task.stream.used = l.task.stream.pushed + l.task.stream.hand
  credit : ∃ granted refused, l.task.granted = min (window + granted) versionMax ∧
    granted + refused + l.flying.sum + l.frames.credit = l.handed ∧
      (l.task.stage = .serving → refused = 0)
  drained : l.frames.drained < l.frames.threshold
  carried : l.handed + l.unread ≤ l.task.stream.used
  complete : l.frames.connected = true → l.handed + l.unread = l.task.stream.used

variable {window : ℕ} {l l' : Link}

/-- The consumer is behind by no more than a window, whatever the client still
holds back. -/
theorem Inv.bound (h : Inv window l) :
    l.frames.pendingCredit + l.frames.drained + l.unread ≤ window := by
  obtain ⟨granted, refused, hgranted, hcredit, -⟩ := h.credit
  have hused := h.within.1
  have hcarried := h.carried
  have hmin := min_le_left (window + granted) versionMax
  rw [Frames.credit] at hcredit
  omega

theorem inv_start (id from_ : ℕ) (mode : Mode) (window : UInt32) :
    Inv window.toNat (start id from_ mode window) := by
  have hwindow := window.toNat_lt
  refine ⟨rfl, ?_, ?_, ⟨0, 0, ?_, rfl, fun _ => rfl⟩, Frames.threshold_pos _, ?_, fun _ => ?_⟩
  · cases mode <;> exact ⟨Nat.zero_le _, trivial⟩
  · cases mode <;> rfl
  · rw [Nat.add_zero, min_eq_left]
    · rfl
    · rw [versionMax]
      omega
  · cases mode <;> exact le_rfl
  · cases mode <;> rfl

theorem records_inHand (t : Stream) : ((inHand t).map records).sum = t.hand := by
  rw [inHand, Stream.hand]
  cases t.phase with
  | sending frame => exact (List.sum_singleton).trans (records_push frame)
  | _ => rfl

theorem sum_records (bs cs : List Body) :
    ((bs ++ cs).map records).sum = (bs.map records).sum + (cs.map records).sum := by
  rw [List.map_append, List.sum_append]

/-- The stream moves on, and what it charges is on its way at once. -/
theorem Inv.streams (h : Inv window l) (stream : Stream) (down : List Body)
    (hwithin : stream.Within l.task.granted) (hcharged : stream.used = stream.pushed + stream.hand)
    (hused : stream.used + (l.down.map records).sum + l.task.stream.hand =
      l.task.stream.used + (down.map records).sum + stream.hand) :
    Inv window { l.setStream stream with down } := by
  have hcarried := h.carried
  have hunread : unread { l.setStream stream with down } + l.task.stream.used =
      l.unread + stream.used := by
    rw [unread, unread, sum_records, sum_records]
    dsimp only [setStream]
    omega
  refine ⟨h.size, hwithin, hcharged, h.credit, h.drained, ?_, fun hconnected => ?_⟩
  · show l.handed + unread { l.setStream stream with down } ≤ stream.used
    omega
  · have hcomplete := h.complete hconnected
    show l.handed + unread { l.setStream stream with down } = stream.used
    omega

theorem Inv.answered (h : Inv window l) {stream : Stream}
    (hwithin : stream.Within l.task.granted) (hempty : l.task.stream.hand = 0)
    (hused : stream.used = l.task.stream.used + stream.hand)
    (hpushed : stream.pushed = l.task.stream.pushed) : Inv window (l.setStream stream) := by
  have hcharged := h.charged
  exact h.streams stream l.down hwithin (by omega) (by omega)

/-- A frame, or the end of the connection, gets to the client. -/
theorem Inv.takes (h : Inv window l) {f : Frames} {n : ℕ} (hf : Frames.Taken l.frames n f)
    {down : List Body} (hdown : (l.down.map records).sum = n + (down.map records).sum) :
    Inv window { l with frames := f, down } := by
  have hcarried := h.carried
  have hdrained := h.drained
  have hunread := hf.unread
  have hwas : l.unread = l.frames.unread + (n + (down.map records).sum + (l.owed.map records).sum) +
      l.task.stream.hand := by
    rw [unread, sum_records, hdown]
  have his : unread { l with frames := f, down } = f.unread + ((down.map records).sum +
      (l.owed.map records).sum) + l.task.stream.hand := by
    rw [unread, sum_records]
  refine ⟨?_, h.within, h.charged, ?_, ?_, ?_, fun hconnected => ?_⟩
  · exact (congrArg UInt32.toNat hf.window).trans h.size
  · obtain ⟨granted, refused, hgranted, hcredit, hrefused⟩ := h.credit
    exact ⟨granted, refused, hgranted,
      (congrArg (granted + refused + l.flying.sum + ·) hf.credit).trans hcredit, hrefused⟩
  · rw [Frames.threshold, hf.window, hf.drained]
    exact hdrained
  · show l.handed + unread { l with frames := f, down } ≤ l.task.stream.used
    omega
  · obtain ⟨hwas', hall⟩ := hf.complete hconnected
    have hcomplete := h.complete hwas'
    show l.handed + unread { l with frames := f, down } = l.task.stream.used
    omega

/-- The session owes one more reply, or sends what it owed. -/
theorem Inv.answers (h : Inv window l) {down owed : List Body}
    (hsame : ((down ++ owed).map records).sum = ((l.down ++ l.owed).map records).sum) :
    Inv window { l with down, owed } := by
  have hunread : unread { l with down, owed } = l.unread := by rw [unread, unread, hsame]
  refine ⟨h.size, h.within, h.charged, h.credit, h.drained, ?_, fun hconnected => ?_⟩
  · rw [hunread]
    exact h.carried
  · rw [hunread]
    exact h.complete hconnected

theorem Inv.step (h : Inv window l) (hs : Step l l') : Inv window l' := by
  have hbound := h.bound
  have hcarried := h.carried
  obtain ⟨granted, refused, hgranted, hcredit, hrefused⟩ := h.credit
  have hwindow := l.frames.window.toNat_lt
  rw [h.size] at hwindow
  cases hs with
  | poll ready =>
      have hpolled := Frames.pollNext_polled (f := l.frames) ready (by
        rw [creditMax]
        rw [unread] at hbound
        omega) h.drained
      generalize l.frames.pollNext ready = r at hpolled
      obtain ⟨p, f⟩ := r
      have hunread := hpolled.unread
      refine ⟨?_, h.within, h.charged, ⟨granted, refused, hgranted, ?_, hrefused⟩, ?_, ?_,
        fun hconnected => ?_⟩
      · exact (congrArg UInt32.toNat hpolled.window).trans h.size
      · have hf := hpolled.credit
        dsimp only at hf ⊢
        omega
      · have hdrained := hpolled.drained
        dsimp only at hdrained ⊢
        rw [Frames.threshold, hpolled.window]
        exact hdrained
      · rw [unread] at hcarried ⊢
        dsimp only at hunread ⊢
        omega
      · have hcomplete := h.complete (hpolled.connected ▸ hconnected)
        rw [unread] at hcomplete ⊢
        dsimp only at hunread ⊢
        omega
  | @write credit rest hc =>
      refine ⟨h.size, h.within, h.charged, ⟨granted, refused, hgranted, ?_, hrefused⟩, h.drained,
        h.carried, h.complete⟩
      rw [Frames.credit, hc, List.sum_cons] at hcredit
      rw [Frames.credit, List.sum_append, List.sum_singleton]
      dsimp only
      omega
  | @grant credit rest hf live =>
      rw [hf, List.sum_cons] at hcredit
      have hmore : l.task.granted ≤ min (l.task.granted + credit) versionMax := by
        rw [hgranted]
        omega
      have hmoved : Inv window { l with
          flying := rest
          task := { l.task with granted := min (l.task.granted + credit) versionMax } } := by
        refine ⟨h.size, h.within.mono hmore, h.charged, ⟨granted + credit, refused, ?_, ?_, hrefused⟩,
          h.drained, h.carried, h.complete⟩
        · dsimp only
          rw [hgranted]
          omega
        · dsimp only
          omega
      exact hmoved.answers (by
        rw [← List.append_assoc, sum_records _ [.ok]]
        rfl)
  | @refuse credit rest hf gone =>
      rw [hf, List.sum_cons] at hcredit
      have hmoved : Inv window { l with flying := rest } := by
        refine ⟨h.size, h.within, h.charged, ⟨granted, refused + credit, hgranted, ?_, ?_⟩,
          h.drained, h.carried, h.complete⟩
        · dsimp only
          omega
        · exact fun live => absurd live gone
      exact hmoved.answers (by
        rw [← List.append_assoc, sum_records _ [_]]
        rfl)
  | @reply body rest ho =>
      exact h.answers (by rw [ho, List.append_assoc, List.singleton_append])
  | serve live limits shared =>
      refine h.streams _ _ (h.within.step limits shared) ?_ ?_
      · rw [Stream.step_used, Stream.step_pushed, h.charged]
      · rw [sum_records, records_inHand, Stream.step_used]
        omega
  | viewed live asked answer =>
      refine h.answered ?_ ?_ (Stream.viewed_used _ answer) ?_
      · cases answer <;> exact ⟨h.within.1, trivial⟩
      · rw [Stream.hand, asked]
      · cases answer <;> rfl
  | caughtUp live asked answer bounded =>
      refine h.answered (h.within.caughtUp asked bounded) ?_ (Stream.caughtUp_used _ answer) ?_
      · rw [Stream.hand, asked]
      · match answer with
        | .error _ | .ok (.gap _) | .ok (.records []) | .ok (.records (_ :: _)) => rfl
  | orphaned live parked =>
      refine h.answered ⟨h.within.1, trivial⟩ ?_ rfl rfl
      rw [Stream.hand]
      cases parked with
      | inl hempty => rw [hempty]
      | inr hbelow =>
          obtain ⟨w, hw⟩ := hbelow
          rw [hw]
  | forget live ended =>
      exact ⟨h.size, h.within, h.charged, ⟨granted, refused, hgranted, hcredit, Stage.noConfusion⟩,
        h.drained, h.carried, h.complete⟩
  | finish behind =>
      have hdone : Inv window { l with task := { l.task with stage := .done } } :=
        ⟨h.size, h.within, h.charged, ⟨granted, refused, hgranted, hcredit, Stage.noConfusion⟩,
          h.drained, h.carried, h.complete⟩
      exact hdone.answers (by
        rw [sum_records, sum_records, sum_records]
        rfl)
  | @deliver frame rest hd =>
      exact h.takes (Frames.deliver_taken l.frames frame) (by
        rw [hd, List.map_cons, List.sum_cons])
  | lost => exact h.takes (Frames.fail_taken l.frames) (Nat.zero_add _).symm

theorem Reaches.inv {id from_ : ℕ} {mode : Mode} {window : UInt32}
    (h : Reaches (start id from_ mode window) l) : Inv window.toNat l := by
  induction h with
  | refl => exact inv_start id from_ mode window
  | step _ hs ih => exact ih.step hs

/-- Where all the credit is, as long as the stream is served and nothing of it
was lost. -/
theorem Inv.accounted (h : Inv window l) (live : l.task.stage = .serving)
    (hconnected : l.frames.connected = true) (hgranted : l.task.granted < versionMax) :
    l.remaining + l.unread + l.flying.sum + l.frames.credit = window := by
  obtain ⟨granted, refused, hmin, hcredit, hrefused⟩ := h.credit
  have hnone := hrefused live
  have hused := h.within.1
  have hcomplete := h.complete hconnected
  rw [remaining]
  omega

/-- The server is never ahead of the consumer by more than the window, and it has
credit left whenever everything it pushed was taken and no credit is under way. -/
theorem credit_protocol {id from_ : ℕ} {mode : Mode} {window : UInt32} (hwindow : 1 ≤ window)
    (h : Reaches (start id from_ mode window) l) :
    l.pushed ≤ l.handed + window.toNat ∧
      (l.task.stage = .serving → l.task.granted < versionMax → l.frames.connected = true →
        l.unread = 0 → l.frames.pendingCredit = 0 → l.frames.commands = [] → l.flying = [] →
          1 ≤ l.remaining) := by
  have hinv := h.inv
  constructor
  · obtain ⟨granted, refused, hgranted, hcredit, -⟩ := hinv.credit
    have hcharged := hinv.charged
    have hused := hinv.within.1
    rw [pushed]
    omega
  · intro live hgranted hconnected hunread hpending hcommands hflying
    have haccounted := hinv.accounted live hconnected hgranted
    have hdrained := hinv.drained
    have hpos : 1 ≤ window.toNat := hwindow
    rw [Frames.threshold, hinv.size] at hdrained
    rw [hunread, hflying, Frames.credit, hpending, hcommands] at haccounted
    simp only [List.sum_nil] at haccounted
    omega

theorem length_oneRecord : [(⟨1, .null, 4⟩ : Entry)].length ≤ 1 := le_rfl

/-- What a stream sees of a log of one record. -/
def oneRecord : Shared :=
  ⟨⟨1, [⟨1, .null, 4⟩], Nat.one_pos, length_oneRecord⟩, 1, 1, ⟨0, 0, 0⟩⟩

/-- A window of one record, which is pushed, handed over and granted again. -/
theorem credit_protocol_one : ∃ l, Reaches (start 7 0 .records 1) l ∧ l.handed = 1 ∧
    l.pushed = 1 ∧ 1 ≤ l.remaining := by
  have h₀ : Reaches (start 7 0 .records 1) (start 7 0 .records 1) := .refl
  have h₁ := h₀.step (.serve rfl ⟨256, 0⟩ oneRecord)
  have h₂ := h₁.step (.serve rfl ⟨256, 0⟩ oneRecord)
  have h₃ := h₂.step (.serve rfl ⟨256, 0⟩ oneRecord)
  have h₄ := h₃.step (.serve rfl ⟨256, 0⟩ oneRecord)
  have h₅ := (h₄.step (.deliver rfl)).step (.poll fun _ => true)
  have h₆ := (h₅.step (.deliver rfl)).step (.poll fun _ => true)
  have h₇ := (h₆.step (.write rfl)).step (.grant rfl rfl)
  exact ⟨_, h₇, rfl, rfl, (credit_protocol (by decide) h₇).2 rfl (by decide) rfl rfl rfl rfl rfl⟩

end Link

end Client

end Lug
