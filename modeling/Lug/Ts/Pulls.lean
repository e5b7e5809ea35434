import Lug.Client.Credit
import Lug.Ts.Subscription

/-!
The account of a subscription that pays for its pulls one by one. A pull that awaits
its grant or a frame is covered by credit the server holds or is sent, or by a frame
on its way; but a pull takes a frame, and a frame takes the credit of every record
in it.
-/

namespace Lug.Ts

open Lug.Server

/-- An acknowledgement, which the transport keeps to itself. -/
def isAck : Body → Bool
  | .ok => true
  | _ => false

def answers (bodies : List Body) : ℕ := bodies.countP fun body => !isAck body

@[simp] theorem answers_nil : answers [] = 0 := rfl

@[simp] theorem answers_append (xs ys : List Body) :
    answers (xs ++ ys) = answers xs + answers ys := List.countP_append

@[simp] theorem answers_cons (body : Body) (bodies : List Body) :
    answers (body :: bodies) = answers bodies + if isAck body then 0 else 1 := by
  rw [answers, answers, List.countP_cons]
  cases isAck body <;> rfl

def isCredit : Request → Bool
  | .credit _ _ => true
  | _ => false

/-- A subscription that is answered with a view before any record. -/
def opensReducible : Request → Bool
  | .subscribe _ _ mode _ => decide (mode = .reducible)
  | _ => false

namespace Link

/-- The frame a stream task has in its hands, or the view it still waits for. -/
def due (t : Stream) : ℕ :=
  match t.phase with
  | .sending _ _ _ | .opening => 1
  | _ => 0

/-- The credit the server holds. -/
def balance (l : Link) : ℕ := l.task.elim 0 fun t => t.granted - t.stream.used

/-- The frames that will get to the inbox. -/
def frames (l : Link) : ℕ :=
  l.up.countP opensReducible + l.task.elim 0 (fun t => due t.stream) + answers l.owed +
    answers l.down

/-- All that a pull can be answered from, now or later. -/
def cover (l : Link) : ℕ :=
  l.balance + l.up.countP isCredit + l.frames + l.sub.inbox.items.length

/-- The pulls that are not answered, and the one that will not pay. -/
def pulls (l : Link) : ℕ :=
  l.sub.granting.length + l.sub.inbox.waiting.length + l.sub.uncreditedPulls

/-- One frame of `n` records leaves cover for every pull. -/
def Bears (l : Link) (n : ℕ) : Prop := l.pulls = 0 ∨ l.pulls + n ≤ l.cover + 1

/-- The server takes no more records into one frame than leave cover for every pull,
no call takes a frame that came for another, and the counter of the server's credit
does not saturate. -/
def Paced (l : Link) : Move → Prop
  | .serve limits shared => ∀ t granted entries, l.task = some t →
      t.stream.phase = .reading granted →
        shared.ring.readAfter t.stream.cursor (min (granted - t.stream.used) limits.push)
          limits.pushBytes = .records entries → l.Bears entries.length
  | .caughtUp answer => ∀ entries, answer = .ok (.records entries) → l.Bears entries.length
  | .resume => l.sub.uncreditedPulls ≠ 0 ∨ l.sub.inbox.items = [] ∨ l.sub.granting = [] ∨
      l.pulls < l.cover
  | .grant => ∀ t, l.task = some t → t.granted < versionMax
  | _ => True

/-- No grant and no frame is in flight. -/
structure Quiet (l : Link) : Prop where
  up : l.up = []
  frames : l.frames = 0

/-- The pull that waits can be answered. -/
def Flows (l : Link) : Prop :=
  l.sub.inbox.waiting ≠ [] → l.Quiet → ∀ t, l.task = some t → t.stage = .serving →
    t.stream.phase ≠ .ended → t.stream.used < t.granted

structure Inv (l : Link) : Prop where
  idle : l.sub.inbox.items = [] ∨ l.sub.inbox.waiting = []
  drained : l.sub.inbox.ended = true → l.sub.inbox.waiting = []
  ones : ∀ id credit, Request.credit id credit ∈ l.up → credit = 1
  within : ∀ t, l.task = some t → t.stream.Within t.granted
  covered : l.sub.inbox.ended = false → l.pulls ≤ l.cover

end Link

/-! ### The inbox -/

namespace Inbox

variable {i : Inbox}

/-- What a frame does to an inbox that has not ended. -/
inductive Pushed (i : Inbox) : Inbox → Prop
  | ends (i' : Inbox) : i'.ended = true → i'.waiting = [] → Pushed i i'
  | answers (call : ℕ) (i' : Inbox) : i.waiting = call :: i'.waiting → i'.items = i.items →
      i'.ended = false → Pushed i i'
  | stays (i' : Inbox) : i.waiting = [] → i'.waiting = [] →
      i'.items.length = i.items.length + 1 → i'.ended = false → Pushed i i'

/-- What a pull does. -/
inductive Pulled (i : Inbox) : Inbox → Prop
  | takes (item : Body) (i' : Inbox) : i.items = item :: i'.items → i'.waiting = i.waiting →
      i'.ended = i.ended → Pulled i i'
  | waits (i' : Inbox) : i.items = [] → i'.items = [] → i.ended = false → i'.ended = false →
      i'.waiting.length = i.waiting.length + 1 → Pulled i i'
  | done (i' : Inbox) : i.items = [] → i'.items = [] → i.ended = true → i'.ended = true →
      i'.waiting = i.waiting → Pulled i i'

theorem pushed (hopen : i.ended = false) (idle : i.items = [] ∨ i.waiting = []) (frame : Body) :
    Pushed i (i.push frame) := by
  rw [push, hopen, if_neg Bool.false_ne_true]
  cases hwaiting : i.waiting with
  | nil =>
      dsimp only
      split_ifs with hfinal
      · refine .ends _ ?_ ?_
        · rw [drainEnd]
          split_ifs <;> rfl
        · rw [drainEnd]
          split_ifs <;> rfl
      · exact .stays _ hwaiting rfl (List.length_append ..) rfl
  | cons call waiting =>
      have hitems : i.items = [] := idle.resolve_right (by rw [hwaiting]; exact nofun)
      dsimp only
      split_ifs with hfinal
      · rw [drainEnd, if_pos (by rw [hitems]; rfl)]
        exact .ends _ rfl rfl
      · exact .answers call _ hwaiting rfl rfl

theorem pulled (i : Inbox) (call : ℕ) : Pulled i (i.pull call) := by
  rw [pull]
  cases hitems : i.items with
  | cons item items => exact .takes item _ hitems rfl rfl
  | nil =>
      dsimp only
      cases hended : i.ended with
      | true =>
          rw [if_pos rfl]
          exact .done _ hitems rfl hended rfl rfl
      | false =>
          rw [if_neg Bool.false_ne_true]
          exact .waits _ hitems rfl hended rfl (List.length_append ..)

theorem Pushed.idle {i' : Inbox} (h : Pushed i i') (idle : i.items = [] ∨ i.waiting = []) :
    (i'.items = [] ∨ i'.waiting = []) ∧ (i'.ended = true → i'.waiting = []) := by
  cases h with
  | ends _ hended hwaiting => exact ⟨.inr hwaiting, fun _ => hwaiting⟩
  | answers call _ hwaiting hitems hopen =>
      have hnone : i.items = [] := idle.resolve_right (by rw [hwaiting]; exact nofun)
      exact ⟨.inl (hitems.trans hnone), fun hended => absurd (hopen.symm.trans hended) (by decide)⟩
  | stays _ hwaiting hwaiting' hitems hopen =>
      exact ⟨.inr hwaiting', fun _ => hwaiting'⟩

theorem Pulled.idle {i' : Inbox} (h : Pulled i i') (idle : i.items = [] ∨ i.waiting = [])
    (drained : i.ended = true → i.waiting = []) :
    (i'.items = [] ∨ i'.waiting = []) ∧ (i'.ended = true → i'.waiting = []) := by
  cases h with
  | takes item _ hitems hwaiting hended =>
      have hnone : i.waiting = [] := idle.resolve_left (by rw [hitems]; exact nofun)
      exact ⟨.inr (hwaiting.trans hnone), fun _ => hwaiting.trans hnone⟩
  | waits _ hitems hitems' hopen hopen' hwaiting =>
      exact ⟨.inl hitems', fun hended => absurd (hopen'.symm.trans hended) (by decide)⟩
  | done _ hitems hitems' hended hended' hwaiting =>
      exact ⟨.inl hitems', fun _ => hwaiting.trans (drained hended)⟩

theorem push_ended (hended : i.ended = true) (frame : Body) : i.push frame = i := by
  rw [push, if_pos hended]

end Inbox

/-! ### The stream task -/

namespace Link

theorem isAck_push (frame : Frame) : isAck (.push frame) = false := by
  cases frame <;> rfl

/-- A step of the stream takes records into its hands, or its frame goes out, or it
changes nothing that counts. -/
theorem due_step (limits : Limits) (shared : Shared) (granted : ℕ) (t : Stream) :
    (∃ g entries, t.phase = .reading g ∧
      shared.ring.readAfter t.cursor (min (g - t.used) limits.push) limits.pushBytes =
        .records entries ∧ (t.step limits shared granted).used = t.used + entries.length ∧
          due (t.step limits shared granted) = 1 ∧ due t = 0 ∧ inHand t = []) ∨
      (t.step limits shared granted).used = t.used ∧
        due (t.step limits shared granted) + answers (inHand t) = due t := by
  rw [Stream.step, due, due, inHand]
  cases hphase : t.phase with
  | start | credited g =>
      right
      dsimp only
      split <;> exact ⟨rfl, rfl⟩
  | reading g =>
      dsimp only
      split
      · rename_i entry entries hread
        exact .inl ⟨g, entry :: entries, rfl, hread, rfl, rfl, rfl, rfl⟩
      · exact .inr ⟨rfl, rfl⟩
  | opening | awaiting | ended =>
      right
      dsimp only
      rw [hphase]
      exact ⟨rfl, rfl⟩
  | parkedCredit | parkedWatermark | parkedEmpty => exact .inr ⟨rfl, rfl⟩
  | sending frame cursor last =>
      right
      refine ⟨rfl, ?_⟩
      have hgone : answers [.push frame] = 1 := by
        rw [answers, List.countP_singleton, isAck_push]
        rfl
      dsimp only
      rw [hgone]
      cases last <;> rfl

theorem due_viewed (t : Stream) (answer : Except Failure (ℕ × Json)) :
    (t.viewed answer).used = t.used ∧ due (t.viewed answer) = 1 := by
  cases answer <;> exact ⟨rfl, rfl⟩

theorem due_caughtUp (t : Stream) (answer : Except Failure CatchUp) :
    (∃ entries, answer = .ok (.records entries) ∧
      (t.caughtUp answer).used = t.used + entries.length ∧ due (t.caughtUp answer) = 1) ∨
      (t.caughtUp answer).used = t.used :=
  match answer with
  | .error _ => .inr rfl
  | .ok (.gap _) => .inr rfl
  | .ok (.records []) => .inr rfl
  | .ok (.records (entry :: entries)) => .inl ⟨entry :: entries, rfl, rfl, rfl⟩

variable {l l' : Link} {move : Move}

theorem Inv.flows (h : l.Inv) : l.Flows := by
  intro hwaiting hquiet t ht _ _
  have hopen : l.sub.inbox.ended = false := by
    cases hended : l.sub.inbox.ended with
    | false => rfl
    | true => exact absurd (h.drained hended) hwaiting
  have hitems := h.idle.resolve_right hwaiting
  have hcovered := h.covered hopen
  have hpos := List.length_pos_of_ne_nil hwaiting
  rw [cover, balance, ht, hquiet.up, hquiet.frames, hitems, pulls] at hcovered
  simp only [Option.elim_some, List.countP_nil, List.length_nil, Nat.add_zero] at hcovered
  omega

/-! ### What every move keeps -/

/-- Away from the consumer, what covers the pulls only moves. -/
theorem Inv.elsewhere (h : l.Inv) (hsub : l'.sub = l.sub) (hup : ∀ r ∈ l'.up, r ∈ l.up)
    (hwithin : ∀ t, l'.task = some t → t.stream.Within t.granted)
    (hcover : l.pulls ≤ l.cover → l.pulls ≤ l'.cover) : l'.Inv := by
  refine ⟨hsub ▸ h.idle, hsub ▸ h.drained, fun id credit hr => h.ones id credit (hup _ hr), hwithin,
    fun hopen => ?_⟩
  have hpulls : l'.pulls = l.pulls := by rw [pulls, pulls, hsub]
  rw [hsub] at hopen
  exact hpulls ▸ hcover (h.covered hopen)

/-- A pull that was counted on is answered, or waits for what it is owed. -/
theorem Inv.paid (h : l.Inv) {sub : Subscription} {call : ℕ}
    (hinbox : sub.inbox = l.sub.inbox.pull call)
    (howes : sub.granting.length + sub.uncreditedPulls + 1 =
      l.sub.granting.length + l.sub.uncreditedPulls) : Inv { l with sub } := by
  have hpulled : Inbox.Pulled l.sub.inbox sub.inbox := hinbox ▸ Inbox.pulled l.sub.inbox call
  obtain ⟨hidle, hdrained⟩ := hpulled.idle h.idle h.drained
  refine ⟨hidle, hdrained, h.ones, h.within, fun hopen => ?_⟩
  replace hopen : sub.inbox.ended = false := hopen
  cases hpulled with
  | takes item _ hitems hwaiting hended =>
      have hcovered := h.covered (hended ▸ hopen)
      simp only [pulls, cover, balance, frames, hitems, hwaiting, List.length_cons] at hcovered ⊢
      omega
  | waits _ hitems hitems' hended hended' hwaiting =>
      have hcovered := h.covered hended
      simp only [pulls, cover, balance, frames, hitems, hitems', hwaiting] at hcovered ⊢
      omega
  | done _ hitems hitems' hended hended' hwaiting =>
      rw [hended'] at hopen
      cases hopen

/-- A pull takes a frame that was put by and is not owed to another. -/
theorem Inv.unpaid (h : l.Inv) {sub : Subscription} {call : ℕ}
    (hinbox : sub.inbox = l.sub.inbox.pull call) (hcan : l.sub.inbox.canPullWithoutCredit = true)
    (hfree : l.sub.uncreditedPulls = 0) (hsame : sub.granting = l.sub.granting)
    (hfree' : sub.uncreditedPulls = 0)
    (hpaced : l.sub.inbox.items = [] ∨ l.sub.granting = [] ∨ l.pulls < l.cover) :
    Inv { l with sub } := by
  have hpulled : Inbox.Pulled l.sub.inbox sub.inbox := hinbox ▸ Inbox.pulled l.sub.inbox call
  obtain ⟨hidle, hdrained⟩ := hpulled.idle h.idle h.drained
  refine ⟨hidle, hdrained, h.ones, h.within, fun hopen => ?_⟩
  replace hopen : sub.inbox.ended = false := hopen
  cases hpulled with
  | takes item _ hitems hwaiting hended =>
      have hnone : l.sub.inbox.waiting = [] := h.idle.resolve_left (by rw [hitems]; exact nofun)
      rcases hpaced with hempty | hgranting | hspare
      · rw [hitems] at hempty
        cases hempty
      · simp only [pulls, hsame, hgranting, hwaiting, hnone, hfree', List.length_nil, Nat.add_zero]
        exact Nat.zero_le _
      · simp only [pulls, cover, balance, frames, hitems, hwaiting, hsame, hfree, hfree',
          List.length_cons] at hspare ⊢
        omega
  | waits _ hitems hitems' hended hended' hwaiting =>
      rw [Inbox.canPullWithoutCredit, hitems, hended] at hcan
      cases hcan
  | done _ hitems hitems' hended hended' hwaiting =>
      rw [hended'] at hopen
      cases hopen

theorem Inv.resume (h : l.Inv) (hpaced : l.Paced .resume) (call : ℕ) (starting : List ℕ) :
    Inv { l with
      sub := (l.sub.resume call starting).1
      up := if (l.sub.resume call starting).2 then l.up ++ [.credit l.id 1] else l.up } := by
  have hpaced : l.sub.uncreditedPulls ≠ 0 ∨ l.sub.inbox.items = [] ∨ l.sub.granting = [] ∨
      l.pulls < l.cover := hpaced
  rcases l.sub.resume_cases call starting with ⟨hfree, hresume⟩ | ⟨hpays, hcan, hresume⟩ |
    ⟨hpays, hcannot, hresume⟩
  · rw [hresume]
    refine h.paid rfl ?_
    dsimp only
    omega
  · rw [hresume]
    exact h.unpaid rfl hcan hpays rfl hpays (hpaced.resolve_left (not_not.mpr hpays))
  · rw [hresume, if_pos rfl]
    refine ⟨h.idle, h.drained, fun id credit hr => ?_, h.within, fun hopen => ?_⟩
    · cases List.mem_append.mp hr with
      | inl hold => exact h.ones id credit hold
      | inr hnew =>
          cases List.mem_singleton.mp hnew
          rfl
    · have hcovered := h.covered hopen
      simp only [pulls, cover, balance, frames, List.length_append, List.length_singleton,
        List.countP_append, List.countP_singleton, isCredit, opensReducible] at hcovered ⊢
      simp only [if_true, Bool.false_eq_true, if_false]
      omega

theorem Inv.deliver (h : l.Inv) {frame : Body} {rest : List Body} (hdown : l.down = frame :: rest) :
    (l.deliver frame rest).Inv := by
  cases hack : isAck frame with
  | true =>
      obtain rfl : frame = .ok := by
        cases frame <;> first | rfl | cases hack
      refine h.elsewhere rfl (fun r hr => hr) h.within ?_
      simp [Link.deliver, cover, balance, frames, hdown, hack]
  | false =>
      have hdeliver : l.deliver frame rest =
          { l with down := rest, sub := { l.sub with inbox := l.sub.inbox.push frame } } := by
        cases frame <;> first | rfl | cases hack
      rw [hdeliver]
      cases hended : l.sub.inbox.ended with
      | true =>
          rw [Inbox.push_ended hended]
          exact ⟨h.idle, h.drained, h.ones, h.within,
            fun hopen => absurd (hended.symm.trans hopen) (by decide)⟩
      | false =>
          have hpushed := Inbox.pushed hended h.idle frame
          obtain ⟨hidle, hdrained⟩ := hpushed.idle h.idle
          refine ⟨hidle, hdrained, h.ones, h.within, fun hopen => ?_⟩
          replace hopen : (l.sub.inbox.push frame).ended = false := hopen
          have hcovered := h.covered hended
          cases hpushed with
          | ends _ hended' hwaiting =>
              rw [hended'] at hopen
              cases hopen
          | answers call _ hwaiting hitems hopen' =>
              simp [pulls, cover, balance, frames, hdown, hack, hitems, hwaiting] at hcovered ⊢
              omega
          | stays _ hwaiting hwaiting' hitems hopen' =>
              simp [pulls, cover, balance, frames, hdown, hack, hitems, hwaiting, hwaiting']
                at hcovered ⊢
              omega

theorem Inv.step (h : l.Inv) (hpaced : l.Paced move) (hs : Step l move l') : l'.Inv := by
  cases hs with
  | next => exact ⟨h.idle, h.drained, h.ones, h.within, h.covered⟩
  | started => exact ⟨h.idle, h.drained, h.ones, h.within, h.covered⟩
  | @resume call starting hstarted hcall => exact h.resume hpaced call starting
  | @granted call granting hcall =>
      refine h.paid rfl ?_
      show granting.length + l.sub.uncreditedPulls + 1 = _
      rw [hcall, List.length_cons]
      omega
  | @accept id from_ mode credit rest hup free =>
      refine h.elsewhere rfl (fun r hr => hup ▸ List.mem_cons_of_mem _ hr) ?_ ?_
      · rintro t ⟨⟩
        cases mode <;> exact ⟨Nat.zero_le _, trivial⟩
      · cases mode <;> simp [cover, balance, frames, hup, free, due, Stream.new, opensReducible,
          isCredit, isAck] <;> omega
  | @reject id from_ mode credit rest hup failure =>
      refine h.elsewhere rfl (fun r hr => hup ▸ List.mem_cons_of_mem _ hr) h.within ?_
      cases mode <;> simp [cover, balance, frames, hup, opensReducible, isCredit, isAck] <;> omega
  | @grant id credit rest t hup ht live =>
      obtain rfl := h.ones id credit (by rw [hup]; exact List.mem_cons_self)
      have hwithin := h.within t ht
      have hroom : t.granted < versionMax := hpaced t ht
      have hmin : min (t.granted + 1) versionMax = t.granted + 1 := min_eq_left hroom
      refine h.elsewhere rfl (fun r hr => hup ▸ List.mem_cons_of_mem _ hr) ?_ ?_
      · rintro t' ⟨⟩
        exact hwithin.mono (hmin.ge.trans' (Nat.le_succ _))
      · have hused := hwithin.1
        simp [cover, balance, frames, hup, ht, List.countP_cons, opensReducible, isCredit, isAck,
          hmin]
        omega
  | @refuse id credit rest hup gone =>
      refine h.elsewhere rfl (fun r hr => hup ▸ List.mem_cons_of_mem _ hr) h.within ?_
      simp [cover, balance, frames, hup, List.countP_cons, opensReducible, isCredit, isAck]
      omega
  | @reply body rest howed =>
      refine h.elsewhere rfl (fun r hr => hr) h.within ?_
      simp [cover, balance, frames, howed]
      omega
  | @serve t ht live limits shared =>
      refine h.elsewhere rfl (fun r hr => hr) ?_ ?_
      · rintro t' ⟨⟩
        exact (h.within t ht).step limits shared
      · rcases due_step limits shared t.granted t.stream with
          ⟨g, entries, hphase, hread, hused, hdue, hnone, hhand⟩ | ⟨hused, hdue⟩
        · intro hcovered
          have hbears := hpaced t g entries ht hphase hread
          simp only [Bears, cover, balance, frames, setStream, ht, Option.elim_some, hused, hdue,
            hnone, hhand, answers_append, answers_nil] at hbears hcovered ⊢
          omega
        · simp only [cover, balance, frames, setStream, ht, Option.elim_some, hused,
            answers_append]
          omega
  | @viewed t ht live asked answer =>
      obtain ⟨hused, hdue⟩ := due_viewed t.stream answer
      have hasked : due t.stream = 1 := by rw [due, asked]
      refine h.elsewhere rfl (fun r hr => hr) ?_ ?_
      · rintro t' ⟨⟩
        refine ⟨hused.trans_le (h.within t ht).1, ?_⟩
        cases answer <;> exact trivial
      · simp only [cover, balance, frames, setStream, ht, Option.elim_some, hused, hdue, hasked]
        intro hcovered
        exact hcovered
  | @caughtUp t after limit ht live asked answer bounded =>
      have hasked : due t.stream = 0 := by rw [due, asked]
      refine h.elsewhere rfl (fun r hr => hr) ?_ ?_
      · rintro t' ⟨⟩
        exact (h.within t ht).caughtUp asked bounded
      · rcases due_caughtUp t.stream answer with ⟨entries, hanswer, hused, hdue⟩ | hused
        · intro hcovered
          have hbears := hpaced entries hanswer
          simp only [Bears, cover, balance, frames, setStream, ht, Option.elim_some, hused, hdue,
            hasked] at hbears hcovered ⊢
          omega
        · simp only [cover, balance, frames, setStream, ht, Option.elim_some, hused, hasked]
          omega
  | @orphaned t ht live parked =>
      have hparked : due t.stream = 0 := by
        rw [due]
        rcases parked with hphase | ⟨w, hphase⟩ <;> rw [hphase]
      refine h.elsewhere rfl (fun r hr => hr) ?_ ?_
      · rintro t' ⟨⟩
        exact ⟨(h.within t ht).1, trivial⟩
      · have hended : due { t.stream with phase := .ended } = 0 := rfl
        simp only [cover, balance, frames, setStream, ht, Option.elim_some, hparked, hended]
        intro hcovered
        exact hcovered
  | @forget t ht live ended =>
      refine h.elsewhere rfl (fun r hr => hr) ?_ ?_
      · rintro t' ⟨⟩
        exact h.within t ht
      · simp only [cover, balance, frames, ht, Option.elim_some]
        intro hcovered
        exact hcovered
  | @finish t ht behind =>
      refine h.elsewhere rfl (fun r hr => hr) ?_ ?_
      · rintro t' ⟨⟩
        exact h.within t ht
      · simp only [cover, balance, frames, ht, Option.elim_some, answers_append]
        omega
  | @deliver frame rest hdown => exact h.deliver hdown

theorem Reaches.inv {id from_ : ℕ} {mode : Mode} (h : Reaches Paced (opened id from_ mode) l) :
    l.Inv := by
  induction h with
  | start =>
      refine ⟨.inl rfl, fun _ => rfl, fun id credit hr => ?_, fun _ => nofun, fun _ => ?_⟩
      · cases List.mem_singleton.mp hr
      · cases mode <;> exact Nat.le.refl
  | step _ hs hpaced ih => exact ih.step hpaced hs

/-- As long as no frame takes credit or cover from a pull, a pull that waits can be
answered. -/
theorem Reaches.never_stalls {id from_ : ℕ} {mode : Mode} (h : Reaches Paced (opened id from_ mode) l) :
    l.Flows := h.inv.flows

theorem length_twoRecords : [(⟨1, .null, 4⟩ : Entry), ⟨2, .null, 4⟩].length ≤ 2 := le_rfl

/-- Two records, as a stream sees them. -/
def twoRecords : Shared :=
  ⟨⟨2, [⟨1, .null, 4⟩, ⟨2, .null, 4⟩], Nat.two_pos, length_twoRecords⟩, 2, 1, ⟨0, 0, 0⟩⟩

/-- One pull of a stream of records, paid for and waiting for the first record. -/
theorem flows_one : ∃ l, Reaches Paced (opened 7 0 .records) l ∧ l.sub.inbox.waiting = [0] ∧
    l.Quiet ∧ l.Flows := by
  have h₀ : Reaches Paced (opened 7 0 .records) (opened 7 0 .records) := .start
  have h₁ := h₀.step .started trivial
  have h₂ := h₁.step (.resume rfl rfl) (.inr (.inl rfl))
  have h₃ := h₂.step (.granted rfl) trivial
  have h₄ := h₃.step (.accept rfl rfl) trivial
  have h₅ := h₄.step (.grant rfl rfl rfl) (by rintro t ⟨⟩; decide)
  have h₆ := h₅.step (.reply rfl) trivial
  have h₇ := h₆.step (.deliver rfl) trivial
  have h₈ := h₇.step (.deliver rfl) trivial
  exact ⟨_, h₈, rfl, ⟨rfl, rfl⟩, h₈.never_stalls⟩

/-- Two pulls are paid for with two credits, and one frame of two records answers one of
them and takes both. -/
theorem stalls_two : ¬∀ (id from_ : ℕ) (mode : Mode) (l : Link),
    Reaches (fun _ _ => True) (opened id from_ mode) l → l.Flows := by
  intro h
  have h₀ : Reaches (fun _ _ => True) (opened 7 0 .records) (opened 7 0 .records) := .start
  have h₁ := ((h₀.step .next trivial).step .started trivial).step (.resume rfl rfl) trivial
  have h₂ := h₁.step (.resume rfl rfl) trivial
  have h₃ := (h₂.step (.granted rfl) trivial).step (.granted rfl) trivial
  have h₄ := h₃.step (.accept rfl rfl) trivial
  have h₅ := (h₄.step (.grant rfl rfl rfl) trivial).step (.grant rfl rfl rfl) trivial
  have h₆ := (h₅.step (.reply rfl) trivial).step (.reply rfl) trivial
  have h₇ := h₆.step (.serve rfl rfl ⟨256, 262144⟩ twoRecords) trivial
  have h₈ := h₇.step (.serve rfl rfl ⟨256, 262144⟩ twoRecords) trivial
  have h₉ := h₈.step (.serve rfl rfl ⟨256, 262144⟩ twoRecords) trivial
  have h₁₀ := h₉.step (.serve rfl rfl ⟨256, 262144⟩ twoRecords) trivial
  have h₁₁ := ((h₁₀.step (.deliver rfl) trivial).step (.deliver rfl) trivial).step (.deliver rfl) trivial
  have h₁₂ := h₁₁.step (.deliver rfl) trivial
  exact absurd (h 7 0 .records _ h₁₂ nofun ⟨rfl, rfl⟩ _ rfl rfl nofun) (by decide)

end Link

end Lug.Ts
