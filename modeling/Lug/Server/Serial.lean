import Lug.Core.Sound
import Lug.Server.Actor

/-!
What a queue of commands means: each one served whole and by itself, in queue
order, on the structure the ones before it left. An append is taken as a whole
or refused as a whole. Nothing here knows about batches.
-/

namespace Lug

open Reducible ReducibleContract StorageContract

variable {D S P V ι : Type} [Versioned V] [Serde P] [Reducible D P V] [Storage S V]
  [StorageContract S]

/-- The reply to a `View` on a structure. -/
def viewOf (d : D) : Option ℕ → Except Failure (ℕ × Json)
  | some at_ =>
      match if at_ ≤ version d then Reducible.viewAt d at_ else none with
      | none => .error ⟨.outOfRange, "version " ++ toString at_ ++ " is not retained"⟩
      | some view => .ok (Versioned.version view, Versioned.state view)
  | none => .ok (version d, Versioned.state (Reducible.view d))

/-- Why an append is refused: its patches do not decode, the structure rejects
one of them, or storage fails. -/
inductive Refusal (S : Type) [Storage S V] [StorageContract S] (d : D) (raw : List Json) :
    Failure → Prop
  | undecodable {e} (h : decode (P := P) raw = .error e) : Refusal S d raw ⟨.rejected, e⟩
  | rejected {ps : List P} {e} (decoded : decode raw = .ok ps)
      (h : (Log.fold (S := S) (version d) d ps [] []).1 = .error (.data e)) :
      Refusal S d raw (Actor.failure (D := D) (S := S) (.data e))
  | storage {e} (h : ¬ Unfailing S) :
      Refusal S d raw (Actor.failure (D := D) (S := S) (.storage e))

/-- The commands served one by one: the replies in the order of the commands,
and the records the appends left. -/
inductive Serial [ReducibleContract D] (S : Type) [Storage S V] [StorageContract S] :
    D → List (Command ι) → List (ι × Reply) → List Record → D → Prop
  | nil {d e} (h : Same d e) : Serial S d [] [] [] e
  | accepted {d d₁ e raw ps durability reply rs rs' vs ack queue out}
      (decoded : decode raw = .ok ps) (folds : Log.Folds d ps rs vs d₁)
      (versions : ack.versions = rs.map Record.version)
      (synced : durability = .durable → ∀ r ∈ rs, r.version ≤ ack.synced)
      (rest : Serial S d₁ queue out rs' e) :
      Serial S d (.append raw durability reply :: queue) ((reply, .append (.ok ack)) :: out)
        (rs ++ rs') e
  | refused {d e raw durability reply f rs queue out} (why : Refusal S d raw f)
      (rest : Serial S d queue out rs e) :
      Serial S d (.append raw durability reply :: queue) ((reply, .append (.error f)) :: out) rs e
  | view {d e at_ reply rs queue out} (rest : Serial S d queue out rs e) :
      Serial S d (.view at_ reply :: queue) ((reply, .view (viewOf d at_)) :: out) rs e
  | catchUp {d e after limit reply r rs queue out} (rest : Serial S d queue out rs e) :
      Serial S d (.catchUp after limit reply :: queue) ((reply, .catchUp r) :: out) rs e
  | checkpoint {d e reply r rs queue out} (rest : Serial S d queue out rs e) :
      Serial S d (.checkpoint reply :: queue) ((reply, .checkpoint r) :: out) rs e

/-- What a reply says about the log itself, and not about when it was flushed or
reclaimed. -/
inductive Outcome
  | append (result : Except Failure (List ℕ))
  | view (result : Except Failure (ℕ × Json))
  | catchUp
  | checkpoint

def Reply.outcome : Reply → Outcome
  | .append result => .append (result.map Ack.versions)
  | .view result => .view result
  | .catchUp _ => .catchUp
  | .checkpoint _ => .checkpoint

def outcomes (out : List (ι × Reply)) : List (ι × Outcome) :=
  out.map fun (reply, r) => (reply, r.outcome)

/-- The sender a command brought along. -/
def Command.reply : Command ι → ι
  | .append _ _ reply => reply
  | .view _ reply => reply
  | .catchUp _ _ reply => reply
  | .checkpoint reply => reply

/-- The versions a reply acknowledges. -/
def Reply.acked : Reply → List ℕ
  | .append (.ok ack) => ack.versions
  | _ => []

/-- If the command is a durable append and it is acknowledged, its versions are
at or below the acknowledged flush. -/
def Command.DurableAcked (command : Command ι) (r : Reply) : Prop :=
  ∀ raw reply ack, command = .append raw .durable reply → r = .append (.ok ack) →
    ∀ v ∈ ack.versions, v ≤ ack.synced

@[simp] theorem outcomes_cons (reply : ι) (r : Reply) (out : List (ι × Reply)) :
    outcomes ((reply, r) :: out) = (reply, r.outcome) :: outcomes out := rfl

@[simp] theorem outcome_append_ok (ack : Ack) :
    (Reply.append (.ok ack)).outcome = .append (.ok ack.versions) := rfl

section

variable [ReducibleContract D] {d e d' e' : D} {raw : List Json} {f : Failure}
  {queue queue' : List (Command ι)} {out out' : List (ι × Reply)} {rs rs' : List Record}

omit [Serde P] in
theorem viewOf_same (h : Same d e) (at_ : Option ℕ) : viewOf d at_ = viewOf e at_ := by
  cases at_ with
  | none => simp only [viewOf, version, same_view h]
  | some v => simp only [viewOf, same_version h, same_viewAt h v]

theorem Refusal.same (why : Refusal S d raw f) (h : Same d e) : Refusal S e raw f := by
  cases why with
  | undecodable hd => exact .undecodable hd
  | rejected hd hf =>
      refine .rejected hd ?_
      rwa [← same_version h, ← (Log.fold_same h _ _ _ _).1]
  | storage hs => exact .storage hs

namespace Serial

theorem same (h : Serial S d queue out rs d') (hs : Same d e) : Serial S e queue out rs d' := by
  induction h generalizing e with
  | nil h => exact .nil (same_trans (same_symm hs) h)
  | accepted decoded folds versions synced _ ih =>
      obtain ⟨e₁, folds', hsame⟩ := folds.same hs
      exact .accepted decoded folds' versions synced (ih hsame)
  | refused why _ ih => exact .refused (why.same hs) (ih hs)
  | view _ ih =>
      rw [viewOf_same hs]
      exact .view (ih hs)
  | catchUp _ ih => exact .catchUp (ih hs)
  | checkpoint _ ih => exact .checkpoint (ih hs)

theorem append (h : Serial S d queue out rs d') (h' : Serial S d' queue' out' rs' e) :
    Serial S d (queue ++ queue') (out ++ out') (rs ++ rs') e := by
  induction h with
  | nil hs => exact h'.same (same_symm hs)
  | accepted decoded folds versions synced _ ih =>
      rw [List.append_assoc]
      exact .accepted decoded folds versions synced (ih h')
  | refused why _ ih => exact .refused why (ih h')
  | view _ ih => exact .view (ih h')
  | catchUp _ ih => exact .catchUp (ih h')
  | checkpoint _ ih => exact .checkpoint (ih h')

/-- Every record is one version. -/
theorem version_eq (h : Serial S d queue out rs e) : version e = version d + rs.length := by
  induction h with
  | nil hs => exact (same_version hs).symm
  | accepted _ folds _ _ _ ih =>
      rw [ih, folds.versions.2, List.length_append]
      omega
  | refused _ _ ih => exact ih
  | view _ ih => exact ih
  | catchUp _ ih => exact ih
  | checkpoint _ ih => exact ih

/-- One reply a command, to the sender that came with it. -/
theorem replies (h : Serial S d queue out rs e) :
    out.map Prod.fst = queue.map Command.reply := by
  induction h with
  | nil => rfl
  | accepted _ _ _ _ _ ih => exact congrArg _ ih
  | refused _ _ ih => exact congrArg _ ih
  | view _ ih => exact congrArg _ ih
  | catchUp _ ih => exact congrArg _ ih
  | checkpoint _ ih => exact congrArg _ ih

/-- The acknowledged versions are the recorded ones, in order. -/
theorem acked (h : Serial S d queue out rs e) :
    out.flatMap (fun o => o.2.acked) = rs.map Record.version := by
  induction h with
  | nil => rfl
  | accepted _ _ versions _ _ ih =>
      rw [List.flatMap_cons, ih, List.map_append, ← versions]
      rfl
  | refused _ _ ih => exact ih
  | view _ ih => exact ih
  | catchUp _ ih => exact ih
  | checkpoint _ ih => exact ih

/-- A durable request that was acknowledged is flushed. -/
theorem durable (h : Serial S d queue out rs e) :
    List.Forall₂ (fun command o => Command.DurableAcked command o.2) queue out := by
  induction h with
  | nil => exact .nil
  | accepted _ _ versions synced _ ih =>
      refine .cons ?_ ih
      rintro raw reply ack' hcommand hreply v hv
      cases hcommand
      cases hreply
      rw [versions] at hv
      obtain ⟨r, hr, rfl⟩ := List.mem_map.mp hv
      exact synced rfl r hr
  | refused _ _ ih => exact .cons (fun _ _ _ _ hreply => nomatch hreply) ih
  | view _ ih => exact .cons (fun _ _ _ _ hreply => nomatch hreply) ih
  | catchUp _ ih => exact .cons (fun _ _ _ _ hreply => nomatch hreply) ih
  | checkpoint _ ih => exact .cons (fun _ _ _ _ hreply => nomatch hreply) ih

/-- A request that does not decode is refused wherever it stands. -/
theorem insert_undecodable {msg : String} (h : Serial S d (queue ++ queue') out rs e)
    (hraw : decode (P := P) raw = .error msg) (durability : Durability) (reply : ι) :
    ∃ out', Serial S d (queue ++ .append raw durability reply :: queue') out' rs e ∧
      out'.Perm ((reply, .append (.error ⟨.rejected, msg⟩)) :: out) := by
  induction queue generalizing d out rs with
  | nil => exact ⟨_, .refused (.undecodable hraw) h, .refl _⟩
  | cons command queue ih =>
      cases h with
      | accepted decoded folds versions synced rest =>
          obtain ⟨out', hout, hperm⟩ := ih rest
          exact ⟨_, .accepted decoded folds versions synced hout,
            (hperm.cons _).trans (.swap _ _ _)⟩
      | refused why rest =>
          obtain ⟨out', hout, hperm⟩ := ih rest
          exact ⟨_, .refused why hout, (hperm.cons _).trans (.swap _ _ _)⟩
      | view rest =>
          obtain ⟨out', hout, hperm⟩ := ih rest
          exact ⟨_, .view hout, (hperm.cons _).trans (.swap _ _ _)⟩
      | catchUp rest =>
          obtain ⟨out', hout, hperm⟩ := ih rest
          exact ⟨_, .catchUp hout, (hperm.cons _).trans (.swap _ _ _)⟩
      | checkpoint rest =>
          obtain ⟨out', hout, hperm⟩ := ih rest
          exact ⟨_, .checkpoint hout, (hperm.cons _).trans (.swap _ _ _)⟩

omit [ReducibleContract D] in
/-- An append that folds is not refused by storage that does not fail. -/
theorem not_refusal (hu : Unfailing S) {ps : List P} {vs : List V} {d₁ : D}
    (decoded : decode raw = .ok ps) (folds : Log.Folds d ps rs vs d₁) : ¬ Refusal S d raw f := by
  intro why
  cases why with
  | undecodable h =>
      rw [decoded] at h
      cases h
  | rejected decoded' h =>
      rw [decoded] at decoded'
      cases decoded'
      rw [Log.fold_of_folds folds] at h
      cases h
  | storage h => exact h hu

omit [ReducibleContract D] in
theorem refusal_det (hu : Unfailing S) {f' : Failure} (why : Refusal S d raw f)
    (why' : Refusal S d raw f') : f = f' := by
  cases why with
  | undecodable h =>
      cases why' with
      | undecodable h' =>
          rw [h] at h'
          cases h'
          rfl
      | rejected decoded' _ =>
          rw [h] at decoded'
          cases decoded'
      | storage h' => exact absurd hu h'
  | rejected decoded h =>
      cases why' with
      | undecodable h' =>
          rw [decoded] at h'
          cases h'
      | rejected decoded' h' =>
          rw [decoded] at decoded'
          cases decoded'
          rw [h] at h'
          cases h'
          rfl
      | storage h' => exact absurd hu h'
  | storage h => exact absurd hu h

/-- Where storage does not fail, the structure and the queue decide everything:
the outcomes, the records and the structure at the end. -/
theorem det (hu : Unfailing S) (h : Serial S d queue out rs e) (h' : Serial S d' queue out' rs' e')
    (hs : Same d d') : outcomes out = outcomes out' ∧ rs = rs' ∧ Same e e' := by
  induction h generalizing d' out' rs' with
  | nil hd =>
      cases h' with
      | nil hd' => exact ⟨rfl, rfl, same_trans (same_symm hd) (same_trans hs hd')⟩
  | accepted decoded folds versions synced rest ih =>
      obtain ⟨d₁', folds₁, hsame⟩ := folds.same hs
      cases h' with
      | accepted decoded' folds' versions' synced' rest' =>
          rw [decoded] at decoded'
          cases decoded'
          obtain ⟨rfl, rfl, rfl⟩ := folds₁.det folds'
          obtain ⟨hout, rfl, hend⟩ := ih rest' hsame
          refine ⟨?_, rfl, hend⟩
          rw [outcomes_cons, outcomes_cons, outcome_append_ok, outcome_append_ok, versions,
            versions', hout]
      | refused why' rest' => exact absurd why' (not_refusal hu decoded folds₁)
  | refused why rest ih =>
      cases h' with
      | accepted decoded' folds' versions' synced' rest' =>
          exact absurd (why.same hs) (not_refusal hu decoded' folds')
      | refused why' rest' =>
          obtain rfl := refusal_det hu (why.same hs) why'
          obtain ⟨hout, rfl, hend⟩ := ih rest' hs
          exact ⟨by rw [outcomes_cons, outcomes_cons, hout], rfl, hend⟩
  | view rest ih =>
      cases h' with
      | view rest' =>
          obtain ⟨hout, rfl, hend⟩ := ih rest' hs
          exact ⟨by rw [outcomes_cons, outcomes_cons, viewOf_same hs, hout], rfl, hend⟩
  | catchUp rest ih =>
      cases h' with
      | catchUp rest' =>
          obtain ⟨hout, rfl, hend⟩ := ih rest' hs
          exact ⟨by rw [outcomes_cons, outcomes_cons, hout]; rfl, rfl, hend⟩
  | checkpoint rest ih =>
      cases h' with
      | checkpoint rest' =>
          obtain ⟨hout, rfl, hend⟩ := ih rest' hs
          exact ⟨by rw [outcomes_cons, outcomes_cons, hout]; rfl, rfl, hend⟩

end Serial

end

end Lug
