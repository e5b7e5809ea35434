import Lug.Server.Commit

/-!
The specification of the actor's whole run, when no flush fails behind a write:
its commands are served as `Serial` says, however they are batched, cut and
replayed. The condition follows the actor from one `Log::append` to the next.
-/

namespace Lug

open Reducible ReducibleContract StorageContract

variable {D S P V ι : Type} [Versioned V] [Serde P] [Reducible D P V] [Storage S V]

namespace Actor

/-! ### `isolate` calls `commit` again -/

theorem commit_singleton (a : Actor D S) (job : Job P ι) :
    a.commit [job] = commitWith (fun a jobs _ _ e => refuse a jobs e) a [job] := by
  simp only [commit, commitWith, List.isEmpty_cons, Bool.false_eq_true, if_false]
  split <;> rfl

theorem replay_cons (a : Actor D S) (job : Job P ι) (jobs : List (Job P ι)) :
    a.replay (job :: jobs) =
      ((a.commit [job]).1 ++ ((a.commit [job]).2.replay jobs).1,
        ((a.commit [job]).2.replay jobs).2) := by
  rw [commit_singleton]
  rfl

/-! ### The condition: no flush fails behind its write -/

section Condition

variable [StorageContract S]

def ReplayFlushes (a : Actor D S) : List (Job P ι) → Prop
  | [] => True
  | job :: jobs =>
      a.log.Flushes job.patches job.durability ∧ ReplayFlushes (a.commit [job]).2 jobs

def CommitFlushes (a : Actor D S) (jobs : List (Job P ι)) : Prop :=
  let patches := jobs.flatMap Job.patches
  let durability := maxRank (jobs.map Job.durability)
  jobs ≠ [] → a.log.Flushes patches durability ∧
    ∀ e log, a.log.append patches durability = (.error e, log) → jobs.length ≠ 1 →
      ReplayFlushes { a with log } jobs

variable [TextCodec]

def DrainFlushes (a : Actor D S) (batch : List (Job P ι)) :
    List (Command ι) → Prop
  | [] => a.CommitFlushes batch
  | .append patches durability reply :: queue =>
      match decode patches with
      | .ok decoded => DrainFlushes a (batch ++ [⟨patches, decoded, durability, reply⟩]) queue
      | .error _ => DrainFlushes a batch queue
  | command :: queue =>
      a.CommitFlushes batch ∧
        DrainFlushes ((a.commit batch).2.answer command).2 [] queue

def RunFromFlushes (a : Actor D S) (queue : List (Command ι)) (patches : ℕ) :
    List (Bool × Command ι) → Prop
  | [] => a.DrainFlushes [] queue
  | (waiting, command) :: commands =>
      if waiting ∧ patches < a.batch then
        RunFromFlushes a (queue ++ [command]) (patches + command.patchCount) commands
      else a.DrainFlushes [] queue ∧
        RunFromFlushes (a.drain queue).2 [command] command.patchCount commands

/-- In no `Log::append` of the run does the flush fail behind the write. -/
def RunFlushes (a : Actor D S) : List (Bool × Command ι) → Prop
  | [] => True
  | (_, first) :: commands => a.RunFromFlushes [first] first.patchCount commands

end Condition

/-! ### One commit -/

variable [ReducibleContract D] [StorageContract S] [LawfulSerde P]

/-- A run of requests is taken whole, or fails and leaves a log as good as
before. -/
theorem commitWith_spec {a : Actor D S} {L : Ledger V} {jobs : List (Job P ι)}
    (h : a.log.Sound L) (hjobs : ∀ job ∈ jobs, job.Decoded) (hne : jobs ≠ [])
    (hflush : a.log.Flushes (jobs.flatMap Job.patches) (maxRank (jobs.map Job.durability)))
    (isolate : Actor D S → List (Job P ι) → List ℕ → List P →
      LogError (Reducible.Err D) (Storage.Err S) → List (ι × Reply) × Actor D S) :
    (∃ rs L', Advances a L (jobs.map Job.command) (commitWith isolate a jobs).1 rs
      (commitWith isolate a jobs).2 L') ∨
    ∃ e log, a.log.append (jobs.flatMap Job.patches) (maxRank (jobs.map Job.durability)) =
        (.error e, log) ∧
      commitWith isolate a jobs = isolate { a with log } (jobs.map Job.taken)
        (jobs.map fun job => job.patches.length) (jobs.flatMap Job.patches) e ∧
      Same log.data a.log.data ∧ log.Sound L ∧ log.watermark = a.log.watermark ∧
      ((∃ err, e = .data err ∧ (Log.fold (S := S) (version a.log.data) a.log.data
        (jobs.flatMap Job.patches) [] []).1 = .error (.data err)) ∨
        (∃ err, e = .storage err ∧ ¬ Unfailing S)) := by
  have hempty : jobs.isEmpty = false := by simpa using hne
  have hsettles := h.append (toVec_of_jobs hjobs) hflush
  rcases happend : a.log.append (jobs.flatMap Job.patches) (maxRank (jobs.map Job.durability))
    with ⟨o, log⟩
  rw [happend] at hsettles
  simp only [commitWith, hempty, Bool.false_eq_true, if_false, happend]
  cases hsettles with
  | @taken rs vs _ folds sound synced =>
      left
      obtain ⟨entries, acks, hdeal, hserial, hshows⟩ := deal_serial (S := S) hjobs folds
        (fun ⟨job, hjob, hd⟩ => synced (maxRank_durable (List.mem_map.mpr ⟨job, hjob, hd⟩)))
      rw [h.version] at hdeal
      simp only [hdeal]
      exact ⟨rs, Advances.publish h hserial sound hshows folds.versions.2 _⟩
  | @stopped e d fails same =>
      refine .inr ⟨_, _, rfl, rfl, same, h.of_same same h.holds, rfl, .inl ⟨e, rfl, fails⟩⟩
  | @refused e _ fails same sound =>
      have hw : log.watermark = a.log.watermark := by
        rw [← sound.version, same_version same, h.version]
      exact .inr ⟨_, _, rfl, rfl, same, sound, hw, .inr ⟨e, rfl, fails⟩⟩

/-- A request by itself is taken or refused. -/
theorem commit_singleton_spec {a : Actor D S} {L : Ledger V} {job : Job P ι}
    (h : a.log.Sound L) (hjob : job.Decoded) (hflush : a.log.Flushes job.patches job.durability) :
    ∃ rs L', Advances a L [job.command] (a.commit [job]).1 rs (a.commit [job]).2 L' := by
  have hpatches : [job].flatMap Job.patches = job.patches := by simp
  have hrank : maxRank ([job].map Job.durability) = job.durability := by simp
  have hone : ∀ j ∈ [job], j.Decoded := by simpa using hjob
  obtain hdone | ⟨e, log, -, hrefuse, hsame, hsound, hw, hwhy⟩ :=
    commitWith_spec h hone (by simp) (by rw [hpatches, hrank]; exact hflush) isolate
  · exact hdone
  · have hout : a.commit [job] =
        ([(job.reply, .append (.error (failure (D := D) (S := S) e)))], { a with log }) := hrefuse
    rw [hout]
    refine ⟨[], L, Advances.of_log (.refused ?_ (.nil (same_symm hsame))) hsound rfl hw⟩
    rw [hpatches] at hwhy
    obtain ⟨err, rfl, hfold⟩ | ⟨err, rfl, hfails⟩ := hwhy
    · exact .rejected hjob hfold
    · exact .storage hfails

theorem replay_spec {a : Actor D S} {L : Ledger V} {jobs : List (Job P ι)} (h : a.log.Sound L)
    (hjobs : ∀ job ∈ jobs, job.Decoded) (hflush : a.ReplayFlushes jobs) :
    ∃ rs L', Advances a L (jobs.map Job.command) (a.replay jobs).1 rs (a.replay jobs).2 L' := by
  induction jobs generalizing a L with
  | nil => exact ⟨[], L, Advances.of_log (.nil (same_refl _)) h rfl rfl⟩
  | cons job jobs ih =>
      obtain ⟨rs, L₁, hone⟩ := commit_singleton_spec h (hjobs job List.mem_cons_self) hflush.1
      obtain ⟨rs', L', hrest⟩ := ih hone.sound
        (fun j hj => hjobs j (List.mem_cons_of_mem _ hj)) hflush.2
      rw [replay_cons]
      exact ⟨rs ++ rs', L', hone.trans hrest⟩

/-- The group commit serves its requests one after the other. -/
theorem commit_spec {a : Actor D S} {L : Ledger V} {jobs : List (Job P ι)} (h : a.log.Sound L)
    (hjobs : ∀ job ∈ jobs, job.Decoded) (hflush : a.CommitFlushes jobs) :
    ∃ rs L', Advances a L (jobs.map Job.command) (a.commit jobs).1 rs (a.commit jobs).2 L' := by
  by_cases hne : jobs = []
  · subst hne
    exact ⟨[], L, Advances.of_log (.nil (same_refl _)) h rfl rfl⟩
  obtain ⟨hgroup, hreplay⟩ := hflush hne
  by_cases hone : jobs.length = 1
  · obtain ⟨job, rfl⟩ := List.length_eq_one_iff.mp hone
    exact commit_singleton_spec h (hjobs job List.mem_cons_self) (by simpa using hgroup)
  obtain hdone | ⟨e, log, happend, hisolate, hsame, hsound, hw, -⟩ :=
    commitWith_spec h hjobs hne hgroup isolate
  · exact hdone
  · have hcommit : a.commit jobs = Actor.replay { a with log } jobs := by
      refine hisolate.trans ?_
      rw [isolate, if_neg (by simpa using hone), giveBack_taken]
    have hback : Advances a L ([] : List (Command ι)) [] [] { a with log } L :=
      Advances.of_log (.nil (same_symm hsame)) hsound rfl hw
    obtain ⟨rs, L', hrest⟩ := replay_spec (a := { a with log }) hsound hjobs
      (hreplay e log happend hone)
    rw [hcommit]
    exact ⟨[] ++ rs, L', hback.trans hrest⟩

/-! ### The whole run -/

omit [LawfulSerde P] [Serde P] [ReducibleContract D] in
theorem view_eq {a : Actor D S} {L : Ledger V} (h : a.log.Sound L) (at_ : Option ℕ) :
    a.view at_ = viewOf a.log.data at_ := by
  cases at_ with
  | none => rfl
  | some v =>
      by_cases hv : v ≤ a.log.watermark
      · cases hat : Reducible.viewAt a.log.data v <;>
          simp [view, viewOf, Log.viewAt, h.version, hv, hat]
      · simp [view, viewOf, Log.viewAt, h.version, hv]

variable [TextCodec]

omit [LawfulSerde P] in
theorem checkpoint_spec {a : Actor D S} {L : Ledger V} (h : a.log.Sound L)
    (reply : ι) :
    ∃ L', Advances a L [.checkpoint reply] (a.answer (.checkpoint reply)).1 []
      (a.answer (.checkpoint reply)).2 L' := by
  obtain ⟨L', hsound, htaken, hdata, hw⟩ := h.checkpoint
  have hserial : ∀ r, Serial S a.log.data [.checkpoint reply] [(reply, .checkpoint r)] []
      a.log.checkpoint.2.data := by
    intro r
    rw [hdata]
    exact .checkpoint (.nil (same_refl _))
  rw [answer]
  split
  · rename_i log hlog
    rw [hlog] at hsound hw hserial
    exact ⟨L', Advances.of_log (hserial _) hsound htaken hw⟩
  · rename_i e log hlog
    rw [hlog] at hsound hw hserial
    exact ⟨L', Advances.of_log (hserial _) hsound htaken hw⟩

theorem drainFrom_spec {a : Actor D S} {L : Ledger V}
    {batch : List (Job P ι)} {queue : List (Command ι)} (h : a.log.Sound L)
    (hbatch : ∀ job ∈ batch, job.Decoded) (hflush : a.DrainFlushes batch queue) :
    ∃ out rs L', (a.drainFrom batch queue).1.Perm out ∧
      Advances a L (batch.map Job.command ++ queue) out rs
        (a.drainFrom batch queue).2 L' := by
  induction queue generalizing a L batch with
  | nil =>
      obtain ⟨rs, L', hcommit⟩ := commit_spec h hbatch hflush
      rw [List.append_nil]
      exact ⟨_, rs, L', .refl _, hcommit⟩
  | cons command queue ih =>
      -- A read commits what is batched, answers, and starts over.
      have hother : (∀ raw durability reply, command ≠ .append raw durability reply) →
          (∀ {a : Actor D S} {L : Ledger V}, a.log.Sound L → ∃ L', Advances a L [command]
            (a.answer command).1 [] (a.answer command).2 L') →
          ∃ out rs L', (a.drainFrom batch (command :: queue)).1.Perm out ∧
            Advances a L (batch.map Job.command ++ command :: queue) out rs
              (a.drainFrom batch (command :: queue)).2 L' := by
        intro hread hanswer
        have hflush' : a.CommitFlushes batch ∧
            DrainFlushes ((a.commit batch).2.answer command).2 [] queue := by
          cases command with
          | append raw durability reply => exact absurd rfl (hread raw durability reply)
          | _ => exact hflush
        obtain ⟨rs, L₁, hcommit⟩ := commit_spec h hbatch hflush'.1
        obtain ⟨L₂, hanswered⟩ := hanswer hcommit.sound
        obtain ⟨out, rs', L', hperm, hrest⟩ := ih hanswered.sound decoded_nil hflush'.2
        have hdrain : a.drainFrom batch (command :: queue) =
            ((a.commit batch).1 ++ ((a.commit batch).2.answer command).1 ++
              (drainFrom ((a.commit batch).2.answer command).2 [] queue).1,
            (drainFrom ((a.commit batch).2.answer command).2 [] queue).2) := by
          cases command with
          | append raw durability reply => exact absurd rfl (hread raw durability reply)
          | _ => rfl
        have hall := (hcommit.trans hanswered).trans hrest
        rw [List.map_nil, List.nil_append, List.append_assoc, List.singleton_append] at hall
        rw [hdrain]
        exact ⟨_, _, L', (List.Perm.refl _).append hperm, hall⟩
      cases command with
      | append raw durability reply =>
          rw [drainFrom]
          rw [DrainFlushes] at hflush
          cases hraw : (decode raw : Except String (List P)) with
          | ok decoded =>
              simp only [hraw] at hflush ⊢
              have hbatch' : ∀ job ∈ batch ++ [⟨raw, decoded, durability, reply⟩],
                  job.Decoded := by
                intro job hjob
                cases List.mem_append.mp hjob with
                | inl hold => exact hbatch job hold
                | inr hnew =>
                    obtain rfl := List.mem_singleton.mp hnew
                    exact hraw
              obtain ⟨out, rs, L', hperm, hrest⟩ := ih h hbatch' hflush
              refine ⟨out, rs, L', hperm, ?_⟩
              simpa [Job.command] using hrest
          | error e =>
              simp only [hraw] at hflush ⊢
              obtain ⟨out, rs, L', hperm, hrest⟩ := ih h hbatch hflush
              obtain ⟨out', hserial, hperm'⟩ := hrest.serial.insert_undecodable hraw durability reply
              exact ⟨out', rs, L', (hperm.cons _).trans hperm'.symm,
                { hrest with serial := hserial }⟩
      | view at_ reply =>
          refine hother (by simp) (fun {a L} h => ⟨L, ?_⟩)
          rw [answer, view_eq h]
          exact Advances.of_log (.view (.nil (same_refl _))) h rfl rfl
      | catchUp after limit reply =>
          exact hother (by simp) (fun {a L} h =>
            ⟨L, Advances.of_log (.catchUp (.nil (same_refl _))) h rfl rfl⟩)
      | checkpoint reply =>
          exact hother (by simp) (fun h => checkpoint_spec h reply)

theorem runFrom_spec {a : Actor D S} {L : Ledger V}
    {queue : List (Command ι)} {patches : ℕ} {commands : List (Bool × Command ι)}
    (h : a.log.Sound L) (hflush : a.RunFromFlushes queue patches commands) :
    ∃ out rs L', (a.runFrom queue patches commands).1.Perm out ∧
      Advances a L (queue ++ commands.map Prod.snd) out rs
        (a.runFrom queue patches commands).2 L' := by
  induction commands generalizing a L queue patches with
  | nil =>
      rw [List.map_nil, List.append_nil]
      exact drainFrom_spec h decoded_nil hflush
  | cons command commands ih =>
      obtain ⟨waiting, command⟩ := command
      rw [RunFromFlushes] at hflush
      rw [runFrom]
      split at hflush
      · rename_i hwaits
        rw [if_pos hwaits]
        obtain ⟨out, rs, L', hperm, hrest⟩ := ih h hflush
        rw [List.append_assoc, List.singleton_append] at hrest
        exact ⟨out, rs, L', hperm, hrest⟩
      · rename_i hcut
        rw [if_neg hcut]
        obtain ⟨out, rs, L₁, hperm, hdrain⟩ := drainFrom_spec h decoded_nil hflush.1
        obtain ⟨out', rs', L', hperm', hrest⟩ := ih hdrain.sound hflush.2
        exact ⟨out ++ out', rs ++ rs', L', hperm.append hperm', hdrain.trans hrest⟩

/-- A run serves its commands one by one, in queue order. -/
theorem run_spec {a : Actor D S} {L : Ledger V}
    {commands : List (Bool × Command ι)} (h : a.log.Sound L)
    (hflush : a.RunFlushes commands) :
    ∃ out rs L', (a.run commands).1.Perm out ∧
      Advances a L (commands.map Prod.snd) out rs (a.run commands).2 L' := by
  cases commands with
  | nil => exact ⟨[], [], L, .refl _, Advances.of_log (.nil (same_refl _)) h rfl rfl⟩
  | cons first commands => exact runFrom_spec h hflush

/-! ### Storage that does not fail -/

omit [TextCodec] in
theorem commitFlushes_of_unfailing (hu : Unfailing S) {a : Actor D S}
    {L : Ledger V} {jobs : List (Job P ι)} (h : a.log.Sound L)
    (hjobs : ∀ job ∈ jobs, job.Decoded) : a.CommitFlushes jobs := by
  have hreplay : ∀ (jobs : List (Job P ι)) {a : Actor D S} {L : Ledger V}, a.log.Sound L →
      (∀ job ∈ jobs, job.Decoded) → a.ReplayFlushes jobs := by
    intro jobs
    induction jobs with
    | nil => exact fun _ _ => trivial
    | cons job jobs ih =>
        intro a L h hjobs
        have hflush := h.flushes hu job.patches job.durability
        obtain ⟨rs, L', hone⟩ := commit_singleton_spec h (hjobs job List.mem_cons_self) hflush
        exact ⟨hflush, ih hone.sound fun j hj => hjobs j (List.mem_cons_of_mem _ hj)⟩
  intro hne
  have hflush := h.flushes hu (jobs.flatMap Job.patches) (maxRank (jobs.map Job.durability))
  exact ⟨hflush, fun e log happend _ =>
    hreplay jobs (h.append_error (toVec_of_jobs hjobs) hflush happend) hjobs⟩

theorem drainFlushes_of_unfailing (hu : Unfailing S) {a : Actor D S}
    {L : Ledger V} {batch : List (Job P ι)} {queue : List (Command ι)} (h : a.log.Sound L)
    (hbatch : ∀ job ∈ batch, job.Decoded) : a.DrainFlushes batch queue := by
  induction queue generalizing a L batch with
  | nil => exact commitFlushes_of_unfailing hu h hbatch
  | cons command queue ih =>
      have hcommit := commitFlushes_of_unfailing hu h hbatch
      obtain ⟨rs, L₁, hcommitted⟩ := commit_spec h hbatch hcommit
      cases command with
      | append raw durability reply =>
          rw [DrainFlushes]
          cases hraw : (decode raw : Except String (List P)) with
          | ok decoded =>
              refine ih h fun job hjob => ?_
              cases List.mem_append.mp hjob with
              | inl hold => exact hbatch job hold
              | inr hnew =>
                  obtain rfl := List.mem_singleton.mp hnew
                  exact hraw
          | error e => exact ih h hbatch
      | view at_ reply => exact ⟨hcommit, ih hcommitted.sound (by simp)⟩
      | catchUp after limit reply => exact ⟨hcommit, ih hcommitted.sound (by simp)⟩
      | checkpoint reply =>
          obtain ⟨L₂, hchecked⟩ := checkpoint_spec hcommitted.sound reply
          exact ⟨hcommit, ih hchecked.sound (by simp)⟩

theorem runFromFlushes_of_unfailing (hu : Unfailing S) {a : Actor D S}
    {L : Ledger V} {queue : List (Command ι)} {patches : ℕ}
    {commands : List (Bool × Command ι)} (h : a.log.Sound L) :
    a.RunFromFlushes queue patches commands := by
  induction commands generalizing a L queue patches with
  | nil => exact drainFlushes_of_unfailing hu h (by simp)
  | cons command commands ih =>
      obtain ⟨waiting, command⟩ := command
      rw [RunFromFlushes]
      split
      · exact ih h
      · have hdrain : a.DrainFlushes [] queue := drainFlushes_of_unfailing hu h decoded_nil
        obtain ⟨out, rs, L', -, hdrained⟩ := drainFrom_spec h decoded_nil hdrain
        exact ⟨hdrain, ih hdrained.sound⟩

theorem runFlushes_of_unfailing (hu : Unfailing S) {a : Actor D S}
    {L : Ledger V} (h : a.log.Sound L) (commands : List (Bool × Command ι)) :
    a.RunFlushes commands := by
  cases commands with
  | nil => trivial
  | cons first commands => exact runFromFlushes_of_unfailing hu h

end Actor

end Lug
