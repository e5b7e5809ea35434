import Lug.Server.Session

/-!
Streams of one connection that use the same id, one behind the other: what drops a
stream out of the table, and when a subscription is refused.
-/

namespace Lug.Server

/-- The task may still push records. -/
def Task.Live (t : Task) : Prop := t.stage = .accepted ∨ t.stage = .serving

theorem Task.Live.ne_done {t : Task} (h : t.Live) : t.stage ≠ .done := by
  cases h with
  | inl h => exact Session.Task.ne_done h (by decide)
  | inr h => exact Session.Task.ne_done h (by decide)

namespace Session

/-- The tasks whose flows a `Cancel` dropped. -/
def dropped (s s' : Session) : Move → List ℕ
  | .receive (.cancel _) | .steer => (s.streams.filter fun e => e ∉ s'.streams).map Prod.snd
  | _ => []

/-- The states of a connection, and the tasks that were cut off in it, by a `Cancel` or
by the connection closing. -/
inductive Lives (ok : Session → Move → Prop) (token : Bool) : Session → List ℕ → Prop
  | start : Lives ok token (new token) []
  | step {s s' m cut} (h : Lives ok token s cut) (hm : ok s m) (hs : Step s m s') :
      Lives ok token s' (cut ++ s.dropped s' m)
  /-- `Session::close`. -/
  | close {s cut} (h : Lives ok token s cut) :
      Lives ok token { s with streams := [] } (cut ++ s.streams.map Prod.snd)

/-- No subscription comes between the moment a stream leaves the table and its `End`. -/
def Apart (s : Session) : Move → Prop
  | .receive (.subscribe id _ _ _) => s.openOn id = 0 ∨ (s.streams.lookup id).isSome
  | _ => True

/-- A stream that may still push stands in the table under its id, or was cut off. -/
def Held (s : Session) (cut : List ℕ) : Prop :=
  ∀ k t, s.tasks[k]? = some t → t.Live → (t.id, k) ∈ s.streams ∨ k ∈ cut

/-- The table leads to live tasks, and no two tasks that owe an `End` share an id. -/
structure Distinct (s : Session) (cut : List ℕ) : Prop where
  entries : ∀ e ∈ s.streams, ∃ t, s.tasks[e.2]? = some t ∧ t.id = e.1 ∧ t.Live
  accepting : ∀ k t, s.dispatch = .accepting k → s.tasks[k]? = some t → t.stage = .accepted
  single : ∀ (j k : ℕ) (t u : Task), s.tasks[j]? = some t → s.tasks[k]? = some u →
    t.stage ≠ .done → u.stage ≠ .done → t.id = u.id → j = k
  held : s.Held cut

namespace Distinct

variable {s s' : Session} {cut : List ℕ}

theorem congr (h : Distinct s cut) (hstreams : s'.streams = s.streams)
    (htasks : s'.tasks = s.tasks)
    (hdispatch : ∀ k, s'.dispatch = .accepting k → s.dispatch = .accepting k) :
    Distinct s' cut := by
  refine ⟨?_, ?_, ?_, ?_⟩
  · rw [hstreams, htasks]
    exact h.entries
  · rw [htasks]
    exact fun k t hk => h.accepting k t (hdispatch k hk)
  · rw [htasks]
    exact h.single
  · rw [Held, hstreams, htasks]
    exact h.held

theorem append (h : Distinct s cut) (more : List ℕ) : Distinct s (cut ++ more) :=
  ⟨h.entries, h.accepting, h.single, fun k t ht hlive =>
    (h.held k t ht hlive).imp_right (List.mem_append_left more)⟩

/-- A task goes on under its id. -/
theorem setTask (h : Distinct s cut) {k : ℕ} {t t' : Task} (ht : s.tasks[k]? = some t)
    (hid : t'.id = t.id) (hlive : t'.Live ↔ t.Live) (hdone : t.stage = .done → t'.stage = .done)
    (haccepting : s.dispatch = .accepting k → t'.stage = .accepted) :
    Distinct (s.setTask k t') cut := by
  have hlt := (List.getElem?_eq_some_iff.mp ht).1
  -- what is at an index now was there before, under the same id
  have hold : ∀ (j : ℕ) (u : Task), (s.tasks.set k t')[j]? = some u → ∃ v, s.tasks[j]? = some v ∧
      u.id = v.id ∧ (u.Live ↔ v.Live) ∧ (v.stage = .done → u.stage = .done) := by
    intro j u hu
    by_cases heq : j = k
    · subst heq
      rw [List.getElem?_set_self hlt] at hu
      cases hu
      exact ⟨t, ht, hid, hlive, hdone⟩
    · rw [List.getElem?_set_ne (Ne.symm heq)] at hu
      exact ⟨u, hu, rfl, Iff.rfl, id⟩
  refine ⟨fun e he => ?_, fun j u hj hu => ?_, fun i j u v hu hv hopen hopen' hsame => ?_,
    fun j u hu hjlive => ?_⟩
  · obtain ⟨u, hu, hname, hulive⟩ := h.entries e he
    by_cases heq : e.2 = k
    · rw [heq] at hu ⊢
      rw [ht] at hu
      cases hu
      exact ⟨t', List.getElem?_set_self hlt, hid.trans hname, hlive.mpr hulive⟩
    · exact ⟨u, (List.getElem?_set_ne (Ne.symm heq)).trans hu, hname, hulive⟩
  · by_cases heq : j = k
    · subst heq
      rw [Session.setTask, List.getElem?_set_self hlt] at hu
      cases hu
      exact haccepting hj
    · rw [Session.setTask, List.getElem?_set_ne (Ne.symm heq)] at hu
      exact h.accepting j u hj hu
  · obtain ⟨u₀, hu₀, huid, -, hudone⟩ := hold i u hu
    obtain ⟨v₀, hv₀, hvid, -, hvdone⟩ := hold j v hv
    exact h.single i j u₀ v₀ hu₀ hv₀ (fun hend => hopen (hudone hend))
      (fun hend => hopen' (hvdone hend)) (by rw [← huid, ← hvid, hsame])
  · obtain ⟨u₀, hu₀, huid, hulive, -⟩ := hold j u hu
    rw [huid]
    exact h.held j u₀ hu₀ (hulive.mp hjlive)

/-- A task in `serve` goes on in it. -/
theorem serving (h : Distinct s cut) {k : ℕ} {t t' : Task} (ht : s.tasks[k]? = some t)
    (live : t.stage = .serving) (hid : t'.id = t.id) (live' : t'.stage = .serving) :
    Distinct (s.setTask k t') cut := by
  refine h.setTask ht hid ⟨fun _ => .inr live, fun _ => .inr live'⟩ (fun hdone => ?_) fun hk => ?_
  · rw [live] at hdone
    cases hdone
  · have haccepted := h.accepting k t hk ht
    rw [live] at haccepted
    cases haccepted

/-- A task that stops pushing, with every entry of its id. -/
theorem drop (h : Distinct s cut) {k : ℕ} {t t' : Task} (ht : s.tasks[k]? = some t)
    (hopen : t.stage ≠ .done) (hid : t'.id = t.id) (hover : ¬t'.Live)
    (haccepting : s.dispatch ≠ .accepting k) :
    Distinct ((s.forget t.id).setTask k t') cut := by
  have hlt := (List.getElem?_eq_some_iff.mp ht).1
  refine ⟨fun e he => ?_, fun j u hj hu => ?_, fun i j u v hu hv hopen₁ hopen₂ hsame => ?_,
    fun j u hu hlive => ?_⟩
  · obtain ⟨hmem, hne⟩ := List.mem_filter.mp he
    obtain ⟨u, hu, hname, hulive⟩ := h.entries e hmem
    have hother : e.2 ≠ k := by
      rintro heq
      rw [heq, ht] at hu
      cases hu
      exact of_decide_eq_true hne hname.symm
    exact ⟨u, (List.getElem?_set_ne (Ne.symm hother)).trans hu, hname, hulive⟩
  · have hother : j ≠ k := fun heq => haccepting (heq ▸ hj)
    rw [Session.setTask, forget, List.getElem?_set_ne (Ne.symm hother)] at hu
    exact h.accepting j u hj hu
  · -- the task owed an `End` under this id before as well
    have hold : ∀ (i : ℕ) (u : Task), (s.tasks.set k t')[i]? = some u → u.stage ≠ .done →
        ∃ v, s.tasks[i]? = some v ∧ v.stage ≠ .done ∧ v.id = u.id := by
      intro i u hu hopen₁
      by_cases heq : i = k
      · subst heq
        rw [List.getElem?_set_self hlt] at hu
        cases hu
        exact ⟨t, ht, hopen, hid.symm⟩
      · rw [List.getElem?_set_ne (Ne.symm heq)] at hu
        exact ⟨u, hu, hopen₁, rfl⟩
    obtain ⟨u₀, hu₀, huopen, huid⟩ := hold i u hu hopen₁
    obtain ⟨v₀, hv₀, hvopen, hvid⟩ := hold j v hv hopen₂
    exact h.single i j u₀ v₀ hu₀ hv₀ huopen hvopen (by rw [huid, hvid, hsame])
  · by_cases heq : j = k
    · subst heq
      rw [Session.setTask, forget, List.getElem?_set_self hlt] at hu
      cases hu
      exact absurd hlive hover
    · rw [Session.setTask, forget, List.getElem?_set_ne (Ne.symm heq)] at hu
      refine (h.held j u hu hlive).imp_left fun hmem => List.mem_filter.mpr ⟨hmem, ?_⟩
      have hother : u.id ≠ t.id := fun hsame =>
        heq (h.single j k u t hu ht hlive.ne_done hopen hsame)
      exact decide_eq_true hother

theorem cancel (h : Distinct s cut) {id : ℕ} (hs : s.cancel id = .ok s') {m : Move}
    (hm : s.dropped s' m = (s.streams.filter fun e => e ∉ s'.streams).map Prod.snd) :
    Distinct s' (cut ++ s.dropped s' m) := by
  rw [hm]
  rw [Session.cancel] at hs
  split at hs <;> cases hs
  refine ⟨fun e he => h.entries e (List.mem_filter.mp he).1, h.accepting, h.single,
    fun k t ht hlive => ?_⟩
  cases h.held k t ht hlive with
  | inr hcut => exact .inr (List.mem_append_left _ hcut)
  | inl hmem =>
      by_cases heq : t.id = id
      · refine .inr (List.mem_append_right _ (List.mem_map.mpr ⟨(t.id, k), ?_, rfl⟩))
        refine List.mem_filter.mpr ⟨hmem, decide_eq_true fun hstill => ?_⟩
        exact of_decide_eq_true (List.mem_filter.mp hstill).2 heq
      · exact .inl (List.mem_filter.mpr ⟨hmem, decide_eq_true heq⟩)

theorem grant (h : Distinct s cut) {id : ℕ} {credit : UInt32} (hs : s.grant id credit = .ok s') :
    Distinct s' cut := by
  rw [Session.grant] at hs
  split at hs <;> cases hs
  case h_2 k _ =>
      cases ht : s.tasks[k]? with
      | none => exact h
      | some t => exact h.setTask ht rfl Iff.rfl (fun hdone => hdone) fun hk => h.accepting k t hk ht

theorem reply (h : Distinct s cut) (id : ℕ) (body : Body) : Distinct (s.reply id body) cut :=
  h.congr rfl rfl fun _ hk => by cases hk

/-- A subscription on an id that owes no `End`. -/
theorem accept (h : Distinct s cut) {id : ℕ} (hfree : s.openOn id = 0) (stream : Stream)
    (credit : UInt32) : Distinct (s.accept id stream credit) cut := by
  have hnone : ∀ (j : ℕ) (u : Task), s.tasks[j]? = some u → u.stage ≠ .done → u.id ≠ id := by
    rintro j u hu hopen rfl
    exact openOn_pos hu hopen hfree
  -- an index leads to an old task, or to the new one
  have hcases : ∀ (j : ℕ) (u : Task), (s.tasks ++ [⟨id, credit.toNat, stream, .accepted⟩])[j]? = some u →
      s.tasks[j]? = some u ∨ j = s.tasks.length ∧ u = ⟨id, credit.toNat, stream, .accepted⟩ := by
    intro j u hu
    by_cases hlt : j < s.tasks.length
    · rw [List.getElem?_append_left hlt] at hu
      exact .inl hu
    · rw [List.getElem?_append_right (not_lt.mp hlt)] at hu
      have hzero : j - s.tasks.length = 0 := by
        have hbound := (List.getElem?_eq_some_iff.mp hu).1
        rw [List.length_singleton] at hbound
        omega
      rw [hzero] at hu
      cases hu
      exact .inr ⟨by omega, rfl⟩
  refine ⟨fun e he => ?_, fun k t hk ht => ?_, fun i j u v hu hv hopen hopen' hsame => ?_,
    fun j u hu hlive => ?_⟩
  · cases List.mem_append.mp he with
    | inl hold =>
        obtain ⟨u, hu, hname, hulive⟩ := h.entries e hold
        exact ⟨u, (List.getElem?_append_left (List.getElem?_eq_some_iff.mp hu).1).trans hu, hname,
          hulive⟩
    | inr hnew =>
        rw [List.mem_singleton.mp hnew]
        exact ⟨_, List.getElem?_concat_length, rfl, .inl rfl⟩
  · cases hk
    rw [Session.accept, List.getElem?_concat_length] at ht
    cases ht
    rfl
  · cases hcases i u hu with
    | inl hu =>
        cases hcases j v hv with
        | inl hv => exact h.single i j u v hu hv hopen hopen' hsame
        | inr hnew => exact absurd (hsame.trans (congrArg Task.id hnew.2)) (hnone i u hu hopen)
    | inr hnew =>
        cases hcases j v hv with
        | inl hv =>
            exact absurd (hsame.symm.trans (congrArg Task.id hnew.2)) (hnone j v hv hopen')
        | inr hnew' => rw [hnew.1, hnew'.1]
  · cases hcases j u hu with
    | inl hu => exact (h.held j u hu hlive).imp_left (List.mem_append_left _)
    | inr hnew =>
        obtain ⟨rfl, rfl⟩ := hnew
        exact .inl (List.mem_append_right _ (List.mem_singleton.mpr rfl))

theorem receive (h : Distinct s cut) {r : Request} (hr : s.Apart (.receive r))
    (found : Except Failure Bool) (answered : Option Body) :
    Distinct (s.receive found answered r)
      (cut ++ s.dropped (s.receive found answered r) (.receive r)) := by
  have hs : Distinct { s with trace := s.trace ++ [Event.received r] } cut :=
    h.congr rfl rfl fun _ hk => hk
  cases r with
  | subscribe id from_ mode credit =>
      refine append ?_ _
      simp only [Session.receive, take]
      cases found with
      | error e => exact hs.reply ..
      | ok reducible =>
          simp only
          split_ifs with _ htaken
          · exact hs.reply ..
          · exact hs.reply ..
          · exact hs.accept (hr.resolve_right htaken) _ _
  | credit id credit =>
      refine append ?_ _
      simp only [Session.receive, take]
      cases hg : ({ s with trace := s.trace ++ [Event.received (.credit id credit)] } :
          Session).grant id credit with
      | ok t => exact (hs.grant hg).reply ..
      | error e => exact hs.reply ..
  | cancel id =>
      simp only [Session.receive, take]
      cases hc : ({ s with trace := s.trace ++ [Event.received (.cancel id)] } :
          Session).cancel id with
      | ok t => exact hs.cancel (m := .receive (.cancel id)) hc rfl
      | error e => exact (hs.reply ..).append _
  | other id =>
      refine append ?_ _
      simp only [Session.receive, take]
      cases answered with
      | some body => exact hs.reply ..
      | none => exact hs.congr rfl rfl fun _ hk => hk

/-- What one move keeps. -/
theorem step (h : Distinct s cut) {m : Move} (hm : s.Apart m) (hs : Step s m s') :
    Distinct s' (cut ++ s.dropped s' m) := by
  cases hs with
  | receive idle => exact h.receive hm _ _
  | reply hr =>
      refine append ?_ _
      exact h.congr rfl rfl fun _ hk => Dispatch.noConfusion hk
  | @spawn k t hk ht =>
      refine append ?_ _
      have haccepted := h.accepting k t hk ht
      have hidle : Distinct { s with dispatch := .idle } cut :=
        h.congr rfl rfl fun _ hk => by cases hk
      have hspawned : Distinct
          (Session.setTask { s with dispatch := .idle } k { t with stage := .serving }) cut := by
        refine hidle.setTask ht rfl ⟨fun _ => .inl haccepted, fun _ => .inr rfl⟩ ?_ nofun
        intro hdone
        rw [haccepted] at hdone
        cases hdone
      dsimp only
      split
      · exact hspawned
      · exact hspawned.congr rfl rfl fun _ hk => hk
  | pump hp body =>
      refine append ?_ _
      exact h.congr rfl rfl fun _ hk => hk
  | steerCredit _ hg => exact (h.grant hg).append _
  | steerCancel _ hc => exact h.cancel hc rfl
  | @serve k t ht live limits shared =>
      have hsame : Distinct (s.sendInHand t) cut := by
        rw [sendInHand]
        split
        · exact h.congr rfl rfl fun _ hk => hk
        · exact h
      have ht' : (s.sendInHand t).tasks[k]? = some t := by
        rw [sendInHand_tasks]
        exact ht
      refine append ?_ _
      exact hsame.serving ht' live rfl live
  | viewed ht live asked r =>
      refine append ?_ _
      exact h.serving ht live rfl live
  | caughtUp ht live asked r =>
      refine append ?_ _
      exact h.serving ht live rfl live
  | cancelled ht live =>
      refine append ?_ _
      exact h.serving ht live rfl live
  | orphaned ht live =>
      refine append ?_ _
      exact h.serving ht live rfl live
  | @forget k t ht live ended =>
      refine append ?_ _
      refine h.drop ht (Task.ne_done live (by decide)) rfl ?_ fun hk => ?_
      · rintro (hstage | hstage)
        · cases hstage
        · cases hstage
      · have haccepted := h.accepting k t hk ht
        rw [live] at haccepted
        cases haccepted
  | @finish k t ht behind =>
      refine append ?_ _
      have hdone : Distinct (s.setTask k { t with stage := .done }) cut := by
        refine h.setTask ht rfl ⟨?_, ?_⟩ (fun _ => rfl) fun hk => ?_
        · rintro (hstage | hstage)
          · cases hstage
          · cases hstage
        · rintro (hstage | hstage)
          · rw [behind] at hstage
            cases hstage
          · rw [behind] at hstage
            cases hstage
        · have haccepted := h.accepting k t hk ht
          rw [behind] at haccepted
          cases haccepted
      exact hdone.congr rfl rfl fun _ hk => hk

end Distinct

theorem distinct_new (token : Bool) : Distinct (new token) [] := by
  have hnone : ∀ (k : ℕ) (t : Task), (new token).tasks[k]? ≠ some t := fun k t ht => by
    cases (List.getElem?_nil (i := k)).symm.trans ht
  exact ⟨List.forall_mem_nil _, fun k t _ ht => absurd ht (hnone k t),
    fun j _ t _ ht => absurd ht (hnone j t), fun k t ht => absurd ht (hnone k t)⟩

theorem Lives.distinct {token : Bool} {s : Session} {cut : List ℕ} (h : Lives Apart token s cut) :
    Distinct s cut := by
  induction h with
  | start => exact distinct_new token
  | step _ hm hs ih => exact ih.step hm hs
  | @close s cut _ ih =>
      refine ⟨List.forall_mem_nil _, ih.accepting, ih.single, fun k t ht hlive => .inr ?_⟩
      cases ih.held k t ht hlive with
      | inl hmem => exact List.mem_append_right _ (List.mem_map.mpr ⟨_, hmem, rfl⟩)
      | inr hcut => exact List.mem_append_left _ hcut

/-! ### Streams under one id -/

/-- `BadId`, as `dispatch` puts it. -/
def taken (id : ℕ) : Failure := ⟨.badId, "stream " ++ toString id ++ " is open"⟩

/-- Streams that use the same id stay apart: while one of them still owes its `End` a
subscription that the registry would allow is refused, and whoever is not in the table
any more was cut off. -/
def Isolated (s : Session) (cut : List ℕ) : Prop :=
  (∀ id from_ mode credit reducible answered, s.openOn id ≠ 0 →
    (mode = .reducible → reducible = true) → s.Apart (.receive (.subscribe id from_ mode credit)) →
      (s.receive (.ok reducible) answered (.subscribe id from_ mode credit)).dispatch =
        .replying ⟨id, .error (taken id)⟩) ∧
    s.Held cut

/-- A stream that waits for credit, cancelled before it noticed. -/
def cancelled : Session where
  token := false
  streams := []
  tasks := [⟨1, 0, { Stream.new 0 .records with phase := .parkedCredit 0 }, .serving⟩]
  dispatch := .idle
  pending := []
  trace := [.received (.subscribe 1 0 .records 0), .accepted 1, .sent ⟨1, .ok⟩,
    .received (.cancel 1)]

end Session

end Lug.Server
