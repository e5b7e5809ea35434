import Lug.Core.Sound
import Lug.Lib.Agree

/-!
Opening a log again. The records a log appended, replayed on what its last
checkpoint resumes to, lead to a structure that shows the same document and
answers every later patch alike.
-/

namespace Lug

open Reducible ReducibleContract StorageContract

/-- Two pointers that show the same version of the same document. -/
structure SameView {V : Type} [Versioned V] (v w : V) : Prop where
  version : Versioned.version v = Versioned.version w
  state : Versioned.state v = Versioned.state w

namespace SameView

variable {V : Type} [Versioned V] {u v w : V}

theorem refl (v : V) : SameView v v := ⟨rfl, rfl⟩

theorem symm (h : SameView v w) : SameView w v := ⟨h.version.symm, h.state.symm⟩

theorem trans (h : SameView u v) (h' : SameView v w) : SameView u w :=
  ⟨h.version.trans h'.version, h.state.trans h'.state⟩

end SameView

/-- A structure whose behaviour is a function of the document it shows: `Alike`
structures show the same pointer and answer every patch alike, and a resumed
pointer is alike whatever showed it. -/
class Resumable (D : Type) {P V : outParam Type} [Versioned V] [Reducible D P V]
    [ReducibleContract D] where
  Alike : D → D → Prop
  alike_of_same {d e : D} : Same d e → Alike d e
  alike_symm {d e : D} : Alike d e → Alike e d
  alike_trans {d e f : D} : Alike d e → Alike e f → Alike d f
  alike_view {d e : D} : Alike d e → SameView (view d) (view e)
  alike_apply {d e : D} : Alike d e → ∀ p : P,
    Agree (Option.Rel SameView) (apply d p).1 (apply e p).1
  alike_apply_state {d e : D} : Alike d e → ∀ p : P, Alike (apply d p).2 (apply e p).2
  resume_ok (v : V) : ∃ e : D, resume v = .ok e ∧ ∀ d : D, SameView v (view d) → Alike e d

namespace Resumable

variable {D P V : Type} [Versioned V] [Reducible D P V] [ReducibleContract D] [Resumable D]

theorem alike_refl (d : D) : Alike d d := alike_of_same (same_refl d)

theorem alike_version {d e : D} (h : Alike d e) : version d = version e := (alike_view h).version

end Resumable

open Resumable

/-- Every patch encodes, and what a patch that minted a version was encoded to
decodes to a patch that does the same. -/
structure Decodes (D : Type) {P V : Type} [Versioned V] [Serde P] [Reducible D P V]
    [ReducibleContract D] [Resumable D] : Prop where
  encodes (p : P) : ∃ b, Serde.toVec p = .ok b
  decodes {d : D} {p : P} {b : Bytes} {v : V} : Serde.toVec p = .ok b →
    (apply d p).1 = .ok (some v) → ∃ q : P, Serde.fromSlice b = .ok q ∧
      Agree (Option.Rel SameView) (apply d p).1 (apply d q).1 ∧
        Alike (apply d p).2 (apply d q).2

variable {D S P V : Type} [Versioned V] [Serde P] [Reducible D P V] [Storage S V]
  [ReducibleContract D] [Resumable D]

namespace Log

/-- The records were appended by patches that lead from one structure to the
other, as far as anything they show goes. -/
inductive Replays : D → List Record → D → Prop
  | nil {d e : D} (h : Alike d e) : Replays d [] e
  | cons {d d₁ e : D} {p : P} {v : V} {r : Record} {rs : List Record}
      (encoded : Serde.toVec p = .ok r.patch) (applied : apply d p = (.ok (some v), d₁))
      (version : Versioned.version v = r.version) (rest : Replays d₁ rs e) :
      Replays d (r :: rs) e

namespace Replays

variable {d d' e e' f : D} {rs rs' : List Record}

theorem congr_left (h : Replays d rs e) (hd : Alike d d') : Replays d' rs e := by
  induction h generalizing d' with
  | nil h => exact .nil (alike_trans (alike_symm hd) h)
  | @cons d d₁ e p v r rs encoded applied version rest ih =>
      have hresult := alike_apply hd p
      have hstate := alike_apply_state hd p
      rw [applied] at hresult hstate
      obtain ⟨o, ho, hrel⟩ := hresult.ok_left
      cases hrel with
      | some hview =>
          exact .cons encoded (Prod.ext ho rfl) (hview.version.symm.trans version) (ih hstate)

theorem congr_right (h : Replays d rs e) (he : Alike e e') : Replays d rs e' := by
  induction h with
  | nil h => exact .nil (alike_trans h he)
  | cons encoded applied version _ ih => exact .cons encoded applied version (ih he)

theorem append (h : Replays d rs e) (h' : Replays e rs' f) : Replays d (rs ++ rs') f := by
  induction h with
  | nil h => exact h'.congr_left (alike_symm h)
  | cons encoded applied version _ ih => exact .cons encoded applied version (ih h')

/-- A folded batch can be replayed from its records. -/
theorem of_folds {ps : List P} {vs : List V} (h : Folds d ps rs vs e) : Replays d rs e := by
  induction h with
  | nil d => exact .nil (alike_refl d)
  | mint encoded applied _ ih => exact .cons encoded applied rfl ih
  | @identity d d₁ e p ps b rs vs encoded applied _ ih =>
      have hsame : Same d₁ d := by
        simpa [applied] using apply_identity (d := d) (p := p) (by rw [applied])
      exact ih.congr_left (alike_of_same hsame)

/-- The records lie above the structure they start from and end at the other. -/
theorem bounds (h : Replays d rs e) :
    version d ≤ version e ∧ ∀ r ∈ rs, version d < r.version ∧ r.version ≤ version e := by
  induction h with
  | nil h => exact ⟨(alike_version h).le, nofun⟩
  | @cons d d₁ e p v r rs encoded applied hversion rest ih =>
      obtain ⟨hle, hall⟩ := ih
      have hd₁ : version d₁ = version d + 1 := by
        simpa [applied] using version_apply_ok (d := d) (p := p) (o := some v) (by rw [applied])
      have hv := (apply_mint (d := d) (p := p) (v := v) (by rw [applied])).2
      refine ⟨by omega, fun r' hr' => ?_⟩
      cases hr' with
      | head => omega
      | tail _ hr' =>
          have hr := hall r' hr'
          omega

end Replays

omit [ReducibleContract D] [Resumable D] in
/-- One iteration of the loop of `Log::open`. -/
theorem replay_cons (d : D) (r : Record) (rs : List Record) :
    replay (S := S) d (r :: rs) =
      if r.version ≤ version d then replay d rs
      else match Serde.fromSlice (P := P) r.patch with
      | .error e => .error (.codec e)
      | .ok patch =>
          match apply d patch with
          | (.error e, _) => .error (.data e)
          | (.ok view, d) =>
              if view.elim 0 Versioned.version ≠ r.version then
                .error (.version r.version (view.elim 0 Versioned.version))
              else replay d rs := by
  rw [replay]
  split_ifs
  · rfl
  · cases Serde.fromSlice (P := P) r.patch with
    | error e => rfl
    | ok patch =>
        simp only [apply]
        cases stagePatch d (stage d) patch with
        | error e => rfl
        | ok staged =>
            rcases hc : commit d staged with ⟨_ | _, d'⟩ <;> simp [hc]

omit [ReducibleContract D] [Resumable D] in
/-- Records the checkpoint covers are skipped. -/
theorem replay_covered {d : D} {covered : List Record}
    (h : ∀ r ∈ covered, r.version ≤ version d) (rs : List Record) :
    replay (S := S) d (covered ++ rs) = replay d rs := by
  induction covered with
  | nil => rfl
  | cons r covered ih =>
      rw [List.cons_append, replay_cons, if_pos (h r List.mem_cons_self),
        ih fun r hr => h r (List.mem_cons_of_mem _ hr)]

/-- Replaying the records of a run leads to where the run led. -/
theorem replay_of_replays (hd : Decodes D) {rs : List Record} {d e : D} (h : Replays d rs e) :
    ∃ e', replay (S := S) d rs = .ok e' ∧ Alike e' e := by
  induction rs generalizing d with
  | nil =>
      cases h with
      | nil h => exact ⟨d, rfl, h⟩
  | cons r rs ih =>
      cases h with
      | @cons _ d₁ _ p v _ _ encoded applied hversion rest =>
          have happlied : (apply d p).1 = .ok (some v) := by rw [applied]
          have hminted := (apply_mint happlied).2
          obtain ⟨q, hq, hresult, hstate⟩ := hd.decodes encoded happlied
          rw [applied] at hresult hstate
          obtain ⟨o, ho, hrel⟩ := hresult.ok_left
          cases hrel with
          | @some _ w hview =>
              have hw := hview.version.symm.trans hversion
              rcases happly : apply d q with ⟨o, d₂⟩
              rw [happly] at ho hstate
              obtain rfl : o = .ok (some w) := ho
              obtain ⟨e', hreplay, halike⟩ := ih (rest.congr_left hstate)
              refine ⟨e', ?_, halike⟩
              rw [replay_cons, if_neg (by omega), hq]
              simp [happly, hw, hreplay]

/-- How the history of a log leads to its structure: by all records from the zero
value, or by those above the last checkpoint from whatever shows its pointer. -/
inductive Trace (zero : D) (L : Ledger V) (d : D) : Prop
  | fromZero (header : L.header = none) (h : Replays zero L.taken d)
  | fromHeader {v : V} {start : D} {covered rs : List Record} (header : L.header = some v)
      (view : SameView v (Reducible.view start)) (taken : L.taken = covered ++ rs)
      (below : ∀ r ∈ covered, r.version ≤ version start) (h : Replays start rs d)

namespace Trace

variable {zero d d' : D} {L : Ledger V}

theorem push (h : Trace zero L d) {rs : List Record} (hrs : Replays d rs d') :
    Trace zero (L.push rs) d' := by
  cases h with
  | fromZero header h => exact .fromZero header (h.append hrs)
  | fromHeader header view taken below h =>
      exact .fromHeader header view (by rw [Ledger.push_taken, taken, List.append_assoc]) below
        (h.append hrs)

theorem congr (h : Trace zero L d) (hd : Alike d d') : Trace zero L d' := by
  have hpush := h.push (.nil hd)
  rwa [Ledger.push_nil] at hpush

theorem taken_le (h : Trace zero L d) : ∀ r ∈ L.taken, r.version ≤ version d := by
  intro r hr
  cases h with
  | fromZero _ h => exact (h.bounds.2 r hr).2
  | fromHeader _ _ taken below h =>
      rw [taken, List.mem_append] at hr
      cases hr with
      | inl hr => exact (below r hr).trans h.bounds.1
      | inr hr => exact (h.bounds.2 r hr).2

theorem checkpoint (h : Trace zero L d) : Trace zero (L.checkpoint (Reducible.view d)) d :=
  .fromHeader rfl (.refl _) (List.append_nil _).symm h.taken_le (.nil (alike_refl d))

end Trace

/-- What a cold start finds of a history leads to a structure like the one the
history led to. -/
theorem Trace.resumes (hd : Decodes D) {zero d : D} {L : Ledger V} (h : Trace zero L d)
    {found : Recovered V} (hf : found.Resumes L) :
    ∃ start e, (match found.header with
        | some view => (Reducible.resume view : Except (Reducible.Err D) D)
        | none => .ok zero) = .ok start ∧
      replay (S := S) start found.tail = .ok e ∧ Alike e d := by
  obtain ⟨skipped, hskipped, hbelow⟩ := hf.tail
  have hheader := hf.header
  cases h with
  | fromZero header h =>
      have hnone : found.header = none := by
        rw [header] at hheader
        simpa using hheader
      have hnil : skipped = [] := by
        rw [List.eq_nil_iff_forall_not_mem]
        intro r hr
        obtain ⟨v, hv, -⟩ := hbelow r hr
        rw [header] at hv
        cases hv
      rw [hskipped, hnil, List.nil_append] at h
      obtain ⟨e, hreplay, halike⟩ := replay_of_replays (S := S) hd h
      exact ⟨zero, e, by rw [hnone], hreplay, halike⟩
  | @fromHeader v start covered rs header view taken below h =>
      obtain ⟨v', hsome, hview⟩ : ∃ v', found.header = some v' ∧ SameView v' v := by
        rw [header] at hheader
        cases hfound : found.header with
        | none => simp [hfound] at hheader
        | some v' =>
            simp only [hfound, Option.map_some, Option.some.injEq, Prod.mk.injEq] at hheader
            exact ⟨v', rfl, hheader.1, hheader.2⟩
      obtain ⟨resumed, hresumed, hlike⟩ := resume_ok (D := D) v'
      have halike := hlike start (hview.trans view)
      have hversion : version resumed = version start := alike_version halike
      -- What the cold start skipped lies at or below the header, so it ends
      -- where the replayed records begin or before.
      obtain ⟨extra, htail, hextra⟩ : ∃ extra, found.tail = extra ++ rs ∧
          ∀ r ∈ extra, r.version ≤ version start := by
        rw [taken] at hskipped
        rcases List.append_eq_append_iff.mp hskipped with ⟨x, rfl, hrs⟩ | ⟨x, rfl, htail⟩
        · have hx : x = [] := by
            rw [List.eq_nil_iff_forall_not_mem]
            intro r hr
            obtain ⟨w, hw, hle⟩ := hbelow r (List.mem_append_right _ hr)
            have habove := (h.bounds.2 r (by rw [hrs]; exact List.mem_append_left _ hr)).1
            rw [header, Option.some.injEq] at hw
            subst hw
            have hstart : version start = Versioned.version v := view.version.symm
            omega
          subst hx
          exact ⟨[], by simpa using hrs.symm, nofun⟩
        · exact ⟨x, htail, fun r hr => below r (List.mem_append_right _ hr)⟩
      obtain ⟨e, hreplay, halike'⟩ :=
        replay_of_replays (S := S) hd (h.congr_left (alike_symm halike))
      refine ⟨resumed, e, by rw [hsome]; exact hresumed, ?_, halike'⟩
      rw [htail, replay_covered (by rw [hversion]; exact hextra), hreplay]

variable [StorageContract S]

/-- The invariant of a log that can be opened again from its storage. -/
structure Traced (zero : D) (l : Log D S) (L : Ledger V) : Prop where
  holds : Holds l.storage L
  version : version l.data = l.watermark
  trace : Trace zero L l.data

/-- Opening a traced log again finds a structure like the one it left. -/
theorem Traced.opens (hd : Decodes D) {zero : D} {l : Log D S} {L : Ledger V}
    (h : Traced zero l L) {found : Recovered V}
    (hload : (Storage.load l.storage).1 = .ok found) :
    ∃ l', Log.open zero l.storage = .ok l' ∧ Alike l'.data l.data ∧ Holds l'.storage L := by
  obtain ⟨hholds, hresumes⟩ := load_ok h.holds hload
  obtain ⟨start, e, hstart, hreplay, halike⟩ := h.trace.resumes (S := S) hd hresumes
  rcases hfound : Storage.load l.storage with ⟨o, s⟩
  rw [hfound] at hload hholds
  obtain rfl : o = .ok found := hload
  refine ⟨⟨e, s, Reducible.version e, Reducible.version e⟩, ?_, halike, hholds⟩
  unfold Log.open
  cases hheader : found.header with
  | none =>
      rw [hheader] at hstart
      obtain rfl : zero = start := by simpa using hstart
      simp only [hfound, hheader, hreplay]
  | some view =>
      simp only [hheader] at hstart
      simp only [hfound, hheader, hstart, Except.mapError, hreplay]

end Log

/-- What a caller may do with a log. -/
inductive Operation (P : Type)
  | append (patches : List P) (durability : Durability)
  | checkpoint
  | sync

namespace Log

/-- The log an operation leaves behind, whatever it answers. -/
def step (l : Log D S) : Operation P → Log D S
  | .append patches durability => (l.append patches durability).2
  | .checkpoint => l.checkpoint.2
  | .sync => l.sync.2

def run (l : Log D S) (ops : List (Operation P)) : Log D S := ops.foldl step l

section Run

variable [StorageContract S] {zero : D} {l : Log D S} {L : Ledger V}

theorem Traced.append (hd : Decodes D) (h : Traced zero l L) (ps : List P)
    (durability : Durability) : ∃ L', Traced zero (l.append ps durability).2 L' := by
  have houtcome := append_outcome ps durability (fun p _ => hd.encodes p) h.holds h.version
  generalize (l.append ps durability).1 = o at houtcome
  generalize (l.append ps durability).2 = l' at houtcome
  have hkept : Same l'.data l.data → l'.watermark = l.watermark → Holds l'.storage L →
      Traced zero l' L := fun same watermark holds =>
    ⟨holds, by rw [same_version same, watermark, h.version],
      h.trace.congr (alike_symm (alike_of_same same))⟩
  cases houtcome with
  | rejected _ same watermark holds => exact ⟨L, hkept same watermark holds⟩
  | refused same watermark holds => exact ⟨L, hkept same watermark holds⟩
  | taken folds watermark holds _ =>
      exact ⟨_, holds, watermark.symm, h.trace.push (.of_folds folds)⟩

theorem Traced.checkpoint (h : Traced zero l L) : ∃ L', Traced zero l.checkpoint.2 L' := by
  obtain ⟨s, synced, L', hlog, hholds, hL'⟩ := checkpoint_holds h.holds
  rw [hlog]
  refine ⟨L', hholds, h.version, ?_⟩
  cases hL' with
  | inl hkept => exact hkept ▸ h.trace
  | inr hmoved => exact hmoved ▸ h.trace.checkpoint

theorem Traced.sync (h : Traced zero l L) : Traced zero l.sync.2 L := by
  have hheld := sync_holds h.holds
  unfold Log.sync
  rcases hs : Storage.sync l.storage with ⟨e | ⟨⟩, s⟩
  · rw [hs] at hheld
    exact ⟨hheld, h.version, h.trace⟩
  · rw [hs] at hheld
    exact ⟨hheld, h.version, h.trace⟩

theorem Traced.run (hd : Decodes D) (h : Traced zero l L) (ops : List (Operation P)) :
    ∃ L', Traced zero (l.run ops) L' := by
  induction ops generalizing l L with
  | nil => exact ⟨L, h⟩
  | cons op ops ih =>
      obtain ⟨L', hstep⟩ : ∃ L', Traced zero (l.step op) L' := by
        cases op with
        | append ps durability => exact h.append hd ps durability
        | checkpoint => exact h.checkpoint
        | sync => exact ⟨L, h.sync⟩
      exact ih hstep

end Run

/-- The answers of a sequence of appends. -/
def answers (l : Log D S) : List (List P × Durability) →
    List (Except (LogError (Reducible.Err D) (Storage.Err S)) (List V))
  | [] => []
  | (ps, durability) :: batches =>
      (l.append ps durability).1 :: (l.append ps durability).2.answers batches

/-- The log a sequence of appends leaves behind. -/
def appends (l : Log D S) : List (List P × Durability) → Log D S
  | [] => l
  | (ps, durability) :: batches => (l.append ps durability).2.appends batches

/-- No answer of the sequence is a failure of the storage. -/
def Serves (l : Log D S) (batches : List (List P × Durability)) : Prop :=
  ∀ o ∈ l.answers batches, ∀ e, o ≠ .error (.storage e)

/-- Answers that agree: the same error, or pointers that show the same. -/
def SameAnswer : Except (LogError (Reducible.Err D) (Storage.Err S)) (List V) →
    Except (LogError (Reducible.Err D) (Storage.Err S)) (List V) → Prop :=
  Agree (List.Forall₂ SameView)

/-- What it is for one log to go on as another one: whatever is appended to both
from here on, as long as storage serves both, is answered alike and recorded
alike. -/
def Continues [StorageContract S] (l l' : Log D S) : Prop :=
  ∀ batches, l.Serves batches → l'.Serves batches →
    List.Forall₂ SameAnswer (l.answers batches) (l'.answers batches) ∧
      ∃ L, Holds (l.appends batches).storage L ∧ Holds (l'.appends batches).storage L

section Twin

/-- Structures that show the same fold a batch to the same records. -/
theorem Folds.alike {d e d₁ : D} {ps : List P} {rs : List Record} {vs : List V}
    (h : Folds d ps rs vs d₁) (hlike : Alike d e) :
    ∃ vs' e₁, Folds e ps rs vs' e₁ ∧ List.Forall₂ SameView vs vs' ∧ Alike d₁ e₁ := by
  induction h generalizing e with
  | nil d => exact ⟨[], e, .nil e, .nil, hlike⟩
  | @mint d d₁ d₂ p ps b v rs vs encoded applied _ ih =>
      have hresult := alike_apply hlike p
      have hstate := alike_apply_state hlike p
      rw [applied] at hresult hstate
      obtain ⟨o, ho, hrel⟩ := hresult.ok_left
      cases hrel with
      | @some _ w hview =>
          obtain ⟨vs', e₂, hfolds, hviews, halike⟩ := ih hstate
          have happly : apply e p = (.ok (some w), (apply e p).2) := Prod.ext ho rfl
          refine ⟨w :: vs', e₂, ?_, .cons hview hviews, halike⟩
          rw [hview.version]
          exact .mint encoded happly hfolds
  | @identity d d₁ d₂ p ps b rs vs encoded applied _ ih =>
      have hresult := alike_apply hlike p
      have hstate := alike_apply_state hlike p
      rw [applied] at hresult hstate
      obtain ⟨o, ho, hrel⟩ := hresult.ok_left
      cases hrel
      obtain ⟨vs', e₂, hfolds, hviews, halike⟩ := ih hstate
      exact ⟨_, e₂, .identity encoded (Prod.ext ho rfl) hfolds,
        .cons (alike_view hstate) hviews, halike⟩

/-- They refuse a batch with the same error. -/
theorem fold_error_alike {d e : D} (hlike : Alike d e) {base : ℕ} (base' : ℕ) {ps : List P}
    {rs : List Record} {vs : List V} (vs' : List V) {err : LogError (Reducible.Err D) (Storage.Err S)}
    (h : (fold (S := S) base d ps rs vs).1 = .error err) :
    (fold (S := S) base' e ps rs vs').1 = .error err := by
  induction ps generalizing d e rs vs vs' with
  | nil => cases h
  | cons p ps ih =>
      rw [fold_cons] at h ⊢
      cases hp : Serde.toVec p with
      | error msg => simpa [hp] using h
      | ok b =>
          have hresult := alike_apply hlike p
          have hstate := alike_apply_state hlike p
          rcases ha : apply d p with ⟨o, d₁⟩
          rcases ha' : apply e p with ⟨o', e₁⟩
          rw [ha, ha'] at hresult hstate
          simp only [hp, ha] at h
          dsimp only
          cases hresult with
          | error err' => exact h
          | ok hrel =>
              cases hrel with
              | none => exact ih hstate _ h
              | some hview =>
                  simp only [hview.version] at h
                  exact ih hstate _ h

variable [StorageContract S]

/-- Two logs on the same history that show the same. -/
structure Twin (l l' : Log D S) (L : Ledger V) : Prop where
  holds : Holds l.storage L
  holds' : Holds l'.storage L
  version : version l.data = l.watermark
  version' : Reducible.version l'.data = l'.watermark
  alike : Alike l.data l'.data

theorem Twin.append (hd : Decodes D) {l l' : Log D S} {L : Ledger V} (h : Twin l l' L)
    (ps : List P) (durability : Durability)
    (hserves : ∀ e, (l.append ps durability).1 ≠ .error (.storage e))
    (hserves' : ∀ e, (l'.append ps durability).1 ≠ .error (.storage e)) :
    SameAnswer (l.append ps durability).1 (l'.append ps durability).1 ∧
      ∃ L', Twin (l.append ps durability).2 (l'.append ps durability).2 L' := by
  have houtcome := append_outcome ps durability (fun p _ => hd.encodes p) h.holds h.version
  have houtcome' := append_outcome ps durability (fun p _ => hd.encodes p) h.holds' h.version'
  generalize (l.append ps durability).1 = o at houtcome hserves ⊢
  generalize (l.append ps durability).2 = m at houtcome ⊢
  generalize (l'.append ps durability).1 = o' at houtcome' hserves' ⊢
  generalize (l'.append ps durability).2 = m' at houtcome' ⊢
  cases houtcome with
  | refused => exact absurd rfl (hserves _)
  | rejected fails same watermark holds =>
      have hfails := fold_error_alike h.alike l'.watermark [] fails
      cases houtcome' with
      | refused => exact absurd rfl (hserves' _)
      | taken folds =>
          rw [fold_eq_ok_iff.mpr folds] at hfails
          cases hfails
      | rejected fails' same' watermark' holds' =>
          rw [fails'] at hfails
          cases hfails
          refine ⟨.error _, L, holds, holds', ?_, ?_, ?_⟩
          · rw [same_version same, watermark, h.version]
          · rw [same_version same', watermark', h.version']
          · exact alike_trans (alike_of_same same)
              (alike_trans h.alike (alike_symm (alike_of_same same')))
  | @taken _ rs vs _ folds watermark holds answer =>
      obtain ⟨vs', e, folds', hviews, halike⟩ := folds.alike h.alike
      obtain rfl : o = .ok vs := answer.resolve_right fun ⟨e, he⟩ => hserves e he
      cases houtcome' with
      | refused => exact absurd rfl (hserves' _)
      | rejected fails' =>
          rw [fold_eq_ok_iff.mpr folds'] at fails'
          cases fails'
      | taken folds'' watermark' holds' answer' =>
          obtain ⟨rfl, rfl, rfl⟩ := folds'.det folds''
          obtain rfl : o' = .ok vs' := answer'.resolve_right fun ⟨e, he⟩ => hserves' e he
          exact ⟨.ok hviews, _, holds, holds', watermark.symm, watermark'.symm, halike⟩

theorem Twin.continues (hd : Decodes D) {l l' : Log D S} {L : Ledger V} (h : Twin l l' L) :
    l.Continues l' := by
  intro batches
  induction batches generalizing l l' L with
  | nil => exact fun _ _ => ⟨.nil, L, h.holds, h.holds'⟩
  | cons batch batches ih =>
      obtain ⟨ps, durability⟩ := batch
      intro hserves hserves'
      obtain ⟨hanswer, L', htwin⟩ := h.append hd ps durability
        (hserves _ List.mem_cons_self) (hserves' _ List.mem_cons_self)
      obtain ⟨hanswers, hholds⟩ := ih htwin
        (fun o ho => hserves o (List.mem_cons_of_mem _ ho))
        (fun o ho => hserves' o (List.mem_cons_of_mem _ ho))
      exact ⟨.cons hanswer hanswers, hholds⟩

end Twin

/-- A log that was opened on an empty storage. -/
theorem traced_of_open [StorageContract S] (hd : Decodes D) {zero : D} {s : S} {l : Log D S}
    (hempty : Holds s ⟨[], none⟩) (hopen : Log.open zero s = .ok l) :
    Traced zero l ⟨[], none⟩ := by
  have hstart : Traced zero (⟨zero, s, Reducible.version zero, 0⟩ : Log D S) ⟨[], none⟩ :=
    ⟨hempty, rfl, .fromZero rfl (.nil (alike_refl zero))⟩
  obtain ⟨found, hload⟩ : ∃ found, (Storage.load s).1 = .ok found := by
    cases hload : (Storage.load s).1 with
    | ok found => exact ⟨found, rfl⟩
    | error e =>
        rw [Log.open, ← Prod.mk.eta (p := Storage.load s), hload] at hopen
        cases hopen
  obtain ⟨l', hopen', halike, hholds⟩ := hstart.opens hd hload
  rw [hopen] at hopen'
  cases hopen'
  exact ⟨hholds, (open_data hopen).1, hstart.trace.congr (alike_symm halike)⟩

/-- What recovery owes a caller: after any run of a log that was opened on an empty
storage, opening that storage again succeeds, and the new log stands at the same
watermark, shows the same document, and goes on as the old one. -/
def Recovers (S : Type) [Storage S V] [StorageContract S] (zero : D) : Prop :=
  ∀ (s : S) (l : Log D S) (ops : List (Operation P)) (found : Recovered V),
    Holds s ⟨[], none⟩ → Log.open zero s = .ok l →
    (Storage.load (l.run ops).storage).1 = .ok found →
      ∃ l', Log.open zero (l.run ops).storage = .ok l' ∧
        l'.watermark = (l.run ops).watermark ∧
        SameView (Reducible.view (l.run ops).data) (Reducible.view l'.data) ∧
        (l.run ops).Continues l'

/-- A structure whose patches decode to what they were encoded from recovers. -/
theorem recovers_of_decodes [StorageContract S] (hd : Decodes D) (zero : D) :
    Recovers S zero := by
  intro s l ops found hempty hopen hload
  have htraced := traced_of_open hd hempty hopen
  obtain ⟨L, hrun⟩ := htraced.run hd ops
  obtain ⟨l', hopen', halike, hholds⟩ := hrun.opens hd hload
  have hversion := (open_data hopen').1
  refine ⟨l', hopen', ?_, alike_view (alike_symm halike), ?_⟩
  · rw [← hversion, ← hrun.version, alike_version halike]
  · exact (Twin.mk hrun.holds hholds hrun.version hversion (alike_symm halike)).continues hd

end Log

end Lug
