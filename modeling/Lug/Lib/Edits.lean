import Mathlib.Data.Option.Basic
import Mathlib.Data.List.Nodup
import Mathlib.Logic.Relation

/-!
Edits of what stands under keys. A run of edits on distinct keys does to each key what
its edit says, and fails if one of them does not apply: in which order they are made
makes no difference.
-/

namespace Edits

variable {K V W M N ε ε' : Type*}

/-- What becomes of what stands under a key, `none` where the edit does not apply. -/
abbrev Edit (V : Type*) := Option V → Option (Option V)

/-- Initializes an absent key. -/
def create (v : V) : Edit V
  | none => some (some v)
  | some _ => none

/-- Changes what stands under a key. -/
def update (f : V → Option V) : Edit V
  | none => none
  | some v => (f v).map some

def delete : Edit V
  | none => none
  | some _ => some none

/-- The edits lead from one reading of the keys to another. -/
structure Turns (edits : List (K × Edit V)) (g g' : K → Option V) : Prop where
  done : ∀ e ∈ edits, e.2 (g e.1) = some (g' e.1)
  same : ∀ k, (∀ e ∈ edits, e.1 ≠ k) → g' k = g k

/-- One of the edits does not apply. -/
def Stuck (edits : List (K × Edit V)) (g : K → Option V) : Prop :=
  ∃ e ∈ edits, e.2 (g e.1) = none

/-- How making the edits on something that is read by `get` and stays in `P` may end. -/
def Runs (P : M → Prop) (get : M → K → Option V) (edits : List (K × Edit V))
    (g : K → Option V) : Except ε M → Prop
  | .ok m => P m ∧ Turns edits g (get m)
  | .error _ => Stuck edits g

/-- The edit of one key is made. -/
structure Made (P : M → Prop) (get : M → K → Option V) (k : K) (f : Edit V) (m m' : M) : Prop where
  kept : P m'
  done : f (get m k) = some (get m' k)
  same : ∀ k', k' ≠ k → get m' k' = get m k'

namespace Runs

variable {P : M → Prop} {get : M → K → Option V} {edits edits' : List (K × Edit V)}
  {g : K → Option V}

theorem nil {m : M} (hm : P m) : Runs P get [] (get m) (.ok m : Except ε M) :=
  ⟨hm, by simp, fun _ _ => rfl⟩

theorem stuck {k : K} {f : Edit V} (hf : f (g k) = none) (e : ε) :
    Runs P get ((k, f) :: edits) g (.error e : Except ε M) :=
  ⟨(k, f), List.mem_cons_self, hf⟩

/-- The first edit is made, then the others. -/
theorem cons {k : K} {f : Edit V} {m m' : M} {x : Except ε M} (hmade : Made P get k f m m')
    (hk : ∀ e ∈ edits, e.1 ≠ k) (h : Runs P get edits (get m') x) :
    Runs P get ((k, f) :: edits) (get m) x := by
  cases x with
  | ok n =>
      obtain ⟨hn, hdone, hother⟩ := h
      refine ⟨hn, fun e he => ?_, fun k' hk' => ?_⟩
      · cases he with
        | head =>
            show f (get m k) = some (get n k)
            rw [hother k hk, hmade.done]
        | tail _ he => rw [← hdone e he, hmade.same e.1 (hk e he)]
      · rw [hother k' fun e he => hk' e (List.mem_cons_of_mem _ he)]
        exact hmade.same k' (hk' _ List.mem_cons_self).symm
  | error e =>
      obtain ⟨e', he', hnone⟩ := h
      exact ⟨e', List.mem_cons_of_mem _ he', by rw [← hmade.same e'.1 (hk e' he'), hnone]⟩

/-- A loop that makes one edit after the other, and stops where one does not apply. -/
theorem loop {A : Type*} {run : List A → M → Except ε M} {key : A → K} {edit : A → Edit V}
    (hnil : ∀ m, run [] m = .ok m)
    (hcons : ∀ a rest m, P m →
      (edit a (get m (key a)) = none ∧ ∃ e, run (a :: rest) m = .error e) ∨
        ∃ m', Made P get (key a) (edit a) m m' ∧ run (a :: rest) m = run rest m')
    {as : List A} (has : (as.map key).Nodup) {m : M} (hm : P m) :
    Runs P get (as.map fun a => (key a, edit a)) (get m) (run as m) := by
  induction as generalizing m with
  | nil =>
      rw [hnil]
      exact nil hm
  | cons a rest ih =>
      rw [List.map_cons, List.nodup_cons] at has
      rw [List.map_cons]
      cases hcons a rest m hm with
      | inl hstop =>
          obtain ⟨hnone, e, hrun⟩ := hstop
          rw [hrun]
          exact stuck hnone e
      | inr hgo =>
          obtain ⟨m', hmade, hrun⟩ := hgo
          rw [hrun]
          refine cons hmade (fun e he heq => ?_) (ih has.2 hmade.kept)
          obtain ⟨b, hb, rfl⟩ := List.mem_map.mp he
          exact has.1 (List.mem_map.mpr ⟨b, hb, heq⟩)

/-- More edits, of other keys, behind those that were made. -/
theorem append {x : Except ε M} {next : M → Except ε M} (h : Runs P get edits g x)
    (hnext : ∀ m, P m → Runs P get edits' (get m) (next m))
    (hkeys : ((edits ++ edits').map Prod.fst).Nodup) :
    Runs P get (edits ++ edits') g (x >>= next) := by
  rw [List.map_append] at hkeys
  have hdisjoint : ∀ e ∈ edits, ∀ e' ∈ edits', e.1 ≠ e'.1 := fun e he e' he' =>
    (List.nodup_append.mp hkeys).2.2 _ (List.mem_map_of_mem he) _ (List.mem_map_of_mem he')
  cases x with
  | error e =>
      obtain ⟨e', he', hnone⟩ := h
      exact ⟨e', List.mem_append_left _ he', hnone⟩
  | ok m =>
      obtain ⟨hm, hdone, hsame⟩ := h
      have hrest := hnext m hm
      show Runs P get (edits ++ edits') g (next m)
      generalize next m = y at hrest
      cases y with
      | error e =>
          obtain ⟨e', he', hnone⟩ := hrest
          refine ⟨e', List.mem_append_right _ he', ?_⟩
          rw [← hsame e'.1 fun e he => hdisjoint e he e' he', hnone]
      | ok m' =>
          obtain ⟨hm', hdone', hsame'⟩ := hrest
          refine ⟨hm', fun e he => ?_, fun k hk => ?_⟩
          · cases List.mem_append.mp he with
            | inl he =>
                rw [hsame' e.1 fun e' he' => (hdisjoint e he e' he').symm]
                exact hdone e he
            | inr he =>
                rw [← hdone' e he, hsame e.1 fun e' he' => hdisjoint e' he' e he]
          · rw [hsame' k fun e he => hk e (List.mem_append_right _ he)]
            exact hsame k fun e he => hk e (List.mem_append_left _ he)

end Runs

/-! ### The same edits on two kinds of values -/

variable {R : V → W → Prop}

/-- The edits do the same to values that are the same. -/
def Alike (R : V → W → Prop) (f : Edit V) (f' : Edit W) : Prop :=
  ∀ v w, Option.Rel R v w → Option.Rel (Option.Rel R) (f v) (f' w)

theorem alike_create {v : V} {w : W} (h : R v w) : Alike R (create v) (create w) := by
  intro _ _ hrel
  cases hrel with
  | none => exact .some (.some h)
  | some _ => exact .none

theorem alike_delete : Alike R (delete : Edit V) (delete : Edit W) := by
  intro _ _ hrel
  cases hrel with
  | none => exact .none
  | some _ => exact .some .none

theorem alike_update {f : V → Option V} {f' : W → Option W}
    (h : ∀ v w, R v w → Option.Rel R (f v) (f' w)) : Alike R (update f) (update f') := by
  intro _ _ hrel
  cases hrel with
  | none => exact .none
  | @some v w hvw =>
      have hnext := h v w hvw
      show Option.Rel _ ((f v).map some) ((f' w).map some)
      generalize f v = x at hnext
      generalize f' w = y at hnext
      cases hnext with
      | none => exact .none
      | some hab => exact .some (.some hab)

/-- Both fail, or both succeed with related results. -/
inductive Sync {α β : Type*} (Q : α → β → Prop) : Except ε α → Except ε' β → Prop
  | error (e : ε) (e' : ε') : Sync Q (.error e) (.error e')
  | ok {a : α} {b : β} (h : Q a b) : Sync Q (.ok a) (.ok b)

/-- Runs of edits that are alike, whatever the order, end alike. -/
theorem Runs.sync {P : M → Prop} {Q : N → Prop} {get : M → K → Option V} {get' : N → K → Option W}
    {edits : List (K × Edit V)} {edits' : List (K × Edit W)} {g : K → Option V}
    {g' : K → Option W} {x : Except ε M} {y : Except ε' N} (hx : Runs P get edits g x)
    (hy : Runs Q get' edits' g' y) (hg : ∀ k, Option.Rel R (g k) (g' k))
    (hleft : ∀ e ∈ edits, ∃ e' ∈ edits', e'.1 = e.1 ∧ Alike R e.2 e'.2)
    (hright : ∀ e' ∈ edits', ∃ e ∈ edits, e.1 = e'.1 ∧ Alike R e.2 e'.2) :
    Sync (fun m n => P m ∧ Q n ∧ ∀ k, Option.Rel R (get m k) (get' n k)) x y := by
  cases x with
  | error e =>
      cases y with
      | error e' => exact .error e e'
      | ok n =>
          obtain ⟨⟨k, f⟩, hmem, hnone⟩ := hx
          obtain ⟨⟨k', f'⟩, hmem', hk, halike⟩ := hleft _ hmem
          cases hk
          have hrel := halike _ _ (hg k)
          rw [hnone, hy.2.done _ hmem'] at hrel
          cases hrel
  | ok m =>
      cases y with
      | error e' =>
          obtain ⟨⟨k, f⟩, hmem, hnone⟩ := hy
          obtain ⟨⟨k', f'⟩, hmem', hk, halike⟩ := hright _ hmem
          cases hk
          have hrel := halike _ _ (hg k)
          rw [hnone, hx.2.done _ hmem'] at hrel
          cases hrel
      | ok n =>
          obtain ⟨hm, hdone, hsame⟩ := hx
          obtain ⟨hn, hdone', hsame'⟩ := hy
          refine .ok ⟨hm, hn, fun k => ?_⟩
          by_cases hk : ∃ e ∈ edits, e.1 = k
          · obtain ⟨⟨k, f⟩, hmem, rfl⟩ := hk
            obtain ⟨⟨k', f'⟩, hmem', hk', halike⟩ := hleft _ hmem
            cases hk'
            have hrel := halike _ _ (hg k)
            rw [hdone _ hmem, hdone' _ hmem'] at hrel
            cases hrel with
            | some hrel => exact hrel
          · have hnone : ∀ e ∈ edits, e.1 ≠ k := fun e he hek => hk ⟨e, he, hek⟩
            have hnone' : ∀ e ∈ edits', e.1 ≠ k := fun e' he' hek => by
              obtain ⟨e, he, heq, -⟩ := hright e' he'
              exact hnone e he (heq.trans hek)
            rw [hsame k hnone, hsame' k hnone']
            exact hg k

namespace Sync

variable {α β γ δ : Type*} {Q : α → β → Prop} {Q' : γ → δ → Prop} {x : Except ε α} {y : Except ε' β}

/-- What each of the two yields, if anything. -/
theorem toOption (h : Sync Q x y) : Option.Rel Q x.toOption y.toOption := by
  cases h with
  | error _ _ => exact .none
  | ok h => exact .some h

theorem map {f : α → γ} {f' : β → δ} (h : Sync Q x y) (hf : ∀ a b, Q a b → Q' (f a) (f' b)) :
    Sync Q' (x.map f) (y.map f') := by
  cases h with
  | error e e' => exact .error e e'
  | ok h => exact .ok (hf _ _ h)

end Sync

end Edits
