import Mathlib.Data.List.Basic

/-!
Readers of a stream that arrives in pieces. A reader looks at what is buffered and waits,
takes one item off the front, or fails; where its verdict stands whatever follows, how the
stream was cut makes no difference to what comes out of it.
-/

/-- What a reader makes of what is buffered. -/
inductive Verdict (B I E : Type*)
  | wait
  | item (i : I) (rest : List B)
  | fail (e : E)

/-- A reader whose verdict, once given, stands. -/
structure Reader (B I E : Type*) where
  read : List B → Verdict B I E
  shorter {src : List B} {i : I} {rest : List B} :
    read src = .item i rest → rest.length < src.length
  item_append {src : List B} {i : I} {rest : List B} (more : List B) :
    read src = .item i rest → read (src ++ more) = .item i (rest ++ more)
  fail_append {src : List B} {e : E} (more : List B) :
    read src = .fail e → read (src ++ more) = .fail e

/-- The items that were taken, what is left, and the failure that ended it, if one did. -/
structure Drained (B I E : Type*) where
  items : List I
  rest : List B
  failure : Option E

namespace Drained

variable {B I E : Type*}

/-- Items that were taken before. -/
def after (items : List I) (d : Drained B I E) : Drained B I E :=
  { d with items := items ++ d.items }

@[simp] theorem after_nil (d : Drained B I E) : d.after [] = d := rfl

@[simp] theorem items_after (items : List I) (d : Drained B I E) :
    (d.after items).items = items ++ d.items := rfl

@[simp] theorem rest_after (items : List I) (d : Drained B I E) :
    (d.after items).rest = d.rest := rfl

@[simp] theorem failure_after (items : List I) (d : Drained B I E) :
    (d.after items).failure = d.failure := rfl

theorem after_after (xs ys : List I) (d : Drained B I E) :
    (d.after ys).after xs = d.after (xs ++ ys) := by
  simp [after]

/-- The same to everyone who never sees what a failure leaves buffered. -/
structure Like (d d' : Drained B I E) : Prop where
  items : d.items = d'.items
  failure : d.failure = d'.failure
  rest : d.failure = none → d.rest = d'.rest

theorem Like.after {d d' : Drained B I E} (h : Like d d') (items : List I) :
    Like (d.after items) (d'.after items) :=
  ⟨congrArg (items ++ ·) h.items, h.failure, h.rest⟩

/-- Where nothing failed there is nothing else to see. -/
theorem Like.eq {d d' : Drained B I E} (h : Like d d') (hnone : d.failure = none) : d = d' := by
  obtain ⟨items, rest, failure⟩ := d
  obtain ⟨items', rest', failure'⟩ := d'
  obtain ⟨hitems, hfailure, hrest⟩ := h
  congr 1
  exact hrest hnone

end Drained

namespace Reader

variable {B I E : Type*} (r : Reader B I E)

/-- Reads until it waits or fails. -/
def drain (src : List B) : Drained B I E :=
  match _h : r.read src with
  | .wait => ⟨[], src, none⟩
  | .fail e => ⟨[], src, some e⟩
  | .item i rest => (drain rest).after [i]
termination_by src.length
decreasing_by exact r.shorter _h

/-- Pieces as they arrive, each drained behind what the last one left. -/
def feed (buffer : List B) : List (List B) → Drained B I E
  | [] => ⟨[], buffer, none⟩
  | piece :: pieces =>
      let d := r.drain (buffer ++ piece)
      match d.failure with
      | some _ => d
      | none => (feed d.rest pieces).after d.items

variable {r} {src : List B}

theorem drain_wait (h : r.read src = .wait) : r.drain src = ⟨[], src, none⟩ := by
  rw [drain]
  split
  · rfl
  · rename_i h'
    rw [h] at h'
    cases h'
  · rename_i h'
    rw [h] at h'
    cases h'

theorem drain_fail {e : E} (h : r.read src = .fail e) : r.drain src = ⟨[], src, some e⟩ := by
  rw [drain]
  split
  · rename_i h'
    rw [h] at h'
    cases h'
  · rename_i h'
    rw [h] at h'
    cases h'
    rfl
  · rename_i h'
    rw [h] at h'
    cases h'

theorem drain_item {i : I} {rest : List B} (h : r.read src = .item i rest) :
    r.drain src = (r.drain rest).after [i] := by
  rw [drain]
  split
  · rename_i h'
    rw [h] at h'
    cases h'
  · rename_i h'
    rw [h] at h'
    cases h'
  · rename_i h'
    rw [h] at h'
    cases h'
    rfl

/-- One case for each verdict, and for an item what the rest is drained to. -/
theorem drain_induction {motive : List B → Drained B I E → Prop}
    (wait : ∀ src, r.read src = .wait → motive src ⟨[], src, none⟩)
    (fail : ∀ src e, r.read src = .fail e → motive src ⟨[], src, some e⟩)
    (item : ∀ src i rest, r.read src = .item i rest → motive rest (r.drain rest) →
      motive src ((r.drain rest).after [i])) (src : List B) : motive src (r.drain src) := by
  induction hn : src.length using Nat.strongRecOn generalizing src with
  | _ n ih =>
      cases h : r.read src with
      | wait =>
          rw [drain_wait h]
          exact wait src h
      | fail e =>
          rw [drain_fail h]
          exact fail src e h
      | item i rest =>
          rw [drain_item h]
          exact item src i rest h (ih rest.length (hn ▸ r.shorter h) rest rfl)

/-- What was left without a failure still waits. -/
theorem read_rest (h : (r.drain src).failure = none) : r.read (r.drain src).rest = .wait := by
  induction src using r.drain_induction with
  | wait src hwait => exact hwait
  | fail src e hfail => cases h
  | item src i rest hitem ih => exact ih h

/-- More of the stream, behind a failure. -/
theorem drain_append_of_failure {e : E} (h : (r.drain src).failure = some e) (more : List B) :
    r.drain (src ++ more) =
      ⟨(r.drain src).items, (r.drain src).rest ++ more, (r.drain src).failure⟩ := by
  revert h
  refine drain_induction (motive := fun src d => d.failure = some e → r.drain (src ++ more) =
    ⟨d.items, d.rest ++ more, d.failure⟩) ?_ ?_ ?_ src
  · intro src hwait h
    cases h
  · intro src e hfail h
    exact drain_fail (r.fail_append more hfail)
  · intro src i rest hitem ih h
    rw [drain_item (r.item_append more hitem), ih h]
    rfl

/-- More of the stream, where nothing failed yet. -/
theorem drain_append (h : (r.drain src).failure = none) (more : List B) :
    r.drain (src ++ more) =
      (r.drain ((r.drain src).rest ++ more)).after (r.drain src).items := by
  revert h
  refine drain_induction (motive := fun src d => d.failure = none → r.drain (src ++ more) =
    (r.drain (d.rest ++ more)).after d.items) ?_ ?_ ?_ src
  · intro src hwait h
    rfl
  · intro src e hfail h
    cases h
  · intro src i rest hitem ih h
    rw [drain_item (r.item_append more hitem), ih h, Drained.after_after]
    rfl

/-- Codes that read back whatever follows them, one behind the other. -/
theorem drain_flatten {α : Type*} {code : α → List B} {item : α → I} (hwait : r.read [] = .wait)
    {xs : List α} (hcode : ∀ x ∈ xs, ∀ more, r.read (code x ++ more) = .item (item x) more) :
    r.drain (xs.map code).flatten = ⟨xs.map item, [], none⟩ := by
  induction xs with
  | nil => exact drain_wait hwait
  | cons x xs ih =>
      obtain ⟨hx, hxs⟩ := List.forall_mem_cons.mp hcode
      rw [List.map_cons, List.flatten_cons, drain_item (hx _), ih hxs]
      rfl

/-- The front of a stream that nothing fails in. -/
theorem drain_of_prefix {front : List B} (hfront : front <+: src)
    (h : (r.drain src).failure = none) :
    (r.drain front).failure = none ∧ (r.drain front).items <+: (r.drain src).items := by
  obtain ⟨more, rfl⟩ := hfront
  cases hfailure : (r.drain front).failure with
  | some e =>
      rw [drain_append_of_failure hfailure, hfailure] at h
      cases h
  | none =>
      rw [drain_append hfailure]
      exact ⟨rfl, List.prefix_append _ _⟩

/-- However the stream is cut, feeding the pieces is draining it whole. -/
theorem feed_like {buffer : List B} (hbuffer : r.read buffer = .wait) (pieces : List (List B)) :
    (r.feed buffer pieces).Like (r.drain (buffer ++ pieces.flatten)) := by
  induction pieces generalizing buffer with
  | nil =>
      rw [List.flatten_nil, List.append_nil, drain_wait hbuffer]
      exact ⟨rfl, rfl, fun _ => rfl⟩
  | cons piece pieces ih =>
      rw [feed, List.flatten_cons, ← List.append_assoc]
      cases h : (r.drain (buffer ++ piece)).failure with
      | some e =>
          rw [drain_append_of_failure h]
          refine ⟨rfl, rfl, fun hnone => ?_⟩
          rw [h] at hnone
          cases hnone
      | none =>
          rw [drain_append h]
          exact (ih (read_rest h)).after _

end Reader
