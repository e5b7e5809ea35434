import Lug.Cavlc.Balanced

/-!
`AvlMap` as its callers see it: every map that insertions and removals build from the
empty one is a finite map, read by `get` and by the iterator alike.
-/

namespace Lug.Cavlc

open SortedMap

variable {K V : Type}

/-! ### The iterator -/

/-- `Node`, as the stack of the iterator holds it. -/
structure Node (K V : Type) where
  entry : K × V
  left : Link K V
  right : Link K V
  height : ℕ
  size : ℕ

namespace Iter

/-- `push_left`. -/
def pushLeft (stack : List (Node K V)) : Link K V → List (Node K V)
  | .none => stack
  | .some entry left right height size =>
      pushLeft (⟨entry, left, right, height, size⟩ :: stack) left

/-- `next`, with the stack it leaves behind. -/
def next : List (Node K V) → Option ((K × V) × List (Node K V))
  | [] => none
  | n :: stack => some (n.entry, pushLeft stack n.right)

/-- The entries the iterator yields before it ends. -/
inductive Yields : List (Node K V) → List (K × V) → Prop
  | done {stack : List (Node K V)} (h : next stack = none) : Yields stack []
  | step {stack stack' : List (Node K V)} {e : K × V} {es : List (K × V)}
      (h : next stack = some (e, stack')) (rest : Yields stack' es) : Yields stack (e :: es)

/-- What a stack still has to yield. -/
def pending (stack : List (Node K V)) : List (K × V) :=
  stack.flatMap fun n => n.entry :: n.right.toList

theorem pending_pushLeft (stack : List (Node K V)) (t : Link K V) :
    pending (pushLeft stack t) = t.toList ++ pending stack := by
  induction t generalizing stack with
  | none => rfl
  | some e l r height size ihl ihr =>
      rw [pushLeft, ihl]
      simp [pending]

theorem yields_pending (stack : List (Node K V)) : Yields stack (pending stack) := by
  generalize hes : pending stack = es
  induction es generalizing stack with
  | nil =>
      cases stack with
      | nil => exact .done rfl
      | cons n stack => simp [pending] at hes
  | cons e es ih =>
      cases stack with
      | nil => cases hes
      | cons n stack =>
          have hsplit : n.entry = e ∧ n.right.toList ++ pending stack = es := by
            simpa [pending] using hes
          obtain ⟨rfl, hrest⟩ := hsplit
          exact .step rfl (ih _ (by rw [pending_pushLeft, hrest]))

/-- The iterator has one way to go on. -/
theorem Yields.det {stack : List (Node K V)} {es es' : List (K × V)} (h : Yields stack es)
    (h' : Yields stack es') : es = es' := by
  induction h generalizing es' with
  | done hnext =>
      cases h' with
      | done => rfl
      | step hnext' => rw [hnext] at hnext'; cases hnext'
  | step hnext _ ih =>
      cases h' with
      | done hnext' => rw [hnext] at hnext'; cases hnext'
      | step hnext' hrest' =>
          rw [hnext] at hnext'
          cases hnext'
          rw [ih hrest']

end Iter

namespace Link

/-- `iter`. -/
def iter (t : Link K V) : List (Node K V) := Iter.pushLeft [] t

theorem yields_iter (t : Link K V) : Iter.Yields t.iter t.toList := by
  have hyields := Iter.yields_pending t.iter
  rwa [iter, Iter.pending_pushLeft, show Iter.pending ([] : List (Node K V)) = [] from rfl,
    List.append_nil] at hyields

/-! ### What the caches ought to hold -/

/-- The height of the tree, not of its cache. -/
def depth : Link K V → ℕ
  | .none => 0
  | .some _ left right _ _ => 1 + max left.depth right.depth

/-- Every node caches the height and the size of its tree. -/
def Exact : Link K V → Prop
  | .none => True
  | .some e left right height size =>
      left.Exact ∧ right.Exact ∧ height = (Link.some e left right height size).depth ∧
        size = (Link.some e left right height size).toList.length

theorem Cached.height_eq {t : Link K V} (h : t.Cached) : t.height = t.depth := by
  induction t with
  | none => rfl
  | some e l r height size ihl ihr =>
      obtain ⟨hl, hr, hheight, -⟩ := h
      rw [Link.height, hheight, ihl hl, ihr hr, depth]

theorem Cached.exact {t : Link K V} (h : t.Cached) : t.Exact := by
  induction t with
  | none => trivial
  | some e l r height size ihl ihr => exact ⟨ihl h.1, ihr h.2.1, h.height_eq, h.size_eq⟩

/-- A balanced tree is not higher than its size allows. -/
theorem Sound.fib_le {t : Link K V} (h : t.Sound) : Nat.fib (t.height + 2) ≤ t.size + 1 := by
  induction t with
  | none => exact le_rfl
  | some e l r height size ihl ihr =>
      obtain ⟨hheight, hle, hge⟩ := h.heights
      have hsize : (Link.some e l r height size).size = 1 + l.size + r.size := h.cached.2.2.2
      have hl := ihl h.left
      have hr := ihr h.right
      have hlow : ∀ {a b : ℕ}, a ≤ b → Nat.fib a ≤ Nat.fib b := fun hab => Nat.fib_mono hab
      rw [hheight, hsize]
      rcases le_total r.height l.height with hmax | hmax
      · rw [max_eq_left hmax, show 1 + l.height + 2 = (l.height + 1) + 2 by omega, Nat.fib_add_two]
        have hother : Nat.fib (l.height + 1) ≤ Nat.fib (r.height + 2) := hlow (by omega)
        have hsame : Nat.fib (l.height + 1 + 1) ≤ l.size + 1 := hl
        omega
      · rw [max_eq_right hmax, show 1 + r.height + 2 = (r.height + 1) + 2 by omega,
          Nat.fib_add_two]
        have hother : Nat.fib (r.height + 1) ≤ Nat.fib (l.height + 2) := hlow (by omega)
        have hsame : Nat.fib (r.height + 1 + 1) ≤ r.size + 1 := hr
        omega

variable [LinearOrder K]

/-- Keys to the left of a node are below its own, keys to the right above. -/
def Search : Link K V → Prop
  | .none => True
  | .some e left right _ _ =>
      left.Search ∧ right.Search ∧ (∀ x ∈ left.toList, x.1 < e.1) ∧ ∀ x ∈ right.toList, e.1 < x.1

theorem search_iff_sorted (t : Link K V) : t.Search ↔ Sorted t.toList := by
  induction t with
  | none => simp [Search]
  | some e l r height size ihl ihr => rw [Search, toList_some, sorted_middle, ihl, ihr]

end Link

/-! ### Maps and the finite maps they stand for -/

variable [LinearOrder K]

/-- A map that insertions and removals build from the empty one, in any order and each on
any map built before, and the finite map the same operations build. -/
inductive Built : Link K V → (K → Option V) → Prop
  | new : Built .none fun _ => none
  | insert {t : Link K V} {m : K → Option V} (h : Built t m) (key : K) (value : V) :
      Built (t.insert (key, value)) (Function.update m key (some value))
  | remove {t : Link K V} {m : K → Option V} (h : Built t m) (key : K) :
      Built (t.remove key).1 (Function.update m key none)

/-- The tree is a sound AVL tree that stands for the finite map. -/
structure Stands (t : Link K V) (m : K → Option V) : Prop where
  sound : t.Sound
  sorted : Sorted t.toList
  lookup : ∀ k, t.toList.lookup k = m k

namespace Stands

variable {t : Link K V} {m : K → Option V}

theorem insert (h : Stands t m) (key : K) (value : V) :
    Stands (t.insert (key, value)) (Function.update m key (some value)) := by
  have hlist := Link.toList_insert (key, value) t h.sorted
  refine ⟨(Link.insert_sound (key, value) h.sound).2.1, ?_, fun k => ?_⟩
  · rw [hlist]
    exact sorted_insert h.sorted
  · rw [hlist, Function.update_apply]
    split_ifs with hk
    · rw [hk, lookup_insert_self]
    · rw [lookup_insert_of_ne hk, h.lookup]

theorem remove (h : Stands t m) (key : K) :
    Stands (t.remove key).1 (Function.update m key none) := by
  have hlist := Link.toList_remove key t h.sorted
  refine ⟨(Link.remove_sound key h.sound).sound, ?_, fun k => ?_⟩
  · rw [hlist]
    exact sorted_erase h.sorted
  · rw [hlist, Function.update_apply, lookup_erase, h.lookup]

theorem mem_iff (h : Stands t m) (k : K) (v : V) : (k, v) ∈ t.toList ↔ m k = some v := by
  rw [← h.lookup k]
  exact ⟨lookup_of_mem h.sorted, mem_of_lookup⟩

/-- As many entries as keys the finite map knows. -/
theorem length_eq (h : Stands t m) : t.toList.length = {k | m k ≠ none}.ncard := by
  have hnodup : (t.toList.map Prod.fst).Nodup := h.sorted.imp fun hlt => hlt.ne
  have hkeys : {k | m k ≠ none} = ((t.toList.map Prod.fst).toFinset : Set K) := by
    ext k
    simp only [Set.mem_ofPred_eq, List.coe_toFinset, List.mem_map, ← h.lookup k, ne_eq,
      lookup_eq_none_iff, not_forall, not_not, exists_prop]
  rw [hkeys, Set.ncard_coe_finset, List.toFinset_card_of_nodup hnodup, List.length_map]

end Stands

theorem Built.stands {t : Link K V} {m : K → Option V} (h : Built t m) : Stands t m := by
  induction h with
  | new => exact ⟨Link.sound_none, sorted_nil, fun _ => rfl⟩
  | insert _ key value ih => exact ih.insert key value
  | remove _ key ih => exact ih.remove key

/-- Everything a map promises: the shape of its tree, no panic in the next operation, and
the same answers as the finite map. -/
structure Correct (t : Link K V) (m : K → Option V) : Prop where
  search : t.Search
  balanced : t.Balanced
  exact : t.Exact
  insertChecked : ∀ entry, t.insertChecked entry = some (t.insert entry)
  removeChecked : ∀ key, t.removeChecked key = some (t.remove key)
  get : ∀ key, t.get key = m key
  iter : ∃ es, Iter.Yields t.iter es ∧ es.Pairwise (·.1 < ·.1) ∧
    ∀ key value, (key, value) ∈ es ↔ m key = some value
  len : t.size = {key | m key ≠ none}.ncard
  absent : ∀ key, m key = none → t.remove key = (t, false)
  fib : Nat.fib (t.height + 2) - 1 ≤ t.size

/-- Every map that can be built is correct. -/
theorem Built.correct {t : Link K V} {m : K → Option V} (h : Built t m) : Correct t m := by
  have hstands := h.stands
  have hget : ∀ key, t.get key = m key := fun key => by
    rw [Link.get_eq_lookup key t hstands.sorted, hstands.lookup]
  exact
    { search := (Link.search_iff_sorted t).mpr hstands.sorted
      balanced := hstands.sound.balanced
      exact := hstands.sound.cached.exact
      insertChecked := fun entry => (Link.insert_sound entry hstands.sound).1
      removeChecked := fun key => (Link.remove_sound key hstands.sound).checked
      get := hget
      iter := ⟨t.toList, t.yields_iter, List.pairwise_map.mp hstands.sorted, hstands.mem_iff⟩
      len := hstands.sound.cached.size_eq.trans hstands.length_eq
      absent := fun key hkey => by
        have hfound : (t.remove key).2 = false := by
          rw [Link.remove_found, hget, hkey]
          rfl
        exact Prod.ext (Link.remove_of_not_found hfound) hfound
      fib := Nat.sub_le_of_le_add hstands.sound.fib_le }

/-- Three ascending keys, the first of which is removed again. -/
theorem built_ascending : Correct
    (((((Link.none : Link ℕ String).insert (1, "a")).insert (2, "b")).insert (3, "c")).remove 1).1
    (Function.update (Function.update (Function.update (Function.update (fun _ => none)
      1 (some "a")) 2 (some "b")) 3 (some "c")) 1 none) :=
  ((((Built.new.insert 1 "a").insert 2 "b").insert 3 "c").remove 1).correct

end Lug.Cavlc
