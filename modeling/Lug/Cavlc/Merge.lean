import Lug.Cavlc.Keys
import Lug.Cavlc.Store
import Mathlib.Data.List.Sort

/-!
`Patch::merge`: two patches in one. It fails where both have an operation on one key, and
where it does not the order of the two makes no difference.
-/

namespace Lug.Cavlc

open SortedMap

namespace Patch

variable {α : Type}

def create : Patch α → List (String × α)
  | .mk create _ _ => create

def update : Patch α → List (String × Update α)
  | .mk _ update _ => update

def delete : Patch α → List String
  | .mk _ _ delete => delete

/-- `Default`. -/
def empty : Patch α := .mk [] [] []

def isEmpty (p : Patch α) : Bool := p.create.isEmpty && p.update.isEmpty && p.delete.isEmpty

/-- `BTreeMap::extend`. -/
def extend {V : Type} (xs ys : List (String × V)) : List (String × V) :=
  ys.foldl (fun m e => SortedMap.insert e.1 e.2 m) xs

/-- `sort`, on keys. -/
def sortKeys (keys : List String) : List String := keys.mergeSort fun a b => decide (a ≤ b)

/-- What both have, before the keys they share are looked at. -/
def joined (self other : Patch α) : Patch α :=
  .mk (extend self.create other.create) (extend self.update other.update)
    (sortKeys (self.delete ++ other.delete))

def setUpdate (p : Patch α) (key : String) (u : Update α) : Patch α :=
  .mk p.create (SortedMap.insert key u p.update) p.delete

/-- The loop of `merge_at` over the keys of the other patch. `keys` are those of the first
one, and `nested` says for each update of the other one what its merge with that of the first
one comes to, if both are patches. -/
def mergeKeys (path keys : List String)
    (nested : List (String × Option (Except Error (Patch α)))) :
    List String → Patch α → Except Error (Patch α)
  | [], merged => .ok merged
  | key :: rest, merged =>
      if key ∉ keys then mergeKeys path keys nested rest merged
      else
        match (nested.lookup key).join with
        | none => .error (.mergeConflict (path ++ [key]))
        | some result => do
            let patch ← result
            mergeKeys path keys nested rest (merged.setUpdate key (.object patch))

mutual

/-- `merge_at`. -/
def mergeAt (path : List String) (self : Patch α) : Patch α → Except Error (Patch α)
  | .mk create update delete =>
      let other := Patch.mk create update delete
      if self.isEmpty then .ok other
      else if other.isEmpty then .ok self
      else mergeKeys path self.keys (mergeUpdates path self.update update) other.keys
        (self.joined other)

def mergeUpdates (path : List String) (updates : List (String × Update α)) :
    List (String × Update α) → List (String × Option (Except Error (Patch α)))
  | [] => []
  | (key, u) :: rest =>
      (key, mergeUpdate (path ++ [key]) (updates.lookup key) u) ::
        mergeUpdates path updates rest

def mergeUpdate (path : List String) (o : Option (Update α)) :
    Update α → Option (Except Error (Patch α))
  | .object b =>
      match o with
      | some (.object a) => some (mergeAt path a b)
      | _ => none
  | .value _ => none

end

/-- `merge`. -/
def merge (isObject : α → Bool) (self other : Patch α) : Except Error (Patch α) := do
  self.validate isObject
  other.validate isObject
  self.mergeAt [] other

/-! ### Patches of the Rust type -/

/-- What holds of a patch once it holds of the patches within holds of every patch. -/
@[elab_as_elim]
theorem nested_induction {motive : Patch α → Prop}
    (step : ∀ p, (∀ key q, p.update.lookup key = some (.object q) → motive q) → motive p)
    (p : Patch α) : motive p := by
  have hall : ∀ u : Update α, ∀ q, u = .object q → motive q := by
    intro u
    induction u using Update.induction with
    | value child =>
        intro q hq
        cases hq
    | object create update delete ih =>
        intro q hq
        cases hq
        exact step _ fun key q hlookup => ih _ (mem_of_lookup hlookup) q rfl
  exact hall (.object p) p rfl

theorem orderedUpdates_iff {update : List (String × Update α)} :
    OrderedUpdates update ↔ ∀ e ∈ update, OrderedUpdate e.2 := by
  induction update with
  | nil => exact ⟨fun _ => by simp, fun _ => trivial⟩
  | cons e rest ih => rw [OrderedUpdates, List.forall_mem_cons, ih]

/-- A value of the Rust type that passes `validate`. -/
structure Proper (isObject : α → Bool) (p : Patch α) : Prop where
  ordered : p.Ordered
  valid : p.validate isObject = .ok ()

variable {isObject : α → Bool} {p q : Patch α} {key : String}

theorem proper_iff : Proper isObject p ↔ Sorted p.create ∧ Sorted p.update ∧ p.keys.Nodup ∧
    ∀ e ∈ p.update, OrderedUpdate e.2 ∧ validateUpdate isObject e.1 e.2 = .ok () := by
  obtain ⟨create, update, delete⟩ := p
  constructor
  · rintro ⟨⟨hcreate, hupdate, hordered⟩, hvalid⟩
    obtain ⟨hnodup, hvalid⟩ := validate_ok.mp hvalid
    exact ⟨hcreate, hupdate, hnodup, fun e he =>
      ⟨orderedUpdates_iff.mp hordered e he, validateUpdates_ok.mp hvalid e he⟩⟩
  · rintro ⟨hcreate, hupdate, hnodup, hall⟩
    exact ⟨⟨hcreate, hupdate, orderedUpdates_iff.mpr fun e he => (hall e he).1⟩,
      validate_ok.mpr ⟨hnodup, validateUpdates_ok.mpr fun e he => (hall e he).2⟩⟩

namespace Proper

variable (h : Proper isObject p)

include h

theorem nodup : p.keys.Nodup := (proper_iff.mp h).2.2.1

theorem create_sorted : Sorted p.create := (proper_iff.mp h).1

theorem update_sorted : Sorted p.update := (proper_iff.mp h).2.1

theorem op_create {v : α} : p.op key = some (.create v) ↔ p.create.lookup key = some v := by
  obtain ⟨create, update, delete⟩ := p
  exact Patch.op_create

theorem op_update {u : Update α} : p.op key = some (.update u) ↔ p.update.lookup key = some u := by
  obtain ⟨create, update, delete⟩ := p
  exact Patch.op_update h.nodup

theorem op_delete : p.op key = some .delete ↔ key ∈ p.delete := by
  obtain ⟨create, update, delete⟩ := p
  exact Patch.op_delete h.nodup

theorem delete_nodup : p.delete.Nodup := by
  have hnodup := h.nodup
  obtain ⟨create, update, delete⟩ := p
  rw [keys, List.nodup_append] at hnodup
  exact hnodup.2.1

theorem update_ok {u : Update α} (hu : p.update.lookup key = some u) :
    OrderedUpdate u ∧ validateUpdate isObject key u = .ok () :=
  (proper_iff.mp h).2.2.2 _ (mem_of_lookup hu)

theorem nested (hq : p.update.lookup key = some (.object q)) : Proper isObject q :=
  ⟨(h.update_ok hq).1, (h.update_ok hq).2⟩

end Proper

theorem op_eq_none : p.op key = none ↔ key ∉ p.keys := by
  obtain ⟨create, update, delete⟩ := p
  exact op_none

theorem isEmpty_iff : p.isEmpty = true ↔ p.keys = [] := by
  obtain ⟨create, update, delete⟩ := p
  rw [isEmpty, keys, Bool.and_eq_true, Bool.and_eq_true, List.isEmpty_iff, List.isEmpty_iff,
    List.isEmpty_iff, List.append_eq_nil_iff, List.append_eq_nil_iff, List.map_eq_nil_iff,
    List.map_eq_nil_iff]
  exact Iff.rfl

theorem isEmpty_iff_op : p.isEmpty = true ↔ ∀ key, p.op key = none := by
  rw [isEmpty_iff, List.eq_nil_iff_forall_not_mem]
  exact forall_congr' fun key => op_eq_none.symm

/-- A patch is what it does to each key, and the order it deletes in. -/
theorem ext_op (hp : Proper isObject p) (hq : Proper isObject q) (hdelete : p.delete = q.delete)
    (hop : ∀ key, p.op key = q.op key) : p = q := by
  have hcreate : p.create = q.create := by
    refine hp.create_sorted.ext hq.create_sorted fun key => Option.ext fun v => ?_
    rw [← hp.op_create, ← hq.op_create, hop]
  have hupdate : p.update = q.update := by
    refine hp.update_sorted.ext hq.update_sorted fun key => Option.ext fun u => ?_
    rw [← hp.op_update, ← hq.op_update, hop]
  obtain ⟨create, update, delete⟩ := p
  obtain ⟨create', update', delete'⟩ := q
  cases hcreate
  cases hupdate
  cases hdelete
  rfl

/-! ### What a merge comes to -/

section Loop

variable {path keys : List String} {nested : List (String × Option (Except Error (Patch α)))}
  {order : List String} {merged m : Patch α}

theorem mergeKeys_cons (hkey : key ∈ keys) :
    mergeKeys path keys nested (key :: order) merged =
      (match (nested.lookup key).join with
      | none => .error (.mergeConflict (path ++ [key]))
      | some result => result >>= fun patch =>
          mergeKeys path keys nested order (merged.setUpdate key (.object patch))) :=
  if_neg (not_not.mpr hkey)

/-- The loop takes the merges of the keys both have. -/
theorem mergeKeys_ok (hsorted : Sorted merged.update)
    (h : mergeKeys path keys nested order merged = .ok m) :
    m.create = merged.create ∧ m.delete = merged.delete ∧ Sorted m.update ∧
      (∀ key ∈ order, key ∈ keys → ∃ q, (nested.lookup key).join = some (.ok q) ∧
        m.update.lookup key = some (.object q)) ∧
      ∀ key, ¬ (key ∈ order ∧ key ∈ keys) → m.update.lookup key = merged.update.lookup key := by
  induction order generalizing merged with
  | nil =>
      cases h
      exact ⟨rfl, rfl, hsorted, by simp, fun _ _ => rfl⟩
  | cons key order ih =>
      by_cases hkey : key ∈ keys
      · rw [mergeKeys_cons hkey] at h
        cases hnested : (nested.lookup key).join with
        | none =>
            rw [hnested] at h
            cases h
        | some result =>
            rw [hnested] at h
            obtain ⟨q, rfl, h⟩ := Except.bind_eq_ok.mp h
            have hset : Sorted (merged.setUpdate key (.object q)).update := sorted_insert hsorted
            obtain ⟨hcreate, hdelete, hm, hin, hout⟩ := ih hset h
            refine ⟨hcreate, hdelete, hm, fun k hk hkeys => ?_, fun k hk => ?_⟩
            · by_cases hrest : k ∈ order
              · exact hin k hrest hkeys
              · obtain rfl : k = key := (List.mem_cons.mp hk).resolve_right hrest
                refine ⟨q, hnested, ?_⟩
                rw [hout k fun hboth => hrest hboth.1]
                exact lookup_insert_self
            · have hne : k ≠ key := fun heq => hk ⟨heq ▸ List.mem_cons_self, heq ▸ hkey⟩
              rw [hout k fun hboth => hk ⟨List.mem_cons_of_mem _ hboth.1, hboth.2⟩]
              exact lookup_insert_of_ne hne
      · rw [mergeKeys, if_pos hkey] at h
        obtain ⟨hcreate, hdelete, hm, hin, hout⟩ := ih hsorted h
        refine ⟨hcreate, hdelete, hm, fun k hk hkeys => ?_, fun k hk => ?_⟩
        · cases hk with
          | head => exact absurd hkeys hkey
          | tail _ hk => exact hin k hk hkeys
        · exact hout k fun hboth => hk ⟨List.mem_cons_of_mem _ hboth.1, hboth.2⟩

/-- The loop fails at a key that is not an update of an object in both, or where their merge
fails. -/
theorem mergeKeys_error {e : Error} (h : mergeKeys path keys nested order merged = .error e) :
    ∃ key ∈ order, key ∈ keys ∧
      ((nested.lookup key).join = none ∧ e = .mergeConflict (path ++ [key]) ∨
        (nested.lookup key).join = some (.error e)) := by
  induction order generalizing merged with
  | nil => cases h
  | cons key order ih =>
      by_cases hkey : key ∈ keys
      · rw [mergeKeys_cons hkey] at h
        cases hnested : (nested.lookup key).join with
        | none =>
            rw [hnested] at h
            cases h
            exact ⟨key, List.mem_cons_self, hkey, .inl ⟨hnested, rfl⟩⟩
        | some result =>
            rw [hnested] at h
            cases result with
            | error e' =>
                cases h
                exact ⟨key, List.mem_cons_self, hkey, .inr hnested⟩
            | ok q =>
                obtain ⟨k, hk, hrest⟩ := ih h
                exact ⟨k, List.mem_cons_of_mem _ hk, hrest⟩
      · rw [mergeKeys, if_pos hkey] at h
        obtain ⟨k, hk, hrest⟩ := ih h
        exact ⟨k, List.mem_cons_of_mem _ hk, hrest⟩

end Loop

/-- The operations of both on one key, where `R` merges the patches within. -/
inductive JoinedOp (R : Patch α → Patch α → Patch α → Prop) :
    Option (Op α) → Option (Op α) → Option (Op α) → Prop
  | none : JoinedOp R none none none
  | left (o : Op α) : JoinedOp R (some o) none (some o)
  | right (o : Op α) : JoinedOp R none (some o) (some o)
  | both {a b m : Patch α} : R a b m → JoinedOp R (some (.update (.object a)))
      (some (.update (.object b))) (some (.update (.object m)))

variable {path : List String} {a b c m : Patch α}

theorem lookup_mergeUpdates (updates us : List (String × Update α)) :
    (mergeUpdates path updates us).lookup key =
      (us.lookup key).map fun u => mergeUpdate (path ++ [key]) (updates.lookup key) u := by
  induction us with
  | nil => rfl
  | cons e us ih =>
      obtain ⟨k, u⟩ := e
      rw [mergeUpdates, List.lookup_cons, List.lookup_cons]
      by_cases hk : key = k
      · rw [hk, beq_self_eq_true]
        rfl
      · rw [beq_eq_false_iff_ne.mpr hk]
        exact ih

/-- Where the merge of the patches under a key is asked for. -/
theorem mergeUpdates_some {result : Except Error (Patch α)} :
    ((mergeUpdates path a.update b.update).lookup key).join = some result ↔
      ∃ a' b', a.update.lookup key = some (.object a') ∧
        b.update.lookup key = some (.object b') ∧ result = mergeAt (path ++ [key]) a' b' := by
  rw [lookup_mergeUpdates]
  cases b.update.lookup key with
  | none => simp
  | some u =>
      cases u with
      | value child => simp [mergeUpdate]
      | object b' =>
          cases a.update.lookup key with
          | none => simp [mergeUpdate]
          | some u =>
              cases u with
              | value child => simp [mergeUpdate]
              | object a' => simp [mergeUpdate, eq_comm]

/-- What the merge of two patches that are not empty comes to. -/
structure Joined (isObject : α → Bool) (path : List String) (a b m : Patch α) : Prop where
  proper : Proper isObject m
  delete : m.delete = sortKeys (a.delete ++ b.delete)
  op : ∀ key, JoinedOp (fun a b m => mergeAt (path ++ [key]) a b = .ok m) (a.op key) (b.op key)
    (m.op key)

theorem mergeAt_eq (ha : a.isEmpty = false) (hb : b.isEmpty = false) :
    mergeAt path a b =
      mergeKeys path a.keys (mergeUpdates path a.update b.update) b.keys (a.joined b) := by
  obtain ⟨create, update, delete⟩ := b
  have hnot : ¬ (Patch.mk create update delete).isEmpty = true := by
    rw [hb]
    exact Bool.false_ne_true
  rw [mergeAt, ha]
  exact if_neg hnot

theorem mergeAt_empty_left (ha : a.isEmpty = true) : mergeAt path a b = .ok b := by
  obtain ⟨create, update, delete⟩ := b
  rw [mergeAt, ha]
  rfl

theorem mergeAt_empty_right (ha : a.isEmpty = false) (hb : b.isEmpty = true) :
    mergeAt path a b = .ok a := by
  obtain ⟨create, update, delete⟩ := b
  rw [mergeAt, ha]
  exact if_pos hb

/-! ### Parts -/

theorem mem_sortKeys {keys : List String} : key ∈ sortKeys keys ↔ key ∈ keys := List.mem_mergeSort

theorem sortKeys_perm (keys : List String) : (sortKeys keys).Perm keys := List.mergeSort_perm _ _

/-- Sorting forgets the order. -/
theorem sortKeys_congr {keys keys' : List String} (h : keys.Perm keys') :
    sortKeys keys = sortKeys keys' := by
  have hsorted : ∀ keys : List String, (sortKeys keys).Pairwise (· ≤ ·) := fun keys =>
    List.pairwise_mergeSort' (r := (· ≤ ·)) keys
  have hperm := ((sortKeys_perm keys).trans h).trans (sortKeys_perm keys').symm
  exact hperm.eq_of_pairwise (fun _ _ _ _ hab hba => le_antisymm hab hba) (hsorted keys)
    (hsorted keys')

theorem lookup_extend {V : Type} {xs ys : List (String × V)} (h : Sorted ys) :
    (extend xs ys).lookup key = (ys.lookup key).or (xs.lookup key) :=
  lookup_foldl (h.imp fun hlt => hlt.ne)

theorem sorted_extend {V : Type} {xs ys : List (String × V)} (h : Sorted xs) :
    Sorted (extend xs ys) := sorted_foldl h

theorem mem_keys : key ∈ p.keys ↔ p.op key ≠ none := by
  rw [ne_eq, op_eq_none, not_not]

/-- What a patch holds for a key. -/
structure Reads (p : Patch α) (key : String) (create : Option α) (update : Option (Update α))
    (delete : Prop) : Prop where
  create : p.create.lookup key = create
  update : p.update.lookup key = update
  delete : key ∈ p.delete ↔ delete

/-- An operation is all that a patch holds for its key. -/
def Holds (p : Patch α) (key : String) : Option (Op α) → Prop
  | none => Reads p key none none False
  | some (.create v) => Reads p key (some v) none False
  | some (.update u) => Reads p key none (some u) False
  | some .delete => Reads p key none none True

theorem Proper.holds (h : Proper isObject p) (key : String) : Holds p key (p.op key) := by
  have hcreate : ∀ v, p.op key = some (.create v) ↔ p.create.lookup key = some v := fun v =>
    h.op_create
  have hupdate : ∀ u, p.op key = some (.update u) ↔ p.update.lookup key = some u := fun u =>
    h.op_update
  have hdelete : p.op key = some .delete ↔ key ∈ p.delete := h.op_delete
  have hc : (∀ v, p.op key ≠ some (.create v)) → p.create.lookup key = none := fun hno =>
    Option.eq_none_iff_forall_ne_some.mpr fun v hv => hno v ((hcreate v).mpr hv)
  have hu : (∀ u, p.op key ≠ some (.update u)) → p.update.lookup key = none := fun hno =>
    Option.eq_none_iff_forall_ne_some.mpr fun u hu => hno u ((hupdate u).mpr hu)
  generalize p.op key = o at hc hu hcreate hupdate hdelete
  cases o with
  | none => exact ⟨hc (by simp), hu (by simp), by rw [← hdelete]; simp⟩
  | some o =>
      cases o with
      | create v => exact ⟨(hcreate v).mp rfl, hu (by simp), by rw [← hdelete]; simp⟩
      | update u => exact ⟨hc (by simp), (hupdate u).mp rfl, by rw [← hdelete]; simp⟩
      | delete => exact ⟨hc (by simp), hu (by simp), by rw [← hdelete]; simp⟩

theorem Holds.update_iff {o : Option (Op α)} (h : Holds p key o) {u : Update α} :
    p.update.lookup key = some u ↔ o = some (.update u) := by
  cases o with
  | none => simp [h.update]
  | some o =>
      cases o with
      | create v => simp [h.update]
      | update u => simp [h.update]
      | delete => simp [h.update]

/-- What is held for a key is the operation on it. -/
theorem Holds.op {o : Option (Op α)} (h : Holds p key o) : p.op key = o := by
  obtain ⟨create, update, delete⟩ := p
  cases o with
  | none =>
      obtain ⟨hc, hu, hd⟩ := h
      simp only [Patch.create, Patch.update, Patch.delete] at hc hu hd
      rw [Patch.op, hc, hu]
      exact if_neg (by rw [hd]; exact not_false)
  | some o =>
      cases o with
      | create v => exact op_create.mpr h.create
      | update u =>
          obtain ⟨hc, hu, -⟩ := h
          simp only [Patch.create, Patch.update] at hc hu
          rw [Patch.op, hc, hu]
      | delete =>
          obtain ⟨hc, hu, hd⟩ := h
          simp only [Patch.create, Patch.update, Patch.delete] at hc hu hd
          rw [Patch.op, hc, hu]
          exact if_pos (by rw [hd]; trivial)

theorem Holds.apart {o : Option (Op α)} (h : Holds p key o) :
    (key ∈ p.create.map Prod.fst → key ∉ p.update.map Prod.fst ∧ key ∉ p.delete) ∧
      (key ∈ p.update.map Prod.fst → key ∉ p.delete) := by
  rw [← lookup_isSome, ← lookup_isSome]
  cases o with
  | none => simp [h.create, h.update]
  | some o =>
      cases o with
      | create v => simp [h.update, h.delete]
      | update u => simp [h.create, h.delete]
      | delete => simp [h.create, h.update]

theorem Holds.congr {o : Option (Op α)} (h : Holds p key o)
    (hcreate : q.create.lookup key = p.create.lookup key)
    (hupdate : q.update.lookup key = p.update.lookup key)
    (hdelete : key ∈ q.delete ↔ key ∈ p.delete) : Holds q key o := by
  have hreads : ∀ {c u d}, Reads p key c u d → Reads q key c u d := fun hp =>
    ⟨hcreate.trans hp.create, hupdate.trans hp.update, hdelete.trans hp.delete⟩
  cases o with
  | none => exact hreads h
  | some o =>
      cases o with
      | create v => exact hreads h
      | update u => exact hreads h
      | delete => exact hreads h

/-- A patch that holds one operation for a key at most has no key twice. -/
theorem nodup_of_holds (hcreate : Sorted p.create) (hupdate : Sorted p.update)
    (hdelete : p.delete.Nodup) (h : ∀ key, ∃ o, Holds p key o) : p.keys.Nodup := by
  have hnodup : ∀ {V : Type} {xs : List (String × V)}, Sorted xs → (xs.map Prod.fst).Nodup :=
    fun hsorted => hsorted.imp fun hlt => hlt.ne
  obtain ⟨create, update, delete⟩ := p
  rw [keys, List.append_assoc, List.nodup_append, List.nodup_append]
  refine ⟨hnodup hcreate, ⟨hnodup hupdate, hdelete, ?_⟩, ?_⟩
  · rintro key hleft _ hright rfl
    obtain ⟨o, ho⟩ := h key
    exact ho.apart.2 hleft hright
  · rintro key hleft _ hright rfl
    obtain ⟨o, ho⟩ := h key
    obtain ⟨hnot, hnot'⟩ := ho.apart.1 hleft
    exact (List.mem_append.mp hright).elim hnot hnot'

/-! ### The merge, key by key -/

/-- What the loop and the union behind it leave for a key. -/
theorem holds_mergeAt (hp : Proper isObject a) (hq : Proper isObject b)
    (ha : a.isEmpty = false) (hb : b.isEmpty = false) (h : mergeAt path a b = .ok m) :
    Sorted m.create ∧ Sorted m.update ∧ m.delete = sortKeys (a.delete ++ b.delete) ∧
      ∀ key, ∃ o, Holds m key o ∧
        JoinedOp (fun a b m => mergeAt (path ++ [key]) a b = .ok m) (a.op key) (b.op key) o := by
  rw [mergeAt_eq ha hb] at h
  have hsorted : Sorted (a.joined b).update := sorted_extend hp.update_sorted
  obtain ⟨hcreate, hdelete, hm, hin, hout⟩ := mergeKeys_ok hsorted h
  refine ⟨?_, hm, hdelete, fun key => ?_⟩
  · rw [hcreate]
    exact sorted_extend hp.create_sorted
  have hc : m.create.lookup key = (b.create.lookup key).or (a.create.lookup key) := by
    rw [hcreate]
    exact lookup_extend hq.create_sorted
  have hd : key ∈ m.delete ↔ key ∈ a.delete ∨ key ∈ b.delete := by
    rw [hdelete, ← List.mem_append]
    exact mem_sortKeys
  have hu : ¬ (key ∈ b.keys ∧ key ∈ a.keys) →
      m.update.lookup key = (b.update.lookup key).or (a.update.lookup key) := fun hnot => by
    rw [hout key hnot]
    exact lookup_extend hq.update_sorted
  have hleft := hp.holds key
  have hright := hq.holds key
  cases hoa : a.op key with
  | none =>
      rw [hoa] at hleft
      have hnot : ¬ (key ∈ b.keys ∧ key ∈ a.keys) := fun hboth => op_eq_none.mp hoa hboth.2
      refine ⟨b.op key, hright.congr ?_ ?_ ?_, ?_⟩
      · rw [hc, hleft.create, Option.or_none]
      · rw [hu hnot, hleft.update, Option.or_none]
      · rw [hd, hleft.delete, false_or]
      · cases b.op key with
        | none => exact .none
        | some o => exact .right o
  | some oa =>
      cases hob : b.op key with
      | none =>
          rw [hob] at hright
          have hnot : ¬ (key ∈ b.keys ∧ key ∈ a.keys) := fun hboth => op_eq_none.mp hob hboth.1
          refine ⟨some oa, (hoa ▸ hleft).congr ?_ ?_ ?_, .left oa⟩
          · rw [hc, hright.create, Option.none_or]
          · rw [hu hnot, hright.update, Option.none_or]
          · rw [hd, hright.delete, or_false]
      | some ob =>
          have hina : key ∈ a.keys := mem_keys.mpr (by rw [hoa]; exact nofun)
          have hinb : key ∈ b.keys := mem_keys.mpr (by rw [hob]; exact nofun)
          obtain ⟨q, hjoin, hupdate⟩ := hin key hinb hina
          obtain ⟨a', b', ha', hb', hmerge⟩ := mergeUpdates_some.mp hjoin
          have hopa := hp.op_update.mpr ha'
          have hopb := hq.op_update.mpr hb'
          rw [hopa] at hleft
          rw [hopb] at hright
          rw [← hoa, ← hob, hopa, hopb]
          refine ⟨some (.update (.object q)), ⟨?_, hupdate, ?_⟩, .both hmerge.symm⟩
          · rw [hc, hleft.create, hright.create]
            rfl
          · rw [hd, hleft.delete, hright.delete, or_false]

/-- What the merges of the patches within have to be for the merge to be a patch again. -/
theorem joined_of_nested (hp : Proper isObject a) (hq : Proper isObject b)
    (ha : a.isEmpty = false) (hb : b.isEmpty = false) (h : mergeAt path a b = .ok m)
    (hnested : ∀ key a' b' m', b.update.lookup key = some (.object b') → Proper isObject a' →
      mergeAt (path ++ [key]) a' b' = .ok m' → Proper isObject m') :
    Joined isObject path a b m := by
  obtain ⟨hcreate, hupdate, hdelete, hall⟩ := holds_mergeAt hp hq ha hb h
  have hop : ∀ key, JoinedOp (fun a b m => mergeAt (path ++ [key]) a b = .ok m) (a.op key)
      (b.op key) (m.op key) := fun key => by
    obtain ⟨o, ho, hjoined⟩ := hall key
    rw [ho.op]
    exact hjoined
  have hnodup : (a.delete ++ b.delete).Nodup := by
    rw [List.nodup_append]
    refine ⟨hp.delete_nodup, hq.delete_nodup, ?_⟩
    rintro key hleft _ hright rfl
    obtain ⟨o, -, hjoined⟩ := hall key
    rw [hp.op_delete.mpr hleft, hq.op_delete.mpr hright] at hjoined
    cases hjoined
  refine ⟨proper_iff.mpr ⟨hcreate, hupdate, ?_, fun e he => ?_⟩, hdelete, hop⟩
  · refine nodup_of_holds hcreate hupdate ?_ fun key => (hall key).imp fun o ho => ho.1
    rw [hdelete]
    exact (sortKeys_perm _).nodup_iff.mpr hnodup
  · obtain ⟨key, u⟩ := e
    have hlookup : m.update.lookup key = some u := lookup_of_mem hupdate he
    obtain ⟨o, ho, hjoined⟩ := hall key
    generalize hoa : a.op key = oa at hjoined
    generalize hob : b.op key = ob at hjoined
    have hop' := ho.update_iff.mp hlookup
    cases hjoined with
    | none => cases hop'
    | left o =>
        cases hop'
        exact hp.update_ok (hp.op_update.mp hoa)
    | right o =>
        cases hop'
        exact hq.update_ok (hq.op_update.mp hob)
    | both hmerge =>
        cases hop'
        have hproper := hnested key _ _ _ (hq.op_update.mp hob)
          (hp.nested (hp.op_update.mp hoa)) hmerge
        exact ⟨hproper.ordered, hproper.valid⟩

/-- A merge is a patch of the Rust type again, and valid. -/
theorem proper_mergeAt (hp : Proper isObject a) (hq : Proper isObject b)
    (h : mergeAt path a b = .ok m) : Proper isObject m := by
  induction b using nested_induction generalizing path a m with
  | step b ih =>
      cases ha : a.isEmpty with
      | true =>
          rw [mergeAt_empty_left ha] at h
          cases h
          exact hq
      | false =>
          cases hb : b.isEmpty with
          | true =>
              rw [mergeAt_empty_right ha hb] at h
              cases h
              exact hp
          | false =>
              refine (joined_of_nested hp hq ha hb h fun key a' b' m' hb' ha' hmerge => ?_).proper
              exact ih key b' hb' ha' (hq.nested hb') hmerge

theorem joined_of_mergeAt (hp : Proper isObject a) (hq : Proper isObject b)
    (ha : a.isEmpty = false) (hb : b.isEmpty = false) (h : mergeAt path a b = .ok m) :
    Joined isObject path a b m :=
  joined_of_nested hp hq ha hb h fun _ _ _ _ hb' ha' hmerge =>
    proper_mergeAt ha' (hq.nested hb') hmerge

/-- Two merges of the same patches under a key are the same. -/
theorem JoinedOp.unique {R : Patch α → Patch α → Patch α → Prop} {oa ob o o' : Option (Op α)}
    (hR : ∀ a b m m', R a b m → R a b m' → m = m') (h : JoinedOp R oa ob o)
    (h' : JoinedOp R oa ob o') : o = o' := by
  cases h with
  | none =>
      cases h'
      rfl
  | left =>
      cases h'
      rfl
  | right =>
      cases h'
      rfl
  | both hm =>
      cases h' with
      | both hm' => rw [hR _ _ _ _ hm hm']

/-- Where each key both have is an update of objects that merge, the patches merge. -/
theorem exists_mergeAt (hp : Proper isObject a) (hq : Proper isObject b)
    (h : ∀ key, ∃ o, JoinedOp (fun a b m => mergeAt (path ++ [key]) a b = .ok m) (a.op key)
      (b.op key) o) : ∃ m, mergeAt path a b = .ok m := by
  cases ha : a.isEmpty with
  | true => exact ⟨b, mergeAt_empty_left ha⟩
  | false =>
      cases hb : b.isEmpty with
      | true => exact ⟨a, mergeAt_empty_right ha hb⟩
      | false =>
          cases hmerge : mergeAt path a b with
          | ok m => exact ⟨m, rfl⟩
          | error e =>
              rw [mergeAt_eq ha hb] at hmerge
              obtain ⟨key, hinb, hina, hstop⟩ := mergeKeys_error hmerge
              rw [mem_keys] at hina hinb
              obtain ⟨o, ho⟩ := h key
              generalize hoa : a.op key = oa at ho hina
              generalize hob : b.op key = ob at ho hinb
              cases ho with
              | none => exact absurd rfl hina
              | left => exact absurd rfl hinb
              | right => exact absurd rfl hina
              | @both a' b' m' hm =>
                  have hjoin : ((mergeUpdates path a.update b.update).lookup key).join =
                      some (.ok m') := mergeUpdates_some.mpr
                    ⟨a', b', hp.op_update.mp hoa, hq.op_update.mp hob, hm.symm⟩
                  rw [hjoin] at hstop
                  cases hstop with
                  | inl hnone => cases hnone.1
                  | inr herror => cases herror

/-- The merge of patches that are not empty, told by what it does to each key. -/
theorem mergeAt_iff (hp : Proper isObject a) (hq : Proper isObject b)
    (ha : a.isEmpty = false) (hb : b.isEmpty = false) :
    mergeAt path a b = .ok m ↔ Joined isObject path a b m := by
  refine ⟨joined_of_mergeAt hp hq ha hb, fun h => ?_⟩
  obtain ⟨m', hm'⟩ := exists_mergeAt hp hq fun key => ⟨_, h.op key⟩
  have h' := joined_of_mergeAt hp hq ha hb hm'
  have heq : m = m' := ext_op h.proper h'.proper (h.delete.trans h'.delete.symm) fun key =>
    (h.op key).unique (fun _ _ _ _ hm hm' => Except.ok.inj (hm.symm.trans hm')) (h'.op key)
  rw [heq, hm']

end Patch

end Lug.Cavlc
