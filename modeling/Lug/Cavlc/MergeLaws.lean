import Lug.Cavlc.Merge
import Lug.Cavlc.Reference

/-!
The laws of `Patch::merge`: it is a partial commutative monoid, it fails exactly where two
patches have an operation on one key, and applying a merge is applying one patch after the
other.
-/

namespace Lug.Cavlc.Patch

open SortedMap

variable {α : Type} {isObject : α → Bool} {path : List String} {key : String}
  {a b c m ab bc : Patch α}

/-! ### The two in the other order -/

theorem eq_empty (h : a.isEmpty = true) : a = empty := by
  obtain ⟨create, update, delete⟩ := a
  rw [isEmpty, Bool.and_eq_true, Bool.and_eq_true, List.isEmpty_iff, List.isEmpty_iff,
    List.isEmpty_iff] at h
  obtain ⟨⟨hcreate, hupdate⟩, hdelete⟩ := h
  rw [empty, ← hcreate, ← hupdate, ← hdelete]
  rfl

theorem JoinedOp.swap {R R' : Patch α → Patch α → Patch α → Prop} {oa ob o : Option (Op α)}
    (h : JoinedOp R oa ob o)
    (hR : ∀ a b m, oa = some (.update (.object a)) → ob = some (.update (.object b)) →
      R a b m → R' b a m) : JoinedOp R' ob oa o := by
  cases h with
  | none => exact .none
  | left o => exact .right o
  | right o => exact .left o
  | both hm => exact .both (hR _ _ _ rfl rfl hm)

theorem mergeAt_comm (hp : Proper isObject a) (hq : Proper isObject b)
    (h : mergeAt path a b = .ok m) : mergeAt path b a = .ok m := by
  induction b using nested_induction generalizing path a m with
  | step b ih =>
      cases ha : a.isEmpty with
      | true =>
          rw [mergeAt_empty_left ha] at h
          cases h
          cases hb : b.isEmpty with
          | true => rw [mergeAt_empty_left hb, eq_empty ha, eq_empty hb]
          | false => exact mergeAt_empty_right hb ha
      | false =>
          cases hb : b.isEmpty with
          | true =>
              rw [mergeAt_empty_right ha hb] at h
              cases h
              exact mergeAt_empty_left hb
          | false =>
              rw [mergeAt_iff hp hq ha hb] at h
              rw [mergeAt_iff hq hp hb ha]
              refine ⟨h.proper, ?_, fun key => (h.op key).swap fun a' b' m' ha' hb' hm => ?_⟩
              · rw [h.delete]
                exact sortKeys_congr List.perm_append_comm
              · have hb' := hq.op_update.mp hb'
                exact ih key b' hb' (hp.nested (hp.op_update.mp ha')) (hq.nested hb') hm

/-! ### Three of them -/

theorem JoinedOp.assoc {R : Patch α → Patch α → Patch α → Prop} {oa ob oc oab o : Option (Op α)}
    (hab : JoinedOp R oa ob oab) (h : JoinedOp R oab oc o)
    (hR : ∀ a b c ab m, ob = some (.update (.object b)) → oa = some (.update (.object a)) →
      oc = some (.update (.object c)) → R a b ab → R ab c m → ∃ bc, R b c bc ∧ R a bc m) :
    ∃ obc, JoinedOp R ob oc obc ∧ JoinedOp R oa obc o := by
  cases hab with
  | none =>
      cases h with
      | none => exact ⟨Option.none, .none, .none⟩
      | right oc => exact ⟨some oc, .right oc, .right oc⟩
  | left oa =>
      cases h with
      | left => exact ⟨Option.none, .none, .left oa⟩
      | both hm => exact ⟨_, .right _, .both hm⟩
  | right ob =>
      cases h with
      | left => exact ⟨some ob, .left ob, .right ob⟩
      | both hm => exact ⟨_, .both hm, .right _⟩
  | both hm =>
      cases h with
      | left => exact ⟨_, .left _, .both hm⟩
      | both hm' =>
          obtain ⟨bc, hbc, habc⟩ := hR _ _ _ _ _ rfl rfl rfl hm hm'
          exact ⟨_, .both hbc, .both habc⟩

/-- A merge with a patch that is not empty is not empty. -/
theorem Joined.isEmpty_eq (h : Joined isObject path a b m) (ha : a.isEmpty = false) :
    m.isEmpty = false := by
  rw [← Bool.not_eq_true, isEmpty_iff_op] at ha ⊢
  intro hnone
  refine ha fun key => ?_
  have hjoined := h.op key
  rw [hnone key] at hjoined
  generalize a.op key = oa at hjoined ⊢
  generalize b.op key = ob at hjoined
  cases hjoined
  rfl

theorem mergeAt_assoc (hp : Proper isObject a) (hq : Proper isObject b) (hr : Proper isObject c)
    (hab : mergeAt path a b = .ok ab) (h : mergeAt path ab c = .ok m) :
    ∃ bc, mergeAt path b c = .ok bc ∧ mergeAt path a bc = .ok m := by
  induction b using nested_induction generalizing path a c ab m with
  | step b ih =>
      cases ha : a.isEmpty with
      | true =>
          rw [mergeAt_empty_left ha] at hab
          cases hab
          exact ⟨m, h, mergeAt_empty_left ha⟩
      | false =>
          cases hb : b.isEmpty with
          | true =>
              rw [mergeAt_empty_right ha hb] at hab
              cases hab
              exact ⟨c, mergeAt_empty_left hb, h⟩
          | false =>
              have hjoined := joined_of_mergeAt hp hq ha hb hab
              have hne := hjoined.isEmpty_eq ha
              cases hc : c.isEmpty with
              | true =>
                  rw [mergeAt_empty_right hne hc] at h
                  cases h
                  exact ⟨b, mergeAt_empty_right hb hc, hab⟩
              | false =>
                  have hm := joined_of_mergeAt hjoined.proper hr hne hc h
                  have hop : ∀ key, ∃ o,
                      JoinedOp (fun a b m => mergeAt (path ++ [key]) a b = .ok m) (b.op key)
                        (c.op key) o ∧
                      JoinedOp (fun a b m => mergeAt (path ++ [key]) a b = .ok m) (a.op key) o
                        (m.op key) := fun key =>
                    (hjoined.op key).assoc (hm.op key) fun a' b' c' ab' m' hb' ha' hc' hab' hm' => by
                      have hb' := hq.op_update.mp hb'
                      exact ih key b' hb' (hp.nested (hp.op_update.mp ha')) (hq.nested hb')
                        (hr.nested (hr.op_update.mp hc')) hab' hm'
                  obtain ⟨bc, hbc⟩ := exists_mergeAt hq hr fun key => (hop key).imp fun o ho => ho.1
                  have hjoined' := joined_of_mergeAt hq hr hb hc hbc
                  refine ⟨bc, hbc, (mergeAt_iff hp hjoined'.proper ha (hjoined'.isEmpty_eq hb)).mpr
                    ⟨hm.proper, ?_, fun key => ?_⟩⟩
                  · rw [hm.delete, hjoined.delete, hjoined'.delete]
                    refine sortKeys_congr (((sortKeys_perm _).append_right _).trans ?_)
                    rw [List.append_assoc]
                    exact (sortKeys_perm _).symm.append_left _
                  · obtain ⟨o, ho, ho'⟩ := hop key
                    have heq : o = bc.op key := ho.unique
                      (fun _ _ _ _ hm hm' => Except.ok.inj (hm.symm.trans hm')) (hjoined'.op key)
                    rw [← heq]
                    exact ho'

/-! ### Where it fails -/

/-- Both have an operation on a key, below updates that both have, and it is not an update
of an object in both. -/
def ConflictAt : Patch α → Patch α → List String → String → Prop
  | a, b, [], key => key ∈ a.keys ∧ key ∈ b.keys ∧
      ¬ ∃ a' b', a.update.lookup key = some (.object a') ∧ b.update.lookup key = some (.object b')
  | a, b, k :: path, key => ∃ a' b', a.update.lookup k = some (.object a') ∧
      b.update.lookup k = some (.object b') ∧ ConflictAt a' b' path key

theorem mem_keys_of_update {u : Update α} (h : a.update.lookup key = some u) : key ∈ a.keys := by
  obtain ⟨create, update, delete⟩ := a
  rw [keys, List.mem_append, List.mem_append]
  exact .inl (.inr (lookup_isSome.mp (by rw [show update.lookup key = some u from h]; rfl)))

/-- An empty patch is in nobody's way. -/
theorem not_conflictAt_empty (h : a.isEmpty = true ∨ b.isEmpty = true) (p : List String)
    (key : String) : ¬ ConflictAt a b p key := by
  have hnone : ∀ k, ¬ (k ∈ a.keys ∧ k ∈ b.keys) := fun k hboth => by
    cases h with
    | inl ha =>
        rw [isEmpty_iff.mp ha] at hboth
        cases hboth.1
    | inr hb =>
        rw [isEmpty_iff.mp hb] at hboth
        cases hboth.2
  cases p with
  | nil => exact fun hconflict => hnone key ⟨hconflict.1, hconflict.2.1⟩
  | cons k p =>
      rintro ⟨a', b', ha', hb', -⟩
      exact hnone k ⟨mem_keys_of_update ha', mem_keys_of_update hb'⟩

/-- Patches that merge are not in conflict anywhere. -/
theorem not_conflictAt_of_mergeAt (hp : Proper isObject a) (hq : Proper isObject b)
    (h : mergeAt path a b = .ok m) (p : List String) (key : String) : ¬ ConflictAt a b p key := by
  induction p generalizing path a b m with
  | nil =>
      cases ha : a.isEmpty with
      | true => exact not_conflictAt_empty (.inl ha) [] key
      | false =>
          cases hb : b.isEmpty with
          | true => exact not_conflictAt_empty (.inr hb) [] key
          | false =>
              rintro ⟨hina, hinb, hnot⟩
              have hjoined := (joined_of_mergeAt hp hq ha hb h).op key
              rw [mem_keys] at hina hinb
              generalize hoa : a.op key = oa at hjoined hina
              generalize hob : b.op key = ob at hjoined hinb
              generalize m.op key = o at hjoined
              cases hjoined with
              | none => exact hina rfl
              | left => exact hinb rfl
              | right => exact hina rfl
              | both => exact hnot ⟨_, _, hp.op_update.mp hoa, hq.op_update.mp hob⟩
  | cons k p ih =>
      rintro ⟨a', b', ha', hb', hconflict⟩
      have hne : ∀ {p q : Patch α}, p.update.lookup k = some (.object q) → p.isEmpty = false :=
        fun hlookup => by
          rw [← Bool.not_eq_true, isEmpty_iff]
          exact List.ne_nil_of_mem (mem_keys_of_update hlookup)
      have hjoined := (joined_of_mergeAt hp hq (hne ha') (hne hb') h).op k
      rw [hp.op_update.mpr ha', hq.op_update.mpr hb'] at hjoined
      generalize m.op k = o at hjoined
      cases hjoined with
      | both hm => exact ih (hp.nested ha') (hq.nested hb') hm hconflict

/-- Patches that do not merge are in conflict, and the error names where. -/
theorem conflictAt_of_mergeAt (hp : Proper isObject a) (hq : Proper isObject b) {e : Error}
    (h : mergeAt path a b = .error e) :
    ∃ p key, ConflictAt a b p key ∧ e = .mergeConflict (path ++ p ++ [key]) := by
  induction b using nested_induction generalizing path a with
  | step b ih =>
      cases ha : a.isEmpty with
      | true =>
          rw [mergeAt_empty_left ha] at h
          cases h
      | false =>
          cases hb : b.isEmpty with
          | true =>
              rw [mergeAt_empty_right ha hb] at h
              cases h
          | false =>
              rw [mergeAt_eq ha hb] at h
              obtain ⟨key, hinb, hina, hstop⟩ := mergeKeys_error h
              cases hstop with
              | inl hnone =>
                  refine ⟨[], key, ⟨hina, hinb, ?_⟩, ?_⟩
                  · rintro ⟨a', b', ha', hb'⟩
                    rw [mergeUpdates_some.mpr ⟨a', b', ha', hb', rfl⟩] at hnone
                    cases hnone.1
                  · rw [List.append_nil]
                    exact hnone.2
              | inr herror =>
                  obtain ⟨a', b', ha', hb', heq⟩ := mergeUpdates_some.mp herror
                  obtain ⟨p, k, hconflict, he⟩ :=
                    ih key b' hb' (hp.nested ha') (hq.nested hb') heq.symm
                  refine ⟨key :: p, k, ⟨a', b', ha', hb', hconflict⟩, ?_⟩
                  rw [he, List.append_assoc path]
                  rfl

/-! ### One patch after the other -/

section Sequence

variable {f : α → Json} {at_ : List String} {j : Json} {fields : List (String × Json)}

theorem nodup_map (hp : Proper isObject a) : (a.map f).keys.Nodup := by
  rw [keys_map]
  exact hp.nodup

theorem done_map_iff (hp : Proper isObject a) (hsorted : Sorted fields) :
    done at_ (.object (a.map f)) (.object fields) = some j ↔
      ∃ fields', j = .object fields' ∧ Sorted fields' ∧ ∀ key,
        turn at_ key ((a.op key).map (Op.map f)) (fields.lookup key) =
          some (fields'.lookup key) := by
  simp only [← op_map]
  have hnodup := nodup_map (f := f) hp
  generalize a.map f = p at hnodup
  obtain ⟨create, update, delete⟩ := p
  exact done_object_iff hnodup hsorted

theorem exists_done_map (hp : Proper isObject a) (hsorted : Sorted fields)
    (hall : ∀ key, turn at_ key ((a.op key).map (Op.map f)) (fields.lookup key) ≠ none) :
    ∃ fields', done at_ (.object (a.map f)) (.object fields) = some (.object fields') := by
  simp only [← op_map] at hall
  have hnodup := nodup_map (f := f) hp
  generalize a.map f = p at hnodup hall
  obtain ⟨create, update, delete⟩ := p
  exact exists_done hnodup hsorted hall

/-- The merged operation on a key does what the one does and then the other. -/
theorem JoinedOp.turn {R : Patch α → Patch α → Patch α → Prop} {oa ob o : Option (Op α)}
    (h : JoinedOp R oa ob o) {x : Option Json}
    (hR : ∀ a b m current, oa = some (.update (.object a)) → ob = some (.update (.object b)) →
      R a b m → x = some current → done (at_ ++ [key]) (.object (m.map f)) current =
        (done (at_ ++ [key]) (.object (a.map f)) current).bind
          (done (at_ ++ [key]) (.object (b.map f)))) :
    Patch.turn at_ key (o.map (Op.map f)) x =
      (Patch.turn at_ key (oa.map (Op.map f)) x).bind
        (Patch.turn at_ key (ob.map (Op.map f))) := by
  cases h with
  | none => rfl
  | left o => exact (Option.bind_fun_some _).symm
  | right o => rfl
  | @both a b m hm =>
      cases x with
      | none => rfl
      | some current =>
          show (done _ (.object (m.map f)) current).map some =
            ((done _ (.object (a.map f)) current).map some).bind _
          rw [hR a b m current rfl rfl hm rfl]
          cases done (at_ ++ [key]) (.object (a.map f)) current <;> rfl

theorem done_empty (hp : Proper isObject a) (ha : a.isEmpty = true) (hsorted : Sorted fields) :
    done at_ (.object (a.map f)) (.object fields) = some (.object fields) := by
  refine (done_map_iff hp hsorted).mpr ⟨fields, rfl, hsorted, fun key => ?_⟩
  rw [isEmpty_iff_op.mp ha key]
  rfl

/-- What one patch and then the other leaves under a key is what the merge leaves there. -/
theorem done_joined (hp : Proper isObject a) (hq : Proper isObject b) (hm : Proper isObject m)
    (hsorted : Sorted fields)
    (hturn : ∀ key, turn at_ key ((m.op key).map (Op.map f)) (fields.lookup key) =
      (turn at_ key ((a.op key).map (Op.map f)) (fields.lookup key)).bind
        (turn at_ key ((b.op key).map (Op.map f)))) :
    done at_ (.object (m.map f)) (.object fields) =
      (done at_ (.object (a.map f)) (.object fields)).bind
        (done at_ (.object (b.map f))) := by
  refine Option.ext fun j => ?_
  rw [done_map_iff hm hsorted, Option.bind_eq_some_iff]
  constructor
  · rintro ⟨fields', rfl, hsorted', hall⟩
    have hstep : ∀ key, turn at_ key ((a.op key).map (Op.map f)) (fields.lookup key) ≠ none := by
      intro key hnone
      have hkey := hall key
      rw [hturn key, hnone] at hkey
      cases hkey
    obtain ⟨middle, hmiddle⟩ := exists_done_map hp hsorted hstep
    obtain ⟨_, heq, hsorted'', hfirst⟩ := (done_map_iff hp hsorted).mp hmiddle
    cases heq
    refine ⟨_, hmiddle, (done_map_iff hq hsorted'').mpr ⟨fields', rfl, hsorted', fun key => ?_⟩⟩
    have hkey := hall key
    rw [hturn key, hfirst key] at hkey
    exact hkey
  · rintro ⟨_, hmiddle, hlast⟩
    obtain ⟨middle, rfl, hsorted'', hfirst⟩ := (done_map_iff hp hsorted).mp hmiddle
    obtain ⟨fields', rfl, hsorted', hsecond⟩ := (done_map_iff hq hsorted'').mp hlast
    refine ⟨fields', rfl, hsorted', fun key => ?_⟩
    rw [hturn key, hfirst key]
    exact hsecond key

/-- A merge does what the one patch does and then the other. -/
theorem done_mergeAt (hp : Proper isObject a) (hq : Proper isObject b)
    (h : mergeAt path a b = .ok m) (hj : j.Canonical) :
    done at_ (.object (m.map f)) j =
      (done at_ (.object (a.map f)) j).bind (done at_ (.object (b.map f))) := by
  induction b using nested_induction generalizing path at_ a m j with
  | step b ih =>
      cases hobject : j.isObject with
      | false => rw [done_leaf hobject, done_leaf hobject]; rfl
      | true =>
          cases hj with
          | @object fields hsorted hall =>
              cases ha : a.isEmpty with
              | true =>
                  rw [mergeAt_empty_left ha] at h
                  cases h
                  rw [done_empty hp ha hsorted]
                  rfl
              | false =>
                  cases hb : b.isEmpty with
                  | true =>
                      rw [mergeAt_empty_right ha hb] at h
                      cases h
                      cases hdone : done at_ (.object (a.map f)) (.object fields) with
                      | none => rfl
                      | some j' =>
                          obtain ⟨_, rfl, hsorted', -⟩ := (done_map_iff hp hsorted).mp hdone
                          exact (done_empty hq hb hsorted').symm
                  | false =>
                      have hjoined := joined_of_mergeAt hp hq ha hb h
                      refine done_joined hp hq hjoined.proper hsorted fun key =>
                        (hjoined.op key).turn fun a' b' m' current ha' hb' hm' hcurrent => ?_
                      have hb' := hq.op_update.mp hb'
                      exact ih key b' hb' (hp.nested (hp.op_update.mp ha')) (hq.nested hb') hm'
                        (hall _ (mem_of_lookup hcurrent))
          | _ => cases hobject

end Sequence

end Lug.Cavlc.Patch

namespace Lug.Cavlc.OrderedPatch

open SortedMap

variable {a b m : OrderedPatch}

theorem Valid.proper (h : a.Valid) : Patch.Proper (fun v => v.asObject.isSome) a.patch :=
  ⟨a.ordered, h⟩

def empty : OrderedPatch := ⟨Patch.empty, Patch.ordered_nil⟩

theorem ordered_of_merge {p : Patch Value}
    (h : a.patch.merge (fun v => v.asObject.isSome) b.patch = .ok p) : p.Ordered := by
  obtain ⟨_, hp, h⟩ := Except.bind_eq_ok.mp h
  obtain ⟨_, hq, h⟩ := Except.bind_eq_ok.mp h
  exact (Patch.proper_mergeAt ⟨a.ordered, hp⟩ ⟨b.ordered, hq⟩ h).ordered

/-- `merge`, of patches as the store takes them. -/
def merge (self other : OrderedPatch) : Except Error OrderedPatch :=
  match h : self.patch.merge (fun v => v.asObject.isSome) other.patch with
  | .error e => .error e
  | .ok p => .ok ⟨p, ordered_of_merge h⟩

theorem merge_eq (ha : a.Valid) (hb : b.Valid) :
    (a.merge b).map patch = Patch.mergeAt [] a.patch b.patch := by
  have heq : a.patch.merge (fun v => v.asObject.isSome) b.patch =
      Patch.mergeAt [] a.patch b.patch := by
    rw [Patch.merge, show a.patch.validate _ = .ok () from ha,
      show b.patch.validate _ = .ok () from hb]
    rfl
  rw [← heq, merge]
  split
  · rename_i e he
    rw [he]
    rfl
  · rename_i p hp
    exact hp.symm

theorem merge_ok (ha : a.Valid) (hb : b.Valid) :
    a.merge b = .ok m ↔ Patch.mergeAt [] a.patch b.patch = .ok m.patch := by
  rw [← merge_eq ha hb]
  cases a.merge b with
  | error e => exact ⟨nofun, nofun⟩
  | ok p =>
      obtain ⟨p, hp⟩ := p
      obtain ⟨q, hq⟩ := m
      simp [Except.map]

theorem merge_error (ha : a.Valid) (hb : b.Valid) {e : Error} :
    a.merge b = .error e ↔ Patch.mergeAt [] a.patch b.patch = .error e := by
  rw [← merge_eq ha hb]
  cases a.merge b <;> simp [Except.map]

theorem valid_of_merge (ha : a.Valid) (hb : b.Valid) (h : a.merge b = .ok m) : m.Valid :=
  (Patch.proper_mergeAt ha.proper hb.proper ((merge_ok ha hb).mp h)).valid

theorem merge_comm (ha : a.Valid) (hb : b.Valid) (h : a.merge b = .ok m) : b.merge a = .ok m :=
  (merge_ok hb ha).mpr (Patch.mergeAt_comm ha.proper hb.proper ((merge_ok ha hb).mp h))

/-- The value that `apply` leaves. -/
def result (p : OrderedPatch) (v : Value) : Except Error Value :=
  (p.apply v).map fun o => o.getD v

/-- What `apply` leaves is what the edit of the document leaves. -/
theorem result_eq (ha : a.Valid) (v : Value) :
    (a.result v).toOption.map Value.toJson =
      Patch.done [] (.object (a.patch.map Value.toJson)) v.toJson := by
  have hedit := a.apply_edit v
  have hvalid := valid_iff.mp ha
  rw [Patch.edit, hvalid] at hedit
  change Agree _ _ (a.toJson.editAt [] v.toJson) at hedit
  show _ = ((a.toJson.editAt [] v.toJson).map fun o => o.getD v.toJson).toOption
  rw [result]
  generalize a.apply v = x at hedit
  generalize a.toJson.editAt [] v.toJson = y at hedit
  cases hedit with
  | error e => rfl
  | ok hrel =>
      cases hrel with
      | none => rfl
      | some heq => exact congrArg some heq

theorem valid_empty : empty.Valid := rfl

theorem merge_empty (ha : a.Valid) : a.merge empty = .ok a := by
  refine (merge_ok ha valid_empty).mpr ?_
  cases hempty : a.patch.isEmpty with
  | true => exact Patch.mergeAt_comm valid_empty.proper ha.proper (Patch.mergeAt_empty_left rfl)
  | false => exact Patch.mergeAt_empty_right hempty rfl

/-- One patch after the other leaves what their merge leaves. -/
theorem result_merge (ha : a.Valid) (hb : b.Valid) (h : a.merge b = .ok m) (v : Value) :
    (m.result v).toOption.map Value.toJson =
      (a.result v >>= b.result).toOption.map Value.toJson := by
  rw [result_eq (valid_of_merge ha hb h),
    Patch.done_mergeAt ha.proper hb.proper ((merge_ok ha hb).mp h) v.canonical, ← result_eq ha]
  cases a.result v with
  | error e => rfl
  | ok w => exact (result_eq hb w).symm

theorem toOption_eq {x y : Except Error OrderedPatch}
    (h : ∀ p, x = .ok p → y = .ok p) (h' : ∀ p, y = .ok p → x = .ok p) :
    x.toOption = y.toOption := by
  cases x with
  | ok p => rw [h p rfl]
  | error e =>
      cases y with
      | ok p => cases h' p rfl
      | error e' => rfl

theorem merge_assoc {c : OrderedPatch} (ha : a.Valid) (hb : b.Valid) (hc : c.Valid)
    {ab : OrderedPatch} (hab : a.merge b = .ok ab) (h : ab.merge c = .ok m) :
    ∃ bc, b.merge c = .ok bc ∧ a.merge bc = .ok m := by
  have hvalid := valid_of_merge ha hb hab
  obtain ⟨p, hp, hm⟩ := Patch.mergeAt_assoc ha.proper hb.proper hc.proper
    ((merge_ok ha hb).mp hab) ((merge_ok hvalid hc).mp h)
  have hproper := Patch.proper_mergeAt hb.proper hc.proper hp
  have hbc : b.merge c = .ok ⟨p, hproper.ordered⟩ := (merge_ok hb hc).mpr hp
  exact ⟨_, hbc, (merge_ok ha (valid_of_merge hb hc hbc)).mpr hm⟩

/-- `merge` makes a partial commutative monoid of the valid patches, with the empty one as
its unit. It is defined unless both have an operation on one key that is not an update of an
object in both, and it stands for the one patch after the other, in either order. -/
theorem merge_lawful {c : OrderedPatch} (ha : a.Valid) (hb : b.Valid) (hc : c.Valid) :
    (∀ m, a.merge b = .ok m → m.Valid ∧ ∀ v : Value,
      (m.result v).toOption.map Value.toJson =
          (a.result v >>= b.result).toOption.map Value.toJson ∧
        (m.result v).toOption.map Value.toJson =
          (b.result v >>= a.result).toOption.map Value.toJson) ∧
      (a.merge b).toOption = (b.merge a).toOption ∧
      (a.merge b >>= fun ab => ab.merge c).toOption =
        (b.merge c >>= fun bc => a.merge bc).toOption ∧
      a.merge empty = .ok a ∧ empty.merge a = .ok a ∧
      ((∃ e, a.merge b = .error e) ↔ ∃ path key, Patch.ConflictAt a.patch b.patch path key) ∧
      ∀ e, a.merge b = .error e → ∃ path key,
        e = .mergeConflict (path ++ [key]) ∧ Patch.ConflictAt a.patch b.patch path key := by
  have herror : ∀ e, a.merge b = .error e → ∃ path key,
      e = .mergeConflict (path ++ [key]) ∧ Patch.ConflictAt a.patch b.patch path key := by
    intro e he
    obtain ⟨path, key, hconflict, heq⟩ :=
      Patch.conflictAt_of_mergeAt ha.proper hb.proper ((merge_error ha hb).mp he)
    exact ⟨path, key, heq, hconflict⟩
  refine ⟨fun m hm => ⟨valid_of_merge ha hb hm, fun v => ⟨result_merge ha hb hm v,
    result_merge hb ha (merge_comm ha hb hm) v⟩⟩, ?_, ?_, merge_empty ha,
    merge_comm ha valid_empty (merge_empty ha), ⟨?_, ?_⟩, herror⟩
  · exact toOption_eq (fun _ => merge_comm ha hb) fun _ => merge_comm hb ha
  · refine toOption_eq (fun m h => ?_) fun m h => ?_
    · obtain ⟨ab, hab, hm⟩ := Except.bind_eq_ok.mp h
      exact Except.bind_eq_ok.mpr (merge_assoc ha hb hc hab hm)
    · obtain ⟨bc, hbc, hm⟩ := Except.bind_eq_ok.mp h
      -- the other way around is the same in the other order
      have hvalid := valid_of_merge hb hc hbc
      obtain ⟨ba, hba, hm'⟩ := merge_assoc hc hb ha (merge_comm hb hc hbc)
        (merge_comm ha hvalid hm)
      exact Except.bind_eq_ok.mpr ⟨ba, merge_comm hb ha hba,
        merge_comm hc (valid_of_merge hb ha hba) hm'⟩
  · rintro ⟨e, he⟩
    obtain ⟨path, key, -, hconflict⟩ := herror e he
    exact ⟨path, key, hconflict⟩
  · rintro ⟨path, key, hconflict⟩
    cases hmerge : a.merge b with
    | error e => exact ⟨e, rfl⟩
    | ok m =>
        exact absurd hconflict
          (Patch.not_conflictAt_of_mergeAt ha.proper hb.proper ((merge_ok ha hb).mp hmerge) path key)

section Sample

/-- A patch that creates a field of the object under a key. -/
def creating (key : String) : OrderedPatch where
  patch := .mk [] [("node", .object (.mk [(key, Value.ofJson .null)] [] []))] []
  ordered := ⟨sorted_nil, List.pairwise_singleton _ _,
    ⟨List.pairwise_singleton _ _, sorted_nil, trivial⟩, trivial⟩

/-- A patch that deletes one. -/
def deleting (key : String) : OrderedPatch where
  patch := .mk [] [("node", .object (.mk [] [] [key]))] []
  ordered := ⟨sorted_nil, List.pairwise_singleton _ _, ⟨sorted_nil, sorted_nil, trivial⟩, trivial⟩

/-- A field that one creates and the other deletes; there is no conflict with a third that
does neither. -/
theorem creating_lawful : (∃ e, (creating "title").merge (deleting "title") = .error e) ∧
    ((creating "title").merge (deleting "author") >>= fun p => p.merge (creating "year")).toOption =
      ((deleting "author").merge (creating "year") >>= fun p =>
        (creating "title").merge p).toOption := by
  refine ⟨?_, ?_⟩
  · refine (merge_lawful (a := creating "title") (b := deleting "title")
      (c := deleting "title") rfl rfl rfl).2.2.2.2.2.1.mpr ⟨["node"], "title", ?_⟩
    refine ⟨_, _, rfl, rfl, List.mem_singleton.mpr rfl, List.mem_singleton.mpr rfl, ?_⟩
    rintro ⟨_, _, hupdate, -⟩
    cases hupdate
  · exact (merge_lawful (a := creating "title") (b := deleting "author")
      (c := creating "year") rfl rfl rfl).2.2.1

end Sample

end Lug.Cavlc.OrderedPatch
