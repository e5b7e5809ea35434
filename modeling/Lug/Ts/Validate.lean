import Lug.Ts.Patch

/-!
What `validatePatch` accepts is what decodes to a `cavlc::Patch`.
-/

namespace Lug.Ts

open SortedMap Cavlc

/-! ### What `validatePatch` accepts -/

theorem all_strings {items : List Json} (h : items.any (!isString ·) = false) :
    ∃ keys : List String, items = keys.map .string := by
  induction items with
  | nil => exact ⟨[], rfl⟩
  | cons item items ih =>
      obtain ⟨hitem, hitems⟩ := Bool.or_eq_false_iff.mp (List.any_cons.symm.trans h)
      obtain ⟨keys, rfl⟩ := ih hitems
      cases item with
      | string s => exact ⟨s :: keys, rfl⟩
      | _ => cases hitem

theorem any_strings (keys : List String) :
    (keys.map Json.string).any (!isString ·) = false := by
  rw [List.any_eq_false]
  intro j hj
  obtain ⟨s, -, rfl⟩ := List.mem_map.mp hj
  simp [isString]

theorem option_any_isObject {o : Option Json} :
    o.any (!·.isObject) = false ↔ ∀ v, o = some v → v.isObject := by
  cases o with
  | none => simp
  | some v => simp

theorem checkParts_ok {path : List String} {fields : List (String × Json)} :
    checkParts path fields = .ok () ↔ Formed fields := by
  rw [checkParts]
  constructor
  · intro h
    split at h
    case h_1 => cases h
    case h_2 hknown =>
        split_ifs at h with hcreate hupdate
        refine ⟨find_unknown.mp hknown, option_any_isObject.mp (Bool.eq_false_iff.mpr hcreate),
          option_any_isObject.mp (Bool.eq_false_iff.mpr hupdate), fun v hv => ?_⟩
        rw [hv] at h
        cases v with
        | array items =>
            dsimp only at h
            split_ifs at h with hitems
            obtain ⟨keys, rfl⟩ := all_strings (Bool.eq_false_iff.mpr hitems)
            exact ⟨keys, rfl⟩
        | _ => cases h
  · rintro ⟨hknown, hcreate, hupdate, hdelete⟩
    rw [find_unknown.mpr hknown, option_any_isObject.mpr hcreate, option_any_isObject.mpr hupdate]
    cases hlookup : fields.lookup "Delete" with
    | none => rfl
    | some v =>
        obtain ⟨keys, rfl⟩ := hdelete v hlookup
        simp only [any_strings]
        rfl

theorem validateDelete_ok {path keys deletes : List String} (hkeys : keys.Nodup) :
    validateDelete path keys deletes = .ok () ↔ (keys ++ deletes).Nodup := by
  induction deletes generalizing keys with
  | nil =>
      rw [validateDelete, List.append_nil]
      exact ⟨fun _ => hkeys, fun _ => rfl⟩
  | cons key rest ih =>
      rw [validateDelete]
      by_cases hmem : key ∈ keys
      · rw [if_pos hmem]
        refine ⟨nofun, fun hnodup => ?_⟩
        exact absurd rfl ((List.nodup_append.mp hnodup).2.2 key hmem key List.mem_cons_self)
      · have hnext : (keys ++ [key]).Nodup :=
          List.nodup_append.mpr ⟨hkeys, List.nodup_singleton key, by
            rintro a ha b hb rfl
            exact hmem (List.mem_singleton.mp hb ▸ ha)⟩
        rw [if_neg hmem, ih hnext, List.append_assoc]
        rfl

theorem validateEach_ok {path keys : List String} {updates : List (String × Json)}
    (hkeys : keys.Nodup) {met : List String} :
    validateEach path keys updates = .ok met ↔ met = keys ++ updates.map Prod.fst ∧ met.Nodup ∧
      ∀ e ∈ updates, validateChild (path ++ [e.1]) e.2 = .ok () := by
  induction updates generalizing keys with
  | nil =>
      rw [validateEach, List.map_nil, List.append_nil]
      constructor
      · intro h
        cases h
        exact ⟨rfl, hkeys, by simp⟩
      · rintro ⟨rfl, -⟩
        rfl
  | cons e rest ih =>
      obtain ⟨key, child⟩ := e
      rw [validateEach]
      by_cases hmem : key ∈ keys
      · rw [if_pos hmem]
        refine ⟨nofun, ?_⟩
        rintro ⟨rfl, hnodup, -⟩
        exact absurd rfl ((List.nodup_append.mp hnodup).2.2 key hmem key List.mem_cons_self)
      · have hnext : (keys ++ [key]).Nodup :=
          List.nodup_append.mpr ⟨hkeys, List.nodup_singleton key, by
            rintro a ha b hb rfl
            exact hmem (List.mem_singleton.mp hb ▸ ha)⟩
        rw [if_neg hmem, Except.bind_eq_ok, List.forall_mem_cons, List.map_cons]
        constructor
        · rintro ⟨_, hchild, hrest⟩
          obtain ⟨hmet, hnodup, hall⟩ := (ih hnext).mp hrest
          exact ⟨by rw [hmet, List.append_assoc]; rfl, hnodup, hchild, hall⟩
        · rintro ⟨hmet, hnodup, hchild, hall⟩
          exact ⟨(), hchild, (ih hnext).mpr ⟨by rw [hmet, List.append_assoc]; rfl, hnodup, hall⟩⟩

theorem validateUpdate_eq (path keys : List String) (fields : List (String × Json)) :
    validateUpdate path keys fields = validateEach path keys (entries (fields.lookup "Update")) := by
  induction fields with
  | nil => rfl
  | cons f fields ih =>
      obtain ⟨key, value⟩ := f
      rw [validateUpdate, List.lookup_cons]
      by_cases hkey : key = "Update"
      · subst hkey
        rw [if_pos rfl]
        cases value with
        | object updates => rfl
        | _ => rfl
      · rw [if_neg hkey, ih, beq_eq_false_iff_ne.mpr (Ne.symm hkey)]

/-- What `validatePatch` accepts of an object. -/
theorem validateChild_object {path : List String} {fields : List (String × Json)}
    (hcreate : ((entries (fields.lookup "Create")).map Prod.fst).Nodup) :
    validateChild path (.object fields) = .ok () ↔ Formed fields ∧ (keysOf fields).Nodup ∧
      ∀ e ∈ entries (fields.lookup "Update"), validateChild (path ++ [e.1]) e.2 = .ok () := by
  rw [validateChild, validateParts, Except.bind_eq_ok]
  constructor
  · rintro ⟨_, hparts, h⟩
    obtain ⟨met, hupdate, hdelete⟩ := Except.bind_eq_ok.mp h
    rw [validateUpdate_eq, validateEach_ok hcreate] at hupdate
    obtain ⟨hmet, hnodup, hall⟩ := hupdate
    rw [validateDelete_ok hnodup, hmet] at hdelete
    exact ⟨checkParts_ok.mp hparts, hdelete, hall⟩
  · rintro ⟨hparts, hnodup, hall⟩
    have hmet := (List.nodup_append.mp hnodup).1
    have hupdate := (validateEach_ok hcreate).mpr ⟨rfl, hmet, hall⟩
    rw [← validateUpdate_eq] at hupdate
    exact ⟨(), checkParts_ok.mpr hparts,
      Except.bind_eq_ok.mpr ⟨_, hupdate, (validateDelete_ok hmet).mpr hnodup⟩⟩

end Lug.Ts
