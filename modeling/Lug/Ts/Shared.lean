import Lug.Cavlc.Equality
import Lug.Ts.Validate

/-!
The values that both languages have, what a document is in each of them, and that
`validatePatch` accepts of them what decodes to a `cavlc::Patch`.
-/

namespace Lug.Ts

open SortedMap Cavlc

/-- The values that both languages have: no key stands twice in an object, and numbers
are integers that a double holds. -/
inductive Shared : Json → Prop
  | null : Shared .null
  | bool (b : Bool) : Shared (.bool b)
  | number {n : ℤ} (h : n.natAbs < 2 ^ 53) : Shared (.number (.int n))
  | string (s : String) : Shared (.string s)
  | array {items : List Json} (h : ∀ j ∈ items, Shared j) : Shared (.array items)
  | object {fields : List (String × Json)} (distinct : (fields.map Prod.fst).Nodup)
      (h : ∀ f ∈ fields, Shared f.2) : Shared (.object fields)

/-- A value in one language, and it in the other. -/
structure Same (j c : Json) : Prop where
  shared : Shared j
  normal : j.normal = c

/-- The fields of an object in the order of a `BTreeMap`. -/
def sorted (fields : List (String × Json)) : List (String × Json) :=
  ofList (mapValues Json.normal fields)

theorem normal_object (fields : List (String × Json)) :
    (Json.object fields).normal = .object (sorted fields) :=
  Json.normal_object fields

/-! ### Values -/

namespace Shared

variable {fields : List (String × Json)} {key : String} {v : Json}

theorem distinct (h : Shared (.object fields)) : (fields.map Prod.fst).Nodup := by
  cases h with
  | object distinct _ => exact distinct

theorem field (h : Shared (.object fields)) {f : String × Json} (hf : f ∈ fields) :
    Shared f.2 := by
  cases h with
  | object _ h => exact h f hf

theorem lookup (h : Shared (.object fields)) (hv : fields.lookup key = some v) : Shared v :=
  h.field (mem_of_lookup hv)

/-- What stands under a key is an object of distinct fields, or there are none. -/
theorem entries (h : Shared (.object fields)) (key : String) :
    Shared (.object (entries (fields.lookup key))) := by
  have hnone : Shared (.object []) := .object List.nodup_nil (by simp)
  cases hlookup : fields.lookup key with
  | none => exact hnone
  | some v =>
      have hv := h.lookup hlookup
      cases v with
      | object inner => exact hv
      | _ => exact hnone

theorem floatFree {j : Json} (h : Shared j) : j.FloatFree := by
  induction h with
  | null => exact .null
  | bool b => exact .bool b
  | number _ => exact .number _
  | string s => exact .string s
  | array _ ih => exact .array ih
  | object _ _ ih => exact .object ih

theorem sorted_keys (h : Shared (.object fields)) :
    ((mapValues Json.normal fields).map Prod.fst).Nodup := by
  rw [mapValues, List.map_map]
  exact h.distinct

theorem perm_sorted (h : Shared (.object fields)) :
    (sorted fields).Perm (mapValues Json.normal fields) :=
  perm_ofList h.sorted_keys

theorem mem_sorted (h : Shared (.object fields)) {e : String × Json} :
    e ∈ sorted fields ↔ ∃ f ∈ fields, (f.1, f.2.normal) = e :=
  h.perm_sorted.mem_iff.trans List.mem_map

theorem lookup_sorted (h : Shared (.object fields)) (key : String) :
    (sorted fields).lookup key = (fields.lookup key).map Json.normal := by
  rw [sorted, lookup_ofList h.sorted_keys, lookup_mapValues]

/-- The fields of an object in the order of a `BTreeMap` are those of a shared value. -/
theorem normal {j : Json} (h : Shared j) : Shared j.normal := by
  induction h with
  | null => exact .null
  | bool b => exact .bool b
  | number h => exact .number h
  | string s => exact .string s
  | array h ih =>
      rw [Json.normal_array]
      refine .array fun j hj => ?_
      obtain ⟨i, hi, rfl⟩ := List.mem_map.mp hj
      exact ih i hi
  | object distinct h ih =>
      rw [Json.normal_object]
      refine .object (sorted_ofList.imp fun hlt heq => hlt.ne heq) fun f hf => ?_
      obtain ⟨g, hg, rfl⟩ := List.mem_map.mp (mem_of_mem_ofList hf)
      exact ih g hg

end Shared

theorem Same.of_shared {j : Json} (h : Shared j) : Same j j.normal := ⟨h, rfl⟩

/-- Two objects whose keys have the same values are the same. -/
theorem Same.object {target fields : List (String × Json)} (htarget : (target.map Prod.fst).Nodup)
    (hfields : Sorted fields)
    (h : ∀ k, Option.Rel Same (target.lookup k) (fields.lookup k)) :
    Same (.object target) (.object fields) := by
  have hshared : Shared (.object target) := .object htarget fun f hf => by
    have hrel := h f.1
    rw [lookup_of_mem_nodup htarget hf] at hrel
    generalize fields.lookup f.1 = y at hrel
    cases hrel with
    | some hsame => exact hsame.shared
  refine ⟨hshared, ?_⟩
  rw [Json.normal_object]
  congr 1
  refine Sorted.ext sorted_ofList hfields fun k => ?_
  have hrel := h k
  show (sorted target).lookup k = fields.lookup k
  rw [hshared.lookup_sorted]
  generalize target.lookup k = x at hrel
  generalize fields.lookup k = y at hrel
  cases hrel with
  | none => rfl
  | some hsame => rw [Option.map_some, hsame.normal]

/-! ### What is accepted -/

theorem isObject_normal (j : Json) : j.normal.isObject = j.isObject := by
  cases j with
  | array items => rw [Json.normal_array]; rfl
  | object fields => rw [Json.normal_object]; rfl
  | _ => rfl

theorem entries_normal (o : Option Json) :
    entries (o.map Json.normal) = sorted (entries o) := by
  cases o with
  | none => rfl
  | some j =>
      rw [Option.map_some]
      cases j with
      | array items => rw [Json.normal_array]; rfl
      | object fields => rw [Json.normal_object]; rfl
      | _ => rfl

theorem normal_eq_string {j : Json} {s : String} : j.normal = .string s ↔ j = .string s := by
  cases j with
  | array items => rw [Json.normal_array]; exact ⟨nofun, nofun⟩
  | object fields => rw [Json.normal_object]; exact ⟨nofun, nofun⟩
  | _ => exact Iff.rfl

theorem map_normal_strings {items : List Json} {keys : List String} :
    items.map Json.normal = keys.map Json.string ↔ items = keys.map Json.string := by
  induction items generalizing keys with
  | nil => exact Iff.rfl
  | cons item items ih =>
      cases keys with
      | nil => exact ⟨nofun, nofun⟩
      | cons key keys =>
          rw [List.map_cons, List.map_cons, List.cons.injEq, List.cons.injEq, ih, normal_eq_string]

theorem normal_eq_strings {j : Json} {keys : List String} :
    j.normal = .array (keys.map .string) ↔ j = .array (keys.map .string) := by
  cases j with
  | array items => rw [Json.normal_array, Json.array.injEq, Json.array.injEq, map_normal_strings]
  | object fields => rw [Json.normal_object]; exact ⟨nofun, nofun⟩
  | _ => exact Iff.rfl

theorem strings_normal {fields : List (String × Json)} (h : Formed fields) :
    strings ((fields.lookup "Delete").map Json.normal) = strings (fields.lookup "Delete") := by
  cases hlookup : fields.lookup "Delete" with
  | none => rfl
  | some v =>
      obtain ⟨keys, rfl⟩ := h.delete v hlookup
      rw [Option.map_some, normal_eq_strings.mpr rfl]

namespace Shared

variable {fields : List (String × Json)}

theorem formed_sorted (h : Shared (.object fields)) : Formed (sorted fields) ↔ Formed fields := by
  have hlookup := h.lookup_sorted
  constructor
  · rintro ⟨hknown, hcreate, hupdate, hdelete⟩
    refine ⟨fun f hf => hknown (f.1, f.2.normal) (h.mem_sorted.mpr ⟨f, hf, rfl⟩),
      fun v hv => ?_, fun v hv => ?_, fun v hv => ?_⟩
    · rw [← isObject_normal]
      exact hcreate v.normal (by rw [hlookup, hv, Option.map_some])
    · rw [← isObject_normal]
      exact hupdate v.normal (by rw [hlookup, hv, Option.map_some])
    · obtain ⟨keys, hkeys⟩ := hdelete v.normal (by rw [hlookup, hv, Option.map_some])
      exact ⟨keys, normal_eq_strings.mp hkeys⟩
  · rintro ⟨hknown, hcreate, hupdate, hdelete⟩
    refine ⟨fun e he => ?_, fun v hv => ?_, fun v hv => ?_, fun v hv => ?_⟩
    · obtain ⟨f, hf, rfl⟩ := h.mem_sorted.mp he
      exact hknown f hf
    · rw [hlookup, Option.map_eq_some_iff] at hv
      obtain ⟨w, hw, rfl⟩ := hv
      rw [isObject_normal]
      exact hcreate w hw
    · rw [hlookup, Option.map_eq_some_iff] at hv
      obtain ⟨w, hw, rfl⟩ := hv
      rw [isObject_normal]
      exact hupdate w hw
    · rw [hlookup, Option.map_eq_some_iff] at hv
      obtain ⟨w, hw, rfl⟩ := hv
      obtain ⟨keys, hkeys⟩ := hdelete w hw
      exact ⟨keys, normal_eq_strings.mpr hkeys⟩

theorem keys_sorted (h : Shared (.object fields)) :
    ((sorted fields).map Prod.fst).Perm (fields.map Prod.fst) := by
  refine (h.perm_sorted.map Prod.fst).trans (List.Perm.of_eq ?_)
  rw [mapValues, List.map_map]
  rfl

theorem keysOf_sorted (h : Shared (.object fields)) (hformed : Formed fields) :
    (keysOf (sorted fields)).Perm (keysOf fields) := by
  rw [keysOf, keysOf, h.lookup_sorted, h.lookup_sorted, h.lookup_sorted, entries_normal,
    entries_normal, strings_normal hformed]
  exact ((h.entries _).keys_sorted.append (h.entries _).keys_sorted).append_right _

end Shared

theorem validateChild_leaf {path : List String} {j : Json} (h : j.isObject = false) :
    validateChild path j = .ok () := by
  cases j with
  | object fields => cases h
  | _ => rfl

section

variable [TextCodec]

/-- What `validatePatch` accepts is what decodes. -/
theorem validateChild_iff {j : Json} (h : Shared j) (path : List String) :
    validateChild path j = .ok () ↔ ∃ u, Patch.readUpdate j.normal = .ok u := by
  induction j using updates_induction generalizing path with
  | leaf j hleaf =>
      have hleaf' : j.normal.isObject = false := (isObject_normal j).trans hleaf
      exact ⟨fun _ => ⟨_, readUpdate_leaf hleaf'⟩, fun _ => validateChild_leaf hleaf⟩
  | object fields ih =>
      have hupdates := h.entries "Update"
      have hread : (∃ u, Patch.readUpdate (.object (sorted fields)) = .ok u) ↔
          Formed fields ∧ (keysOf (sorted fields)).Nodup ∧
            ∃ us, ReadAs (sorted (entries (fields.lookup "Update"))) us := by
        simp only [readUpdate_object, h.formed_sorted, h.lookup_sorted, entries_normal]
        constructor
        · rintro ⟨u, hformed, hnodup, us, hus, -⟩
          exact ⟨hformed, hnodup, us, hus⟩
        · rintro ⟨hformed, hnodup, us, hus⟩
          exact ⟨_, hformed, hnodup, us, hus, rfl⟩
      rw [validateChild_object (h.entries _).distinct, Json.normal_object]
      refine Iff.trans ?_ hread.symm
      rw [exists_readAs]
      refine and_congr_right fun hformed => ?_
      rw [(h.keysOf_sorted hformed).nodup_iff]
      refine and_congr_right fun _ => ?_
      constructor
      · intro hall e he
        obtain ⟨f, hf, rfl⟩ := hupdates.mem_sorted.mp he
        exact (ih f hf (hupdates.field hf) _).mp (hall f hf)
      · intro hall f hf
        exact (ih f hf (hupdates.field hf) _).mpr (hall _ (hupdates.mem_sorted.mpr ⟨f, hf, rfl⟩))

end

end Lug.Ts
