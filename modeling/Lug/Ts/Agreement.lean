import Lug.Ts.Shared
import Lug.Cavlc.Keys
import Lug.Cavlc.Reencode
import Lug.Core.Text

/-!
`applyCavlcPatch` and `cavlc::Patch` do the same to the same document. The two go
through the keys of a patch in orders of their own, so what is compared is what
becomes of each key.
-/

namespace Lug.Ts

open SortedMap Cavlc Edits

/-! ### What is done -/

section Loops

variable {path : List String} {target : List (String × Json)}

/-- The property that is there already takes another value. -/
theorem lookup_replace (key : String) (value : Json) (k : String) :
    (target.map fun e => if e.1 = key then (key, value) else e).lookup k =
      if k = key then (target.lookup key).map fun _ => value else target.lookup k := by
  induction target with
  | nil => simp
  | cons f target ih =>
      obtain ⟨l, v⟩ := f
      rw [List.map_cons]
      by_cases hl : l = key
      · rw [if_pos hl, List.lookup_cons, ih, List.lookup_cons, List.lookup_cons]
        by_cases hk : k = key
        · rw [if_pos hk, if_pos hk, hk, hl, beq_self_eq_true]
          rfl
        · rw [if_neg hk, if_neg hk, beq_eq_false_iff_ne.mpr hk,
            beq_eq_false_iff_ne.mpr fun h => hk (h.trans hl)]
      · rw [if_neg hl, List.lookup_cons, ih, List.lookup_cons, List.lookup_cons,
          beq_eq_false_iff_ne.mpr (Ne.symm hl)]
        by_cases hk : k = key
        · rw [if_pos hk, if_pos hk, hk, beq_eq_false_iff_ne.mpr (Ne.symm hl)]
        · rw [if_neg hk, if_neg hk]

theorem lookup_define (key : String) (value : Json) (k : String) :
    (define target key value).lookup k = if k = key then some value else target.lookup k := by
  rw [define]
  cases hlookup : target.lookup key with
  | some old =>
      rw [if_pos Option.isSome_some, lookup_replace, hlookup]
      rfl
  | none =>
      rw [if_neg (by simp), List.lookup_append]
      by_cases hk : k = key
      · rw [if_pos hk, hk, hlookup, Option.none_or, List.lookup_cons, beq_self_eq_true]
      · rw [if_neg hk, List.lookup_cons, beq_eq_false_iff_ne.mpr hk, List.lookup_nil,
          Option.or_none]

theorem distinct_define {key : String} {value : Json} (h : (target.map Prod.fst).Nodup) :
    ((define target key value).map Prod.fst).Nodup := by
  rw [define]
  cases hlookup : target.lookup key with
  | some old =>
      have hkeys : (target.map fun e => if e.1 = key then (key, value) else e).map Prod.fst =
          target.map Prod.fst := by
        rw [List.map_map]
        refine List.map_congr_left fun e _ => ?_
        rw [Function.comp_apply]
        split_ifs with hkey
        · exact hkey.symm
        · rfl
      rw [if_pos Option.isSome_some, hkeys]
      exact h
  | none =>
      rw [if_neg (by simp), List.map_append, List.nodup_append]
      refine ⟨h, List.nodup_singleton key, ?_⟩
      rintro _ ha _ hb rfl
      obtain ⟨e, he, hkey⟩ := List.mem_map.mp ha
      rw [List.map_cons, List.map_nil, List.mem_singleton] at hb
      exact lookup_eq_none_iff.mp hlookup e he (hkey.trans hb)

theorem distinct_erase {key : String} (h : (target.map Prod.fst).Nodup) :
    ((erase key target).map Prod.fst).Nodup :=
  h.sublist (List.filter_sublist.map Prod.fst)

end Loops

theorem applyUpdate_eq (path : List String) (fields target : List (String × Json)) :
    applyUpdate path fields target = applyEach path (entries (fields.lookup "Update")) target := by
  induction fields with
  | nil => rfl
  | cons f fields ih =>
      obtain ⟨key, value⟩ := f
      rw [applyUpdate, List.lookup_cons]
      by_cases hkey : key = "Update"
      · subst hkey
        rw [if_pos rfl]
        cases value with
        | object updates => rfl
        | _ => rfl
      · rw [if_neg hkey, ih, beq_eq_false_iff_ne.mpr (Ne.symm hkey)]

/-- No property of the object is there twice. -/
def Distinct (target : List (String × Json)) : Prop := (target.map Prod.fst).Nodup

def value (target : List (String × Json)) (key : String) : Option Json := target.lookup key

/-- What an update does to a child, in TypeScript. -/
def childEdit (path : List String) (e : String × Json) : Edit Json :=
  Edits.update fun current => (applyChild (path ++ [e.1]) e.2 current).toOption

/-- What `applyAt` does to each key. -/
def edits (path : List String) (create updates : List (String × Json)) (delete : List String) :
    List (String × Edit Json) :=
  (create.map fun e => (e.1, Edits.create e.2)) ++
    ((updates.map fun e => (e.1, childEdit path e)) ++ delete.map fun key => (key, Edits.delete))

section Loops

variable {path : List String} {target : List (String × Json)}

theorem made_define {key : String} {v : Json} {f : Edit Json} (h : Distinct target)
    (hf : f (target.lookup key) = some (some v)) :
    Made Distinct value key f target (define target key v) where
  kept := distinct_define h
  done := by rw [value, hf, value, lookup_define, if_pos rfl]
  same := fun k hk => by rw [value, lookup_define, if_neg hk, value]

theorem applyCreate_runs {create : List (String × Json)} (h : (create.map Prod.fst).Nodup)
    (htarget : Distinct target) :
    Runs Distinct value (create.map fun e => (e.1, Edits.create e.2)) (value target)
      (applyCreate path create target) := by
  refine Runs.loop (fun _ => rfl) (fun e rest t ht => ?_) h htarget
  rw [applyCreate]
  cases hlookup : t.lookup e.1 with
  | some old =>
      refine .inl ⟨by rw [value, hlookup]; rfl, _, if_pos Option.isSome_some⟩
  | none =>
      refine .inr ⟨define t e.1 e.2, made_define ht (by rw [hlookup]; rfl), if_neg (by simp)⟩

theorem applyEach_runs {updates : List (String × Json)} (h : (updates.map Prod.fst).Nodup)
    (htarget : Distinct target) :
    Runs Distinct value (updates.map fun e => (e.1, childEdit path e)) (value target)
      (applyEach path updates target) := by
  refine Runs.loop (fun _ => rfl) (fun e rest t ht => ?_) h htarget
  obtain ⟨key, update⟩ := e
  rw [applyEach, value]
  cases hlookup : t.lookup key with
  | none => exact .inl ⟨rfl, _, rfl⟩
  | some current =>
      dsimp only
      cases hnext : applyChild (path ++ [key]) update current with
      | error e =>
          refine .inl ⟨?_, e, rfl⟩
          rw [childEdit, Edits.update, hnext]
          rfl
      | ok next =>
          refine .inr ⟨define t key next, made_define ht ?_, rfl⟩
          rw [hlookup, childEdit, Edits.update, hnext]
          rfl

theorem applyDelete_runs {delete : List String} (h : delete.Nodup) (htarget : Distinct target) :
    Runs Distinct value (delete.map fun key => (key, Edits.delete)) (value target)
      (applyDelete path delete target) := by
  refine Runs.loop (fun _ => rfl) (fun key rest t ht => ?_) (by rwa [List.map_id'])
    htarget
  rw [applyDelete]
  cases hlookup : t.lookup key with
  | none => exact .inl ⟨by rw [value, hlookup]; rfl, _, if_pos rfl⟩
  | some old =>
      refine .inr ⟨erase key t, ⟨distinct_erase ht, ?_, fun k hk => ?_⟩, if_neg (by simp)⟩
      · rw [value, hlookup, value, lookup_erase, if_pos rfl]
        rfl
      · show (erase key t).lookup k = t.lookup k
        rw [lookup_erase]
        exact if_neg hk

/-- The loops of `applyAt`, one after the other. -/
theorem applyParts_runs (path : List String) {fields : List (String × Json)} (hnodup : (keysOf fields).Nodup)
    (htarget : Distinct target) :
    Runs Distinct value (edits path (entries (fields.lookup "Create"))
        (entries (fields.lookup "Update")) (strings (fields.lookup "Delete"))) (value target)
      (applyParts path fields (applyUpdate path fields) target) := by
  rw [keysOf, List.append_assoc] at hnodup
  obtain ⟨hcreate, hrest, -⟩ := List.nodup_append.mp hnodup
  obtain ⟨hupdate, hdelete, -⟩ := List.nodup_append.mp hrest
  refine (applyCreate_runs hcreate htarget).append (fun t ht => ?_) ?_
  · rw [applyUpdate_eq]
    refine (applyEach_runs hupdate ht).append (fun t' ht' => applyDelete_runs hdelete ht') ?_
    simpa [Function.comp_def] using hrest
  · simpa [Function.comp_def] using hnodup

end Loops

section

variable [TextCodec] {path path' : List String} {current c : Json}

omit [TextCodec] in
theorem applyChild_leaf {update : Json} (h : update.isObject = false) :
    applyChild path update current =
      if current.isObject then .error ⟨path, "cannot replace an object; Delete it before Create"⟩
      else .ok update := by
  cases update with
  | object fields => cases h
  | _ => cases current <;> rfl

omit [TextCodec] in
theorem Same.isObject (h : Same current c) : current.isObject = c.isObject := by
  rw [← h.normal, isObject_normal]

omit [TextCodec] in
/-- A leaf takes the place of a leaf. -/
theorem leaf_sync {update : Json} (h : Shared update) (hleaf : update.isObject = false)
    (hc : Same current c) : Sync Same (applyChild path update current)
      ((Patch.editNext path' (.value update.normal) c).map fun o => o.getD c) := by
  rw [applyChild_leaf hleaf, hc.isObject, Patch.editNext]
  by_cases hobject : c.isObject = true
  · rw [if_pos hobject, if_pos hobject]
    exact .error _ _
  · rw [if_neg hobject, if_neg hobject]
    by_cases heq : update.normal.eq c = true
    · rw [if_pos heq]
      exact .ok ⟨h, h.normal.floatFree.eq_of_eq c heq⟩
    · rw [if_neg heq]
      exact .ok ⟨h, rfl⟩

/-- The edits of the two languages are the same edits, in orders of their own. -/
theorem edits_alike {fields : List (String × Json)} (h : Shared (.object fields))
    {us : List (String × Update Json)}
    (hread : ReadAs (sorted (entries (fields.lookup "Update"))) us)
    (hchild : ∀ e ∈ entries (fields.lookup "Update"), ∀ u, Patch.readUpdate e.2.normal = .ok u →
      Alike Same (childEdit path e) (nextEdit path' (e.1, u))) (delete : List String) :
    (∀ e ∈ edits path (entries (fields.lookup "Create")) (entries (fields.lookup "Update")) delete,
      ∃ e' ∈ sheetEdits path' (sorted (entries (fields.lookup "Create"))) us delete,
        e'.1 = e.1 ∧ Alike Same e.2 e'.2) ∧
    ∀ e' ∈ sheetEdits path' (sorted (entries (fields.lookup "Create"))) us delete,
      ∃ e ∈ edits path (entries (fields.lookup "Create")) (entries (fields.lookup "Update")) delete,
        e.1 = e'.1 ∧ Alike Same e.2 e'.2 := by
  have hcreates := h.entries "Create"
  have hupdates := h.entries "Update"
  constructor
  · intro e he
    rcases List.mem_append.mp he with he | he
    · obtain ⟨f, hf, rfl⟩ := List.mem_map.mp he
      have hmem := hcreates.mem_sorted.mpr ⟨f, hf, rfl⟩
      exact ⟨_, List.mem_append_left _ (List.mem_map_of_mem hmem), rfl,
        alike_create (.of_shared (hcreates.field hf))⟩
    rcases List.mem_append.mp he with he | he
    · obtain ⟨f, hf, rfl⟩ := List.mem_map.mp he
      obtain ⟨u, hu, hread⟩ := hread.left _ (hupdates.mem_sorted.mpr ⟨f, hf, rfl⟩)
      exact ⟨_, List.mem_append_right _ (List.mem_append_left _ (List.mem_map_of_mem hu)), rfl,
        hchild f hf u hread⟩
    · obtain ⟨key, hkey, rfl⟩ := List.mem_map.mp he
      exact ⟨_, List.mem_append_right _ (List.mem_append_right _ he), rfl, alike_delete⟩
  · intro e' he'
    rcases List.mem_append.mp he' with he' | he'
    · obtain ⟨g, hg, rfl⟩ := List.mem_map.mp he'
      obtain ⟨f, hf, rfl⟩ := hcreates.mem_sorted.mp hg
      exact ⟨_, List.mem_append_left _ (List.mem_map_of_mem hf), rfl,
        alike_create (.of_shared (hcreates.field hf))⟩
    rcases List.mem_append.mp he' with he' | he'
    · obtain ⟨⟨key, u⟩, hu, rfl⟩ := List.mem_map.mp he'
      obtain ⟨j, hj, hread⟩ := hread.right _ hu
      obtain ⟨f, hf, heq⟩ := hupdates.mem_sorted.mp hj
      cases heq
      exact ⟨_, List.mem_append_right _ (List.mem_append_left _ (List.mem_map_of_mem hf)), rfl,
        hchild f hf u hread⟩
    · obtain ⟨key, hkey, rfl⟩ := List.mem_map.mp he'
      exact ⟨_, List.mem_append_right _ (List.mem_append_right _ he'), rfl, alike_delete⟩

/-- What an update makes of a child is the same in both languages. -/
theorem applyChild_sync {update : Json} (h : Shared update) {u : Update Json}
    (hu : Patch.readUpdate update.normal = .ok u) (hc : Same current c) :
    Sync Same (applyChild path update current)
      ((Patch.editNext path' u c).map fun o => o.getD c) := by
  induction update using updates_induction generalizing path path' u current c with
  | leaf update hleaf =>
      rw [readUpdate_leaf ((isObject_normal update).trans hleaf)] at hu
      cases hu
      exact leaf_sync h hleaf hc
  | object fields ih =>
      rw [normal_object] at hu
      obtain ⟨hformed, hnodup, us, hread, rfl⟩ := readUpdate_object.mp hu
      have hformed := h.formed_sorted.mp hformed
      have hkeys := (h.keysOf_sorted hformed).nodup_iff.mp hnodup
      rw [h.lookup_sorted, entries_normal] at hread
      rw [keysOf, h.lookup_sorted, h.lookup_sorted, h.lookup_sorted, entries_normal, entries_normal,
        strings_normal hformed, ← hread.keys, List.append_assoc] at hnodup
      rw [h.lookup_sorted, h.lookup_sorted, entries_normal, strings_normal hformed]
      cases current with
      | object target =>
          obtain ⟨hshared, rfl⟩ := hc
          have hkept : Kept (sorted target) ⟨sorted target, true⟩ := ⟨sorted_ofList, fun _ => rfl⟩
          rw [normal_object]
          show Sync Same ((applyParts path fields (applyUpdate path fields) target).map .object)
            ((Patch.editAt path' _ (.object (sorted target))).map fun o =>
              o.getD (.object (sorted target)))
          rw [editAt_object hkept hnodup]
          have hchild : ∀ e ∈ entries (fields.lookup "Update"), ∀ u,
              Patch.readUpdate e.2.normal = .ok u →
                Alike Same (childEdit path e) (nextEdit path' (e.1, u)) := fun e he u hu =>
            alike_update fun v w hvw => (ih e he ((h.entries _).field he) hu hvw).toOption
          obtain ⟨hleft, hright⟩ :=
            edits_alike h hread hchild (strings (fields.lookup "Delete"))
          have hstart : ∀ k, Option.Rel Same (value target k) (shown ⟨sorted target, true⟩ k) := by
            intro k
            rw [value, shown, hshared.lookup_sorted]
            cases hlookup : target.lookup k with
            | none => exact .none
            | some v => exact .some (.of_shared (hshared.lookup hlookup))
          refine Sync.map ((applyParts_runs path hkeys hshared.distinct).sync
            (editParts_runs path' hnodup hkept) hstart hleft hright) fun t s hts => ?_
          exact Same.object hts.1 hts.2.1.sorted hts.2.2
      | _ =>
          obtain ⟨-, rfl⟩ := hc
          exact .error _ _

end

/-! ### Applying a patch -/

section

variable [TextCodec]

/-- What Rust makes of a document: the patch is decoded, and applied to it. -/
def patched (document patch : Json) : Option Json := do
  let p ← (OrderedPatch.ofJson patch).toOption
  let next ← (p.apply (Value.ofJson document)).toOption
  return (next.getD (Value.ofJson document)).toJson

theorem patched_unread {document patch : Json} (h : ∀ p, Patch.read patch.normal ≠ .ok p) :
    patched document patch = none := by
  cases hread : Patch.read patch.normal with
  | error e =>
      rw [patched, ofJson_error hread]
      rfl
  | ok p => exact absurd hread (h p)

/-- A patch that decodes does to a document what the edit of the document does. -/
theorem patched_read {document patch : Json} {p : Patch Json}
    (h : Patch.read patch.normal = .ok p) (hvalid : p.validate Json.isObject = .ok ()) :
    patched document patch =
      ((p.editAt [] document.normal).map fun o => o.getD document.normal).toOption := by
  obtain ⟨q, hq, rfl⟩ := ofJson_ok h
  have hshows : (Value.ofJson document).toJson = document.normal :=
    Kind.toJson_ofJson document.canonical_normal
  have hedit := q.apply_edit (Value.ofJson document)
  rw [Patch.edit, hvalid, hshows] at hedit
  change Agree _ _ (q.toJson.editAt [] document.normal) at hedit
  rw [patched, hq]
  change ((q.apply _).toOption.bind fun next => some _) = _
  generalize q.toJson.editAt [] document.normal = y at hedit
  generalize q.apply (Value.ofJson document) = x at hedit
  cases hedit with
  | error e => rfl
  | ok hrel =>
      cases hrel with
      | none => exact congrArg some hshows
      | some h => exact congrArg some h

omit [TextCodec] in
theorem toOption_normal {ε ε' : Type*} {x : Except ε Json} {y : Except ε' Json} (h : Sync Same x y) :
    x.toOption.map Json.normal = y.toOption := by
  cases h with
  | error e e' => rfl
  | ok h => exact congrArg some h.normal

/-- A patch that does not decode is refused. -/
theorem applyCavlcPatch_unread {fields parts : List (String × Json)} {e : Error}
    (hpatch : Shared (.object parts))
    (h : Patch.readUpdate (Json.object parts).normal = .error e) :
    ∃ e', applyCavlcPatch fields (.object parts) = .error e' := by
  rw [applyCavlcPatch, validatePatch]
  cases hvalid : validateChild [] (.object parts) with
  | error e' => exact ⟨e', rfl⟩
  | ok _ =>
      obtain ⟨u, hu⟩ := (validateChild_iff hpatch []).mp hvalid
      rw [h] at hu
      cases hu

/-- A patch that decodes is applied as an update of the document. -/
theorem applyCavlcPatch_read {fields parts : List (String × Json)} {u : Update Json}
    (hpatch : Shared (.object parts))
    (h : Patch.readUpdate (Json.object parts).normal = .ok u) :
    (applyCavlcPatch fields (.object parts)).map Json.object =
      applyChild [] (.object parts) (.object fields) := by
  rw [applyCavlcPatch, validatePatch, (validateChild_iff hpatch []).mpr ⟨u, h⟩]
  rfl

/-- Both languages take the same patches, and what they make of a document is the same. -/
theorem applyCavlcPatch_patched {fields : List (String × Json)} {patch : Json}
    (hdocument : Shared (.object fields)) (hpatch : Shared patch) :
    (applyCavlcPatch fields patch).toOption.map (fun next => (Json.object next).normal) =
      patched (.object fields) patch := by
  cases hobject : patch.isObject with
  | false =>
      have hunread : ∀ p, Patch.read patch.normal ≠ .ok p := by
        intro p hp
        rw [← isObject_normal] at hobject
        cases hnormal : patch.normal with
        | object parts => rw [hnormal] at hobject; cases hobject
        | _ => rw [hnormal] at hp; cases hp
      rw [patched_unread hunread]
      cases patch with
      | object parts => cases hobject
      | _ => rfl
  | true =>
      obtain ⟨parts, rfl⟩ : ∃ parts, patch = .object parts := by
        cases patch with
        | object parts => exact ⟨parts, rfl⟩
        | _ => cases hobject
      cases hu : Patch.readUpdate (Json.object parts).normal with
      | error e =>
          obtain ⟨e', he'⟩ : ∃ e', applyCavlcPatch fields (.object parts) = .error e' :=
            applyCavlcPatch_unread hpatch hu
          rw [he', patched_unread fun p hp => by
            rw [normal_object] at hp hu
            rw [read_object.mp hp] at hu
            cases hu]
          rfl
      | ok u =>
          have hvalid := validateUpdate_read hu ""
          have hsync : Sync Same (applyChild [] (.object parts) (.object fields))
              ((Patch.editNext [] u (Json.object fields).normal).map fun o =>
                o.getD (Json.object fields).normal) :=
            applyChild_sync hpatch hu (.of_shared hdocument)
          rw [← applyCavlcPatch_read hpatch hu] at hsync
          rw [normal_object] at hu
          obtain ⟨-, -, us, -, rfl⟩ := readUpdate_object.mp hu
          have hread := read_object.mpr hu
          rw [← normal_object] at hread
          rw [patched_read hread hvalid]
          refine Eq.trans ?_ (toOption_normal hsync)
          cases applyCavlcPatch fields (.object parts) <;> rfl

end

section Nested

def seven : Json := .object [("b", .number (.int 7)), ("a", .object [("c", .null)])]

def nestsAndDeletes : Json := .object [("Delete", .array [.string "b"]),
  ("Update", .object [("a", .object [("Create", .object [("d", .array [])])])])]

theorem seven_shared : Shared seven := by
  refine .object (by decide) fun f hf => ?_
  simp only [List.mem_cons, List.not_mem_nil, or_false] at hf
  rcases hf with rfl | rfl
  · exact .number (by decide)
  · refine .object (by decide) fun f hf => ?_
    rw [List.mem_singleton.mp hf]
    exact .null

theorem nestsAndDeletes_shared : Shared nestsAndDeletes := by
  have hcreate : Shared (.object [("d", .array [])]) := .object (by decide) fun f hf => by
    rw [List.mem_singleton.mp hf]
    exact .array nofun
  have hupdate : Shared (.object [("Create", .object [("d", .array [])])]) :=
    .object (by decide) fun f hf => by rwa [List.mem_singleton.mp hf]
  refine .object (by decide) fun f hf => ?_
  simp only [List.mem_cons, List.not_mem_nil, or_false] at hf
  rcases hf with rfl | rfl
  · refine .array fun j hj => ?_
    rw [List.mem_singleton.mp hj]
    exact .string "b"
  · exact .object (by decide) fun f hf => by rwa [List.mem_singleton.mp hf]

theorem nested_patched : @patched codec seven nestsAndDeletes =
    some (.object [("a", .object [("c", .null), ("d", .array [])])]) := by
  have h := @applyCavlcPatch_patched codec _ _ seven_shared nestsAndDeletes_shared
  exact h.symm.trans rfl

end Nested

end Lug.Ts
