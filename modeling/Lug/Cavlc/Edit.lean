import Lug.Cavlc.Patch
import Lug.Lib.Agree

/-!
The same edits on plain JSON documents, and the proof that a patch applied to
trees does exactly that: what `apply` answers depends on nothing but the document
the trees show.
-/

namespace Lug.Cavlc

open SortedMap

/-- The fields an edit of a document works on; `same` as in a `Draft`. -/
structure Sheet where
  fields : List (String × Json)
  same : Bool

namespace Sheet

def insert (s : Sheet) (key : String) (value : Json) : Sheet :=
  { fields := SortedMap.insert key value s.fields, same := false }

def erase (s : Sheet) (key : String) : Sheet :=
  { fields := SortedMap.erase key s.fields,
    same := s.same && (s.fields.lookup key).isNone }

end Sheet

namespace Patch

def editCreate (path : List String) : List (String × Json) → Sheet → Except Error Sheet
  | [], s => .ok s
  | (key, child) :: rest, s =>
      if (s.fields.lookup key).isSome then
        .error (.precondition (path ++ [key]) "Create requires an absent key")
      else editCreate path rest (s.insert key child)

def editDelete (path : List String) : List String → Sheet → Except Error Sheet
  | [], s => .ok s
  | key :: rest, s =>
      if (s.fields.lookup key).isNone then
        .error (.precondition (path ++ [key]) "Delete requires an existing key")
      else editDelete path rest (s.erase key)

mutual

/-- A patch on a document; `none` where nothing changed. -/
def editAt (path : List String) : Patch Json → Json → Except Error (Option Json)
  | .mk create update delete, .object original => do
      let s ← editCreate path create ⟨original, true⟩
      let s ← editUpdate path update s
      let s ← editDelete path delete s
      return if s.same || (original.isEmpty && s.fields.isEmpty) then none
        else some (.object s.fields)
  | _, _ => .error (.precondition path "expected an object")

def editUpdate (path : List String) :
    List (String × Update Json) → Sheet → Except Error Sheet
  | [], s => .ok s
  | (key, update) :: rest, s =>
      match s.fields.lookup key with
      | none =>
          .error (.precondition (path ++ [key])
            "Update requires an existing key; use Create first")
      | some current => do
          match ← editNext (path ++ [key]) update current with
          | none => editUpdate path rest s
          | some next => editUpdate path rest (s.insert key next)

def editNext (path : List String) : Update Json → Json → Except Error (Option Json)
  | .object patch, current => editAt path patch current
  | .value child, current =>
      if current.isObject then
        .error (.precondition path "cannot replace an object; Delete it before Create")
      else if child.eq current then .ok none
      else .ok (some child)

end

def edit (p : Patch Json) (document : Json) : Except Error (Option Json) := do
  p.validate Json.isObject
  p.editAt [] document

end Patch

/-- The tree is well formed and shows this document. -/
structure Kind.Shows (k : Kind) (j : Json) : Prop where
  wellFormed : k.WellFormed
  toJson : k.toJson = j

structure Draft.Shows (d : Draft) (s : Sheet) : Prop where
  map : (Kind.object d.map).Shows (.object s.fields)
  same : d.same = s.same

namespace Kind.Shows

variable {map : Link String Kind} {fields : List (String × Json)}

theorem fields_eq (h : (Kind.object map).Shows (.object fields)) :
    mapValues Kind.toJson map.toList = fields := by
  have hjson := h.toJson
  rw [toJson_object, Json.object.injEq] at hjson
  exact hjson

theorem sorted (h : (Kind.object map).Shows (.object fields)) : Sorted map.toList := by
  cases h.wellFormed with
  | object _ sorted _ => exact sorted

/-- Reading a key of the map is reading it in the document. -/
theorem get (h : (Kind.object map).Shows (.object fields)) (key : String) :
    Option.Rel Kind.Shows (map.get key) (fields.lookup key) := by
  rw [Link.get_eq_lookup key map h.sorted, ← h.fields_eq, lookup_mapValues]
  cases hlookup : map.toList.lookup key with
  | none => exact .none
  | some k =>
      cases h.wellFormed with
      | object _ _ hall => exact .some ⟨hall _ (mem_of_lookup hlookup), rfl⟩

theorem insert (h : (Kind.object map).Shows (.object fields)) {k : Kind} {j : Json}
    (hk : k.Shows j) (key : String) :
    (Kind.object (map.insert (key, k))).Shows (.object (SortedMap.insert key j fields)) := by
  have hlist := Link.toList_insert (key, k) map h.sorted
  refine ⟨?_, ?_⟩
  · cases h.wellFormed with
    | object cached sorted hall =>
        refine .object (cached.insert _) (hlist ▸ sorted_insert sorted) fun e he => ?_
        rw [hlist, mem_insert] at he
        cases he with
        | inl hnew => exact hnew ▸ hk.wellFormed
        | inr hold => exact hall e hold.1
  · rw [toJson_object, hlist, mapValues_insert, hk.toJson, h.fields_eq]

theorem remove (h : (Kind.object map).Shows (.object fields)) (key : String) :
    (Kind.object (map.remove key).1).Shows (.object (SortedMap.erase key fields)) := by
  have hlist := Link.toList_remove key map h.sorted
  refine ⟨?_, ?_⟩
  · cases h.wellFormed with
    | object cached sorted hall =>
        refine .object (cached.remove key) (hlist ▸ sorted_erase sorted) fun e he => ?_
        rw [hlist, mem_erase] at he
        exact hall e he.1
  · rw [toJson_object, hlist, mapValues_erase, h.fields_eq]

end Kind.Shows

namespace Draft.Shows

variable {d : Draft} {s : Sheet}

theorem get (h : d.Shows s) (key : String) :
    Option.Rel Kind.Shows (d.map.get key) (s.fields.lookup key) :=
  h.map.get key

theorem insert (h : d.Shows s) (key : String) {k : Kind} {j : Json} (hk : k.Shows j) :
    (d.insert key k).Shows (s.insert key j) :=
  ⟨h.map.insert hk key, rfl⟩

theorem remove (h : d.Shows s) (key : String) : (d.remove key).Shows (s.erase key) := by
  refine ⟨h.map.remove key, ?_⟩
  have hfound : (d.map.remove key).2 = (s.fields.lookup key).isSome := by
    rw [Link.remove_found, (h.get key).isSome_eq]
  simp only [Draft.remove, Sheet.erase, hfound, h.same, Option.not_isSome]

theorem ptrEq (h : d.Shows s) {original : Link String Kind} {fields : List (String × Json)}
    (ho : (Kind.object original).Shows (.object fields)) :
    d.ptrEq original = (s.same || (fields.isEmpty && s.fields.isEmpty)) := by
  simp only [Draft.ptrEq, Link.isEmpty_eq, h.same, ← h.map.fields_eq, ← ho.fields_eq, mapValues,
    List.isEmpty_map]

end Draft.Shows

theorem Value.shows (v : Value) : v.kind.Shows v.toJson := ⟨v.wellFormed, rfl⟩

theorem Kind.Shows.isObject {k : Kind} {j : Json} (h : k.Shows j) :
    k.asObject.isSome = j.isObject := by
  obtain ⟨hk, rfl⟩ := h
  cases hk with
  | object => simp [Kind.asObject, Json.isObject]
  | @atom value leaf =>
      cases value with
      | object fields => exact absurd rfl (leaf fields)
      | _ => rfl

/-- Comparing with a leaf is comparing the documents. -/
theorem Kind.Shows.eq_leaf {k : Kind} {j : Json} (h : k.Shows j) (hleaf : j.isObject = false)
    (child : Kind) : child.eq k = child.toJson.eq j := by
  obtain ⟨hk, rfl⟩ := h
  cases hk with
  | object => simp [Json.isObject] at hleaf
  | atom leaf => exact Kind.eq_atom leaf child

namespace Patch

theorem applyCreate_edit (path : List String) (create : List (String × Value)) {d : Draft}
    {s : Sheet} (h : d.Shows s) :
    Agree Draft.Shows (applyCreate path create d)
      (editCreate path (mapValues Value.toJson create) s) := by
  induction create generalizing d s with
  | nil => exact .ok h
  | cons e rest ih =>
      obtain ⟨key, child⟩ := e
      have hget := (h.get key).isSome_eq
      simp only [applyCreate, mapValues, List.map_cons, editCreate, hget]
      split_ifs
      · exact .error _
      · exact ih (h.insert key child.shows)

theorem applyDelete_edit (path : List String) (delete : List String) {d : Draft}
    {s : Sheet} (h : d.Shows s) :
    Agree Draft.Shows (applyDelete path delete d) (editDelete path delete s) := by
  induction delete generalizing d s with
  | nil => exact .ok h
  | cons key rest ih =>
      have hget : (d.map.get key).isNone = (s.fields.lookup key).isNone := by
        rw [← Option.not_isSome, (h.get key).isSome_eq, Option.not_isSome]
      simp only [applyDelete, editDelete, hget]
      split_ifs
      · exact .error _
      · exact ih (h.remove key)

mutual

/-- Applying a patch to a tree is editing the document it shows. -/
theorem applyAt_edit (path : List String) (p : Patch Value) {k : Kind} {j : Json}
    (h : k.Shows j) :
    Agree (Option.Rel Kind.Shows) (applyAt path p k) (editAt path (map Value.toJson p) j) :=
  match p with
  | .mk create update delete => by
      cases k with
      | atom value =>
          have hleaf := h.isObject
          cases j with
          | object fields => cases hleaf
          | _ => exact .error _
      | object original =>
          obtain ⟨fields, rfl⟩ : ∃ fields, j = .object fields :=
            ⟨_, by rw [← h.toJson, Kind.toJson_object]⟩
          refine .bind (applyCreate_edit path create ⟨h, rfl⟩) fun d₁ s₁ h₁ => ?_
          refine .bind (applyUpdate_edit path update h₁) fun d₂ s₂ h₂ => ?_
          refine .bind (applyDelete_edit path delete h₂) fun d₃ s₃ h₃ => .ok ?_
          rw [h₃.ptrEq h]
          split_ifs
          · exact .none
          · exact .some h₃.map

theorem applyUpdate_edit (path : List String) (update : List (String × Update Value)) {d : Draft}
    {s : Sheet} (h : d.Shows s) :
    Agree Draft.Shows (applyUpdate path update d)
      (editUpdate path (mapUpdates Value.toJson update) s) :=
  match update with
  | [] => .ok h
  | (key, u) :: rest => by
      rw [applyUpdate, mapUpdates, editUpdate]
      have hget := h.get key
      generalize d.map.get key = current at hget
      generalize s.fields.lookup key = shown at hget
      cases hget with
      | none => exact .error _
      | some hcurrent =>
          refine .bind (applyNext_edit (path ++ [key]) u hcurrent) fun next shown hnext => ?_
          cases hnext with
          | none => exact applyUpdate_edit path rest h
          | some hchild => exact applyUpdate_edit path rest (h.insert key hchild)

theorem applyNext_edit (path : List String) (u : Update Value) {k : Kind} {j : Json}
    (h : k.Shows j) :
    Agree (Option.Rel Kind.Shows) (applyNext path u k) (editNext path (mapUpdate Value.toJson u) j) :=
  match u with
  | .object patch => applyAt_edit path patch h
  | .value child => by
      rw [applyNext, mapUpdate, editNext, h.isObject]
      by_cases hobject : j.isObject = true
      · rw [if_pos hobject, if_pos hobject]
        exact .error _
      · rw [if_neg hobject, if_neg hobject, h.eq_leaf (by simpa using hobject)]
        change Agree _ (if child.toJson.eq j = true then _ else _) _
        split_ifs
        · exact .ok .none
        · exact .ok (.some child.shows)

end

variable {α β : Type}

theorem mapUpdates_keys (f : α → β) (update : List (String × Update α)) :
    (mapUpdates f update).map Prod.fst = update.map Prod.fst := by
  induction update with
  | nil => rfl
  | cons e rest ih => simp [mapUpdates, ih]

mutual

/-- Validity looks at the leaves no further than whether they are objects. -/
theorem validate_map (f : α → β) (isObject : β → Bool) :
    ∀ p : Patch α, (map f p).validate isObject = p.validate fun a => isObject (f a)
  | .mk create update delete => by
      have hkeys : (mapValues f create).map Prod.fst = create.map Prod.fst := by
        simp [mapValues]
      rw [map, validate, validate, hkeys, mapUpdates_keys, validateUpdates_map]

theorem validateUpdates_map (f : α → β) (isObject : β → Bool) :
    ∀ update : List (String × Update α), validateUpdates isObject (mapUpdates f update) =
      validateUpdates (fun a => isObject (f a)) update
  | [] => rfl
  | (key, u) :: rest => by
      rw [mapUpdates, validateUpdates, validateUpdates, validateUpdate_map,
        validateUpdates_map f isObject rest]

theorem validateUpdate_map (f : α → β) (isObject : β → Bool) (key : String) :
    ∀ u : Update α, validateUpdate isObject key (mapUpdate f u) =
      validateUpdate (fun a => isObject (f a)) key u
  | .object patch => validate_map f isObject patch
  | .value _ => rfl

end

/-- Applying a patch to a tree is editing the document it shows. -/
theorem apply_edit (p : Patch Value) {k : Kind} {j : Json} (h : k.Shows j) :
    Agree (Option.Rel Kind.Shows) (p.apply k) ((p.map Value.toJson).edit j) := by
  have hvalid : (p.map Value.toJson).validate Json.isObject =
      p.validate fun v => v.asObject.isSome := by
    rw [validate_map]
    congr 1
    funext v
    exact v.shows.isObject.symm
  rw [apply, edit, hvalid]
  cases p.validate fun v => v.asObject.isSome with
  | error e => exact .error e
  | ok _ => exact p.applyAt_edit [] h

end Patch

end Lug.Cavlc
