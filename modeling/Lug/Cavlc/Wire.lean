import Lug.Cavlc.Edit
import Lug.Core.Reducible

/-!
The JSON form of a patch: what `Serialize` writes, what `TryFrom` accepts, and
that a valid patch that was written reads back as itself.
-/

namespace Lug.Cavlc

open SortedMap

namespace Patch

variable {α β : Type}

mutual

/-- The `BTreeMap`s of a patch hold their keys in order. -/
def Ordered : Patch α → Prop
  | .mk create update _ => Sorted create ∧ Sorted update ∧ OrderedUpdates update

def OrderedUpdates : List (String × Update α) → Prop
  | [] => True
  | (_, update) :: rest => OrderedUpdate update ∧ OrderedUpdates rest

def OrderedUpdate : Update α → Prop
  | .object patch => Ordered patch
  | .value _ => True

end

theorem ordered_nil : Ordered (.mk [] [] [] : Patch α) := ⟨sorted_nil, sorted_nil, trivial⟩

mutual

/-- Every leaf of the patch has the property. -/
def All (P : α → Prop) : Patch α → Prop
  | .mk create update _ => (∀ e ∈ create, P e.2) ∧ AllUpdates P update

def AllUpdates (P : α → Prop) : List (String × Update α) → Prop
  | [] => True
  | (_, update) :: rest => AllUpdate P update ∧ AllUpdates P rest

def AllUpdate (P : α → Prop) : Update α → Prop
  | .object patch => All P patch
  | .value child => P child

end

mutual

theorem ordered_map (f : α → β) : ∀ p : Patch α, Ordered (map f p) ↔ Ordered p
  | .mk create update delete => by
      have hsorted : Sorted (mapUpdates f update) ↔ Sorted update := by
        rw [Sorted, mapUpdates_keys, Sorted]
      rw [map, Ordered, Ordered, sorted_mapValues, hsorted, orderedUpdates_map f update]

theorem orderedUpdates_map (f : α → β) :
    ∀ update : List (String × Update α), OrderedUpdates (mapUpdates f update) ↔
      OrderedUpdates update
  | [] => Iff.rfl
  | (_, u) :: rest => by
      rw [mapUpdates, OrderedUpdates, OrderedUpdates, orderedUpdate_map f u,
        orderedUpdates_map f rest]

theorem orderedUpdate_map (f : α → β) :
    ∀ u : Update α, OrderedUpdate (mapUpdate f u) ↔ OrderedUpdate u
  | .object patch => ordered_map f patch
  | .value _ => Iff.rfl

end

mutual

theorem map_map_of_all {P : α → Prop} {f : α → β} {g : β → α} (h : ∀ a, P a → g (f a) = a) :
    ∀ p : Patch α, All P p → map g (map f p) = p
  | .mk create update delete, ⟨hcreate, hupdate⟩ => by
      rw [map, map, mapValues_mapValues, mapValues_eq_self fun e he => h e.2 (hcreate e he),
        mapUpdates_of_all h update hupdate]

theorem mapUpdates_of_all {P : α → Prop} {f : α → β} {g : β → α} (h : ∀ a, P a → g (f a) = a) :
    ∀ update : List (String × Update α), AllUpdates P update →
      mapUpdates g (mapUpdates f update) = update
  | [], _ => rfl
  | (_, u) :: rest, ⟨hu, hrest⟩ => by
      rw [mapUpdates, mapUpdates, mapUpdate_of_all h u hu, mapUpdates_of_all h rest hrest]

theorem mapUpdate_of_all {P : α → Prop} {f : α → β} {g : β → α} (h : ∀ a, P a → g (f a) = a) :
    ∀ u : Update α, AllUpdate P u → mapUpdate g (mapUpdate f u) = u
  | .object patch, hu => by rw [mapUpdate, mapUpdate, map_map_of_all h patch hu]
  | .value child, hu => by rw [mapUpdate, mapUpdate, h child hu]

end

mutual

theorem all_map {P : β → Prop} {f : α → β} (h : ∀ a, P (f a)) : ∀ p : Patch α, All P (map f p)
  | .mk create update delete => by
      refine ⟨fun e he => ?_, allUpdates_map h update⟩
      obtain ⟨c, -, rfl⟩ := List.mem_map.mp he
      exact h c.2

theorem allUpdates_map {P : β → Prop} {f : α → β} (h : ∀ a, P (f a)) :
    ∀ update : List (String × Update α), AllUpdates P (mapUpdates f update)
  | [] => trivial
  | (_, u) :: rest => ⟨allUpdate_map h u, allUpdates_map h rest⟩

theorem allUpdate_map {P : β → Prop} {f : α → β} (h : ∀ a, P (f a)) :
    ∀ u : Update α, AllUpdate P (mapUpdate f u)
  | .object patch => all_map h patch
  | .value child => h child

end

theorem validateUpdates_of_validate {isObject : α → Bool} {create : List (String × α)}
    {update : List (String × Update α)} {delete : List String}
    (h : (Patch.mk create update delete).validate isObject = .ok ()) :
    validateUpdates isObject update = .ok () := by
  rw [validate] at h
  cases hkeys : repeated [] (create.map Prod.fst ++ update.map Prod.fst ++ delete) with
  | some key => simp only [hkeys, reduceCtorEq] at h
  | none => simpa only [hkeys] using h

/-- A field of the patch, left out where it is empty. -/
def field (key : String) (skip : Bool) (value : Json) : List (String × Json) :=
  if skip then [] else [(key, value)]

mutual

/-- `Serialize for Patch`: the fields in the order they are declared. -/
def encode : Patch Json → Json
  | .mk create update delete => .object
      (field "Create" create.isEmpty (.object create) ++
        field "Update" update.isEmpty (.object (encodeUpdates update)) ++
        field "Delete" delete.isEmpty (.array (delete.map .string)))

def encodeUpdates : List (String × Update Json) → List (String × Json)
  | [] => []
  | (key, update) :: rest => (key, encodeUpdate update) :: encodeUpdates rest

def encodeUpdate : Update Json → Json
  | .object patch => encode patch
  | .value child => child

end

variable [TextCodec]

/-- `take`: the field of that name, if the document has one. -/
def take (fields : List (String × Json)) (key : String) (read : Json → Except String (List α)) :
    Except Error (List α) :=
  match fields.lookup key with
  | none => .ok []
  | some value => (read value).mapError fun e => .invalidPatch (key ++ ": " ++ e)

/-- A map of JSON values. -/
def readFields : Json → Except String (List (String × Json))
  | .object fields => .ok fields
  | value => .error (TextCodec.invalidType value "a map")

def readString : Json → Except String String
  | .string s => .ok s
  | value => .error (TextCodec.invalidType value "a string")

/-- A list of strings. -/
def readStrings : Json → Except String (List String)
  | .array items => items.mapM readString
  | value => .error (TextCodec.invalidType value "a sequence")

/-- `TryFrom` for a patch, behind the reading of its updates. -/
def assemble (fields : List (String × Json))
    (update : Except Error (List (String × Update Json))) : Except Error (Patch Json) := do
  match (fields.map Prod.fst).find? (· ∉ ["Create", "Update", "Delete"]) with
  | some key => throw (.invalidPatch ("unknown operation " ++ debugStr key))
  | none =>
    let create ← take fields "Create" readFields
    let update ← update
    let delete ← take fields "Delete" readStrings
    let patch := Patch.mk create update delete
    patch.validate Json.isObject
    return patch

mutual

/-- `TryFrom` for an update. -/
def readUpdate : Json → Except Error (Update Json)
  | .object fields => (assemble fields (takeUpdate fields)).map .object
  | value => .ok (.value value)

def takeUpdate : List (String × Json) → Except Error (List (String × Update Json))
  | [] => .ok []
  | (key, value) :: fields =>
      if key = "Update" then
        (readUpdates value).mapError fun e => .invalidPatch ("Update: " ++ e)
      else takeUpdate fields

/-- A map of updates. -/
def readUpdates : Json → Except String (List (String × Update Json))
  | .object fields => readEach fields
  | value => .error (TextCodec.invalidType value "a map")

def readEach : List (String × Json) → Except String (List (String × Update Json))
  | [] => .ok []
  | (key, value) :: fields => do
      let update ← (readUpdate value).mapError Error.display
      let updates ← readEach fields
      return (key, update) :: updates

end

/-- `Deserialize for Patch`. -/
def read : Json → Except String (Patch Json)
  | .object fields => (assemble fields (takeUpdate fields)).mapError Error.display
  | value => .error (TextCodec.invalidType value "a map")

section Document

omit [TextCodec]

variable {create : List (String × Json)} {update : List (String × Update Json)}
  {delete : List String}

/-- The document of a patch as it reads back. -/
def document (create : List (String × Json)) (update : List (String × Update Json))
    (delete : List String) : List (String × Json) :=
  ofList (mapValues Json.normal (field "Create" create.isEmpty (.object create) ++
    field "Update" update.isEmpty (.object (encodeUpdates update)) ++
    field "Delete" delete.isEmpty (.array (delete.map .string))))

theorem normal_encode :
    (encode (.mk create update delete)).normal = .object (document create update delete) := by
  rw [encode, Json.normal_object, document]

theorem lookup_document (key : String) : (document create update delete).lookup key =
    ((field "Create" create.isEmpty (.object create) ++
      field "Update" update.isEmpty (.object (encodeUpdates update)) ++
      field "Delete" delete.isEmpty (.array (delete.map .string))).lookup key).map Json.normal := by
  rw [document, lookup_ofList, lookup_mapValues]
  cases create.isEmpty <;> cases update.isEmpty <;> cases delete.isEmpty <;> simp [field, mapValues]

theorem lookup_create : (document create update delete).lookup "Create" =
    if create.isEmpty then none else some (Json.object create).normal := by
  rw [lookup_document]
  cases create.isEmpty <;> cases update.isEmpty <;> cases delete.isEmpty <;> rfl

theorem lookup_update : (document create update delete).lookup "Update" =
    if update.isEmpty then none else some (Json.object (encodeUpdates update)).normal := by
  rw [lookup_document]
  cases create.isEmpty <;> cases update.isEmpty <;> cases delete.isEmpty <;> rfl

theorem lookup_delete : (document create update delete).lookup "Delete" =
    if delete.isEmpty then none else some (Json.array (delete.map .string)).normal := by
  rw [lookup_document]
  cases create.isEmpty <;> cases update.isEmpty <;> cases delete.isEmpty <;> rfl

theorem mem_field {key : String} {skip : Bool} {value : Json} {e : String × Json}
    (h : e ∈ field key skip value) : e.1 = key := by
  cases skip with
  | true => cases h
  | false => rw [List.mem_singleton.mp h]

/-- Nothing else stands in the document. -/
theorem document_known :
    ((document create update delete).map Prod.fst).find?
      (· ∉ ["Create", "Update", "Delete"]) = none := by
  rw [List.find?_eq_none]
  intro key hkey
  obtain ⟨f, hf, rfl⟩ := List.mem_map.mp hkey
  obtain ⟨g, hg, rfl⟩ := List.mem_map.mp (mem_of_mem_ofList hf)
  rw [List.mem_append, List.mem_append] at hg
  rcases hg with (hcreate | hupdate) | hdelete
  · simp [mem_field hcreate]
  · simp [mem_field hupdate]
  · simp [mem_field hdelete]

theorem encodeUpdates_keys (update : List (String × Update Json)) :
    (encodeUpdates update).map Prod.fst = update.map Prod.fst := by
  induction update with
  | nil => rfl
  | cons e rest ih => simp [encodeUpdates, ih]

end Document

theorem takeUpdate_eq (fields : List (String × Json)) :
    takeUpdate fields = match fields.lookup "Update" with
      | none => .ok []
      | some value => (readUpdates value).mapError fun e => .invalidPatch ("Update: " ++ e) := by
  induction fields with
  | nil => rfl
  | cons f fields ih =>
      obtain ⟨key, value⟩ := f
      rw [takeUpdate, List.lookup_cons]
      by_cases hkey : key = "Update"
      · simp [hkey]
      · have hne : ("Update" == key) = false := by simpa using Ne.symm hkey
        rw [if_neg hkey, hne, ih]

theorem readStrings_map (delete : List String) :
    readStrings (.array (delete.map .string)) = .ok delete := by
  induction delete with
  | nil => rfl
  | cons s delete ih =>
      rw [readStrings] at ih ⊢
      rw [List.map_cons, List.mapM_cons, ih]
      rfl

/-- A document that reads its three parts assembles the patch they make. -/
theorem assemble_document {create : List (String × Json)}
    {update : List (String × Update Json)} {delete : List String} (sorted : Sorted create)
    (canonical : ∀ e ∈ create, e.2.Canonical)
    (hupdate : readUpdates (Json.object (encodeUpdates update)).normal = .ok update)
    (hvalid : (Patch.mk create update delete).validate Json.isObject = .ok ()) :
    assemble (document create update delete) (takeUpdate (document create update delete)) =
      .ok (.mk create update delete) := by
  have hcreate : take (document create update delete) "Create" readFields = .ok create := by
    rw [take, lookup_create, (Json.Canonical.object sorted canonical).normal_eq]
    cases create with
    | nil => rfl
    | cons => rfl
  have htake : takeUpdate (document create update delete) = .ok update := by
    rw [takeUpdate_eq, lookup_update]
    cases update with
    | nil => rfl
    | cons e rest =>
        change (readUpdates (Json.object (encodeUpdates (e :: rest))).normal).mapError _ = _
        rw [hupdate]
        rfl
  have hdelete : take (document create update delete) "Delete" readStrings = .ok delete := by
    have hcanonical : (Json.array (delete.map .string)).Canonical := by
      refine .array fun j hj => ?_
      obtain ⟨s, -, rfl⟩ := List.mem_map.mp hj
      exact .string s
    rw [take, lookup_delete, hcanonical.normal_eq]
    cases delete with
    | nil => rfl
    | cons s rest =>
        change (readStrings (.array ((s :: rest).map .string))).mapError _ = _
        rw [readStrings_map]
        rfl
  rw [assemble, document_known, hcreate, htake, hdelete]
  simp [bind, Except.bind, hvalid, pure, Except.pure]

theorem readUpdates_encode {update : List (String × Update Json)} (sorted : Sorted update)
    (heach : readEach (mapValues Json.normal (encodeUpdates update)) = .ok update) :
    readUpdates (Json.object (encodeUpdates update)).normal = .ok update := by
  have hsorted : Sorted (mapValues Json.normal (encodeUpdates update)) := by
    rw [sorted_mapValues, Sorted, encodeUpdates_keys]
    exact sorted
  rw [Json.normal_object, ofList_of_sorted hsorted, readUpdates, heach]

mutual

theorem readUpdate_encode (key : String) (u : Update Json) (ordered : OrderedUpdate u)
    (canonical : AllUpdate Json.Canonical u)
    (hvalid : validateUpdate Json.isObject key u = .ok ()) :
    readUpdate (encodeUpdate u).normal = .ok u :=
  match u with
  | .object (.mk create update delete) => by
      obtain ⟨hcreate, hupdate, hrest⟩ := ordered
      obtain ⟨hleaves, hupdates⟩ := canonical
      have heach := readEach_encode update hrest hupdates (validateUpdates_of_validate hvalid)
      rw [encodeUpdate, normal_encode, readUpdate,
        assemble_document hcreate hleaves (readUpdates_encode hupdate heach) hvalid]
      rfl
  | .value child => by
      have hleaf : child.isObject = false := by
        by_contra hobject
        simp [validateUpdate, hobject] at hvalid
      rw [encodeUpdate, Json.Canonical.normal_eq canonical]
      cases child with
      | object fields => cases hleaf
      | _ => rfl

theorem readEach_encode (update : List (String × Update Json)) (ordered : OrderedUpdates update)
    (canonical : AllUpdates Json.Canonical update)
    (hvalid : validateUpdates Json.isObject update = .ok ()) :
    readEach (mapValues Json.normal (encodeUpdates update)) = .ok update :=
  match update with
  | [] => rfl
  | (key, u) :: rest => by
      obtain ⟨hu, hrest⟩ := ordered
      obtain ⟨hcu, hcrest⟩ := canonical
      rw [validateUpdates] at hvalid
      cases hkey : validateUpdate Json.isObject key u with
      | error e => simp [hkey] at hvalid
      | ok _ =>
          rw [hkey] at hvalid
          have hhead := readUpdate_encode key u hu hcu hkey
          have htail := readEach_encode rest hrest hcrest hvalid
          rw [encodeUpdates, mapValues, List.map_cons, readEach, hhead]
          rw [mapValues] at htail
          rw [htail]
          rfl

end

/-- A valid patch that was written reads back as itself. -/
theorem read_encode {p : Patch Json} (ordered : Ordered p) (canonical : All Json.Canonical p)
    (hvalid : p.validate Json.isObject = .ok ()) : read (encode p).normal = .ok p := by
  have hread := readUpdate_encode "" (.object p) ordered canonical hvalid
  obtain ⟨create, update, delete⟩ := p
  rw [encodeUpdate, normal_encode, readUpdate, Except.map_eq_ok] at hread
  obtain ⟨q, hassemble, hq⟩ := hread
  cases hq
  rw [normal_encode, read, hassemble]
  rfl

/-- A patch is assembled from the readings of its three fields, and of nothing
else. -/
theorem assemble_ok {fields : List (String × Json)}
    {updates : Except Error (List (String × Update Json))} {p : Patch Json}
    (h : assemble fields updates = .ok p) :
    ∃ create update delete, p = .mk create update delete ∧
      take fields "Create" readFields = .ok create ∧ updates = .ok update ∧
      take fields "Delete" readStrings = .ok delete ∧
      ∀ f ∈ fields, f.1 = "Create" ∨ f.1 = "Update" ∨ f.1 = "Delete" := by
  unfold assemble at h
  cases hkey : (fields.map Prod.fst).find? (· ∉ ["Create", "Update", "Delete"]) with
  | some key =>
      rw [hkey] at h
      cases h
  | none =>
      rw [hkey] at h
      obtain ⟨create, hcreate, h⟩ := Except.bind_eq_ok.mp h
      obtain ⟨update, hupdate, h⟩ := Except.bind_eq_ok.mp h
      obtain ⟨delete, hdelete, h⟩ := Except.bind_eq_ok.mp h
      obtain ⟨-, -, h⟩ := Except.bind_eq_ok.mp h
      cases h
      refine ⟨create, update, delete, rfl, hcreate, hupdate, hdelete, fun f hf => ?_⟩
      rw [List.find?_eq_none] at hkey
      have hknown := hkey f.1 (List.mem_map_of_mem hf)
      simpa [or_iff_not_imp_left] using hknown

omit [TextCodec] in
theorem take_ok {fields : List (String × Json)} {key : String}
    {read : Json → Except String (List α)} {xs : List α} (h : take fields key read = .ok xs) :
    fields.lookup key = none ∧ xs = [] ∨
      ∃ value, fields.lookup key = some value ∧ read value = .ok xs := by
  rw [take] at h
  cases hlookup : fields.lookup key with
  | none =>
      simp only [hlookup, Except.ok.injEq] at h
      exact .inl ⟨rfl, h.symm⟩
  | some value =>
      simp only [hlookup, Except.mapError_eq_ok] at h
      exact .inr ⟨value, rfl, h⟩

theorem takeUpdate_ok {fields : List (String × Json)} {us : List (String × Update Json)}
    (h : takeUpdate fields = .ok us) : fields.lookup "Update" = none ∧ us = [] ∨
      ∃ value, fields.lookup "Update" = some value ∧ readUpdates value = .ok us := by
  rw [takeUpdate_eq] at h
  exact take_ok h

theorem readEach_ordered {fields : List (String × Json)}
    (h : ∀ f ∈ fields, ∀ u, readUpdate f.2 = .ok u → OrderedUpdate u) {us}
    (hread : readEach fields = .ok us) :
    us.map Prod.fst = fields.map Prod.fst ∧ OrderedUpdates us := by
  induction fields generalizing us with
  | nil =>
      cases hread
      exact ⟨rfl, trivial⟩
  | cons f fields ih =>
      obtain ⟨key, value⟩ := f
      rw [readEach] at hread
      obtain ⟨u, hu, hread⟩ := Except.bind_eq_ok.mp hread
      obtain ⟨rest, hrest, hread⟩ := Except.bind_eq_ok.mp hread
      cases hread
      obtain ⟨hkeys, hordered⟩ := ih (fun f hf => h f (List.mem_cons_of_mem _ hf)) hrest
      rw [Except.mapError_eq_ok] at hu
      exact ⟨by simp [hkeys], h (key, value) List.mem_cons_self u hu, hordered⟩

/-- Whatever is read from a JSON value holds its keys in order. -/
theorem readUpdate_ordered {j : Json} (h : j.Canonical) :
    (∀ u, readUpdate j = .ok u → OrderedUpdate u) ∧
      ∀ us, readUpdates j = .ok us → Sorted us ∧ OrderedUpdates us := by
  induction h with
  | @object fields sorted hall ih =>
      constructor
      · intro u hu
        rw [readUpdate] at hu
        obtain ⟨p, hassemble, rfl⟩ := Except.map_eq_ok.mp hu
        obtain ⟨create, update, delete, rfl, hcreate, hupdate, -⟩ := assemble_ok hassemble
        refine ⟨?_, ?_⟩
        · rcases take_ok hcreate with ⟨-, rfl⟩ | ⟨value, hvalue, hread⟩
          · exact sorted_nil
          · cases hall _ (mem_of_lookup hvalue) with
            | object sorted _ =>
                cases hread
                exact sorted
            | _ => cases hread
        · rcases takeUpdate_ok hupdate with ⟨-, rfl⟩ | ⟨value, hvalue, hread⟩
          · exact ⟨sorted_nil, trivial⟩
          · exact (ih _ (mem_of_lookup hvalue)).2 _ hread
      · intro us hus
        rw [readUpdates] at hus
        obtain ⟨hkeys, hordered⟩ := readEach_ordered (fun f hf => (ih f hf).1) hus
        exact ⟨by rw [Sorted, hkeys]; exact sorted, hordered⟩
  | _ =>
      refine ⟨fun u hu => ?_, nofun⟩
      cases hu
      trivial

theorem read_ordered {j : Json} (h : j.Canonical) {p : Patch Json} (hread : read j = .ok p) :
    p.Ordered := by
  cases h with
  | object sorted hall =>
      rw [read, Except.mapError_eq_ok] at hread
      have hupdate := (readUpdate_ordered (.object sorted hall)).1 (.object p)
      exact hupdate (by rw [readUpdate, hread]; rfl)
  | _ => cases hread

end Patch

/-- A patch as the store takes it. -/
structure OrderedPatch where
  patch : Patch Value
  ordered : patch.Ordered

namespace OrderedPatch

/-- What the patch says, on plain JSON. -/
def toJson (p : OrderedPatch) : Patch Json := p.patch.map Value.toJson

theorem toJson_ordered (p : OrderedPatch) : p.toJson.Ordered :=
  (Patch.ordered_map _ _).mpr p.ordered

theorem toJson_canonical (p : OrderedPatch) : p.toJson.All Json.Canonical :=
  Patch.all_map Value.canonical _

variable [TextCodec]

/-- `Deserialize` from a JSON value, which is its own normal form. -/
def ofJson (j : Json) : Except String OrderedPatch :=
  match h : Patch.read j.normal with
  | .error e => .error e
  | .ok p => .ok ⟨p.map Value.ofJson,
      (Patch.ordered_map _ _).mpr (Patch.read_ordered j.canonical_normal h)⟩

instance : Serde OrderedPatch where
  toVec p := .ok (TextCodec.toVec p.toJson.encode)
  fromSlice bytes := do ofJson (← TextCodec.fromSlice bytes)
  fromValue := ofJson

instance : LawfulSerde OrderedPatch where
  toVec_of_fromValue {_ p} _ := ⟨TextCodec.toVec p.toJson.encode, rfl⟩

/-- A valid patch that was encoded decodes to one that says the same. -/
theorem fromSlice_toVec (h : TextCodec.RoundTrips) {p : OrderedPatch}
    (hvalid : p.toJson.validate Json.isObject = .ok ()) {bytes : Bytes}
    (hbytes : Serde.toVec p = .ok bytes) :
    ∃ q : OrderedPatch, Serde.fromSlice bytes = .ok q ∧ q.toJson = p.toJson := by
  have hread : Patch.read p.toJson.encode.normal.normal = .ok p.toJson := by
    rw [p.toJson.encode.canonical_normal.normal_eq,
      Patch.read_encode p.toJson_ordered p.toJson_canonical hvalid]
  cases hbytes
  refine ⟨⟨p.toJson.map Value.ofJson, (Patch.ordered_map _ _).mpr p.toJson_ordered⟩, ?_, ?_⟩
  · change (TextCodec.fromSlice (TextCodec.toVec p.toJson.encode) >>= ofJson) = _
    rw [h]
    change ofJson p.toJson.encode.normal = _
    unfold ofJson
    split
    · rename_i e he
      rw [hread] at he
      cases he
    · rename_i q hq
      rw [hread] at hq
      cases hq
      rfl
  · exact Patch.map_map_of_all (fun _ => Value.toJson_ofJson) _ p.toJson_canonical

end OrderedPatch

end Lug.Cavlc
