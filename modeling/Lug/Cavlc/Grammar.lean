import Lug.Cavlc.Keys
import Lug.Cavlc.Reencode

/-!
The grammar of the JSON form of a patch: what decodes, and to what.
-/

namespace Lug.Cavlc

open SortedMap

/-! ### The parts of a patch -/

/-- The properties of an object, none if there is none. -/
def entries : Option Json → List (String × Json)
  | some (.object fields) => fields
  | _ => []

/-- The items of an array of strings, none if there is none. -/
def strings : Option Json → List String
  | some (.array items) => items.filterMap fun item =>
      match item with
      | .string s => some s
      | _ => none
  | _ => []

/-- What is asked of the parts of a patch. -/
structure Formed (fields : List (String × Json)) : Prop where
  known : ∀ f ∈ fields, f.1 ∈ ["Create", "Update", "Delete"]
  create : ∀ v, fields.lookup "Create" = some v → v.isObject
  update : ∀ v, fields.lookup "Update" = some v → v.isObject
  delete : ∀ v, fields.lookup "Delete" = some v →
    ∃ keys : List String, v = .array (keys.map .string)

/-- The keys a patch has operations for. -/
def keysOf (fields : List (String × Json)) : List String :=
  (entries (fields.lookup "Create")).map Prod.fst ++
    (entries (fields.lookup "Update")).map Prod.fst ++ strings (fields.lookup "Delete")

@[simp] theorem strings_array (keys : List String) :
    strings (some (.array (keys.map .string))) = keys := by
  induction keys with
  | nil => rfl
  | cons key keys ih =>
      rw [strings] at ih ⊢
      rw [List.map_cons, List.filterMap_cons, ih]

theorem find_unknown {fields : List (String × Json)} :
    (fields.map Prod.fst).find? (· ∉ ["Create", "Update", "Delete"]) = none ↔
      ∀ f ∈ fields, f.1 ∈ ["Create", "Update", "Delete"] := by
  rw [List.find?_eq_none, List.forall_mem_map]
  refine forall₂_congr fun f _ => ?_
  rw [decide_eq_true_eq, not_not]

/-! ### What decodes to a patch -/

section

variable [TextCodec]

theorem take_create {fields xs : List (String × Json)} :
    Patch.take fields "Create" Patch.readFields = .ok xs ↔
      (∀ v, fields.lookup "Create" = some v → v.isObject) ∧
        xs = entries (fields.lookup "Create") := by
  rw [Patch.take]
  cases fields.lookup "Create" with
  | none =>
      dsimp only
      exact ⟨fun h => by cases h; exact ⟨(fun _ hv => by cases hv), rfl⟩, fun h => by rw [h.2]; rfl⟩
  | some v =>
      dsimp only
      rw [Except.mapError_eq_ok]
      cases v with
      | object fields =>
          exact ⟨fun h => by cases h; exact ⟨fun _ hv => by cases hv; rfl, rfl⟩,
            fun h => by rw [h.2]; rfl⟩
      | _ => exact ⟨(fun h => by cases h), fun h => Bool.noConfusion (h.1 _ rfl)⟩

theorem readStrings_ok {v : Json} {xs : List String} :
    Patch.readStrings v = .ok xs ↔ v = .array (xs.map .string) := by
  constructor
  · intro h
    cases v with
    | array items =>
        congr 1
        induction items generalizing xs with
        | nil =>
            cases h
            rfl
        | cons item items ih =>
            rw [Patch.readStrings, List.mapM_cons] at h
            obtain ⟨x, hx, h⟩ := Except.bind_eq_ok.mp h
            obtain ⟨rest, hrest, h⟩ := Except.bind_eq_ok.mp h
            cases h
            rw [List.map_cons, ← ih hrest]
            cases item with
            | string s =>
                cases hx
                rfl
            | _ => cases hx
    | _ => cases h
  · rintro rfl
    exact Patch.readStrings_map xs

theorem take_delete {fields : List (String × Json)} {xs : List String} :
    Patch.take fields "Delete" Patch.readStrings = .ok xs ↔
      (∀ v, fields.lookup "Delete" = some v →
        ∃ keys : List String, v = .array (keys.map .string)) ∧
        xs = strings (fields.lookup "Delete") := by
  rw [Patch.take]
  cases fields.lookup "Delete" with
  | none =>
      dsimp only
      exact ⟨fun h => by cases h; exact ⟨(fun _ hv => by cases hv), rfl⟩, fun h => by rw [h.2]; rfl⟩
  | some v =>
      dsimp only
      rw [Except.mapError_eq_ok, readStrings_ok]
      constructor
      · rintro rfl
        exact ⟨fun w hw => ⟨xs, (Option.some.inj hw).symm⟩, (strings_array xs).symm⟩
      · rintro ⟨hstrings, rfl⟩
        obtain ⟨keys, rfl⟩ := hstrings v rfl
        rw [strings_array]

/-- The updates are read one by one. -/
def ReadAs (updates : List (String × Json)) (us : List (String × Update Json)) : Prop :=
  List.Forall₂ (fun e u => u.1 = e.1 ∧ Patch.readUpdate e.2 = .ok u.2) updates us

theorem readEach_ok {updates : List (String × Json)} {us : List (String × Update Json)} :
    Patch.readEach updates = .ok us ↔ ReadAs updates us := by
  induction updates generalizing us with
  | nil =>
      rw [Patch.readEach, ReadAs, List.forall₂_nil_left_iff]
      exact ⟨fun h => by cases h; rfl, fun h => by rw [h]⟩
  | cons e rest ih =>
      obtain ⟨key, child⟩ := e
      rw [Patch.readEach, ReadAs, List.forall₂_cons_left_iff]
      constructor
      · intro h
        obtain ⟨u, hu, h⟩ := Except.bind_eq_ok.mp h
        obtain ⟨us', hus, h⟩ := Except.bind_eq_ok.mp h
        cases h
        exact ⟨(key, u), us', ⟨rfl, Except.mapError_eq_ok.mp hu⟩, ih.mp hus, rfl⟩
      · rintro ⟨⟨_, u⟩, us', ⟨rfl, hu⟩, hus, rfl⟩
        exact Except.bind_eq_ok.mpr ⟨u, Except.mapError_eq_ok.mpr hu,
          Except.bind_eq_ok.mpr ⟨us', ih.mpr hus, rfl⟩⟩

theorem takeUpdate_ok {fields : List (String × Json)} {us : List (String × Update Json)} :
    Patch.takeUpdate fields = .ok us ↔
      (∀ v, fields.lookup "Update" = some v → v.isObject) ∧
        ReadAs (entries (fields.lookup "Update")) us := by
  rw [Patch.takeUpdate_eq]
  cases fields.lookup "Update" with
  | none =>
      dsimp only [entries]
      rw [ReadAs, List.forall₂_nil_left_iff]
      exact ⟨fun h => by cases h; exact ⟨(fun _ hv => by cases hv), rfl⟩, fun h => by rw [h.2]⟩
  | some v =>
      dsimp only
      rw [Except.mapError_eq_ok]
      cases v with
      | object updates =>
          rw [Patch.readUpdates, readEach_ok]
          exact ⟨fun h => ⟨fun _ hv => by cases hv; rfl, h⟩, fun h => h.2⟩
      | _ => exact ⟨(fun h => by cases h), fun h => Bool.noConfusion (h.1 _ rfl)⟩

theorem assemble_iff {fields : List (String × Json)}
    {updates : Except Error (List (String × Update Json))} {p : Patch Json} :
    Patch.assemble fields updates = .ok p ↔
      (∀ f ∈ fields, f.1 ∈ ["Create", "Update", "Delete"]) ∧
        ∃ create update delete, Patch.take fields "Create" Patch.readFields = .ok create ∧
          updates = .ok update ∧ Patch.take fields "Delete" Patch.readStrings = .ok delete ∧
          (Patch.mk create update delete).validate Json.isObject = .ok () ∧
          p = .mk create update delete := by
  rw [Patch.assemble]
  constructor
  · intro h
    split at h
    case h_1 => cases h
    case h_2 hknown =>
        obtain ⟨create, hcreate, h⟩ := Except.bind_eq_ok.mp h
        obtain ⟨update, hupdate, h⟩ := Except.bind_eq_ok.mp h
        obtain ⟨delete, hdelete, h⟩ := Except.bind_eq_ok.mp h
        obtain ⟨_, hvalid, h⟩ := Except.bind_eq_ok.mp h
        cases h
        exact ⟨find_unknown.mp hknown, create, update, delete, hcreate, hupdate, hdelete, hvalid,
          rfl⟩
  · rintro ⟨hknown, create, update, delete, hcreate, hupdate, hdelete, hvalid, rfl⟩
    rw [find_unknown.mpr hknown]
    exact Except.bind_eq_ok.mpr ⟨create, hcreate, Except.bind_eq_ok.mpr ⟨update, hupdate,
      Except.bind_eq_ok.mpr ⟨delete, hdelete, Except.bind_eq_ok.mpr ⟨(), hvalid, rfl⟩⟩⟩⟩

/-- An update that was read is valid. -/
theorem validateUpdate_read {j : Json} {u : Update Json} (h : Patch.readUpdate j = .ok u)
    (key : String) : Patch.validateUpdate Json.isObject key u = .ok () := by
  cases j with
  | object fields =>
      rw [Patch.readUpdate] at h
      obtain ⟨p, hassemble, rfl⟩ := Except.map_eq_ok.mp h
      obtain ⟨-, create, update, delete, -, -, -, hvalid, rfl⟩ := assemble_iff.mp hassemble
      exact hvalid
  | _ =>
      cases h
      rfl

theorem validateUpdates_read {updates : List (String × Json)} {us : List (String × Update Json)}
    (h : ReadAs updates us) : Patch.validateUpdates Json.isObject us = .ok () := by
  induction h with
  | nil => rfl
  | @cons e u _ _ hhead _ ih =>
      obtain ⟨key, u⟩ := u
      rw [Patch.validateUpdates, validateUpdate_read hhead.2 key]
      exact ih

theorem ReadAs.keys {updates : List (String × Json)} {us : List (String × Update Json)}
    (h : ReadAs updates us) : us.map Prod.fst = updates.map Prod.fst := by
  induction h with
  | nil => rfl
  | cons hhead _ ih => rw [List.map_cons, List.map_cons, hhead.1, ih]

/-- What decodes to an update of a child that is an object. -/
theorem readUpdate_object {fields : List (String × Json)} {u : Update Json} :
    Patch.readUpdate (.object fields) = .ok u ↔ Formed fields ∧ (keysOf fields).Nodup ∧
      ∃ us, ReadAs (entries (fields.lookup "Update")) us ∧
        u = .object (.mk (entries (fields.lookup "Create")) us
          (strings (fields.lookup "Delete"))) := by
  rw [Patch.readUpdate, Except.map_eq_ok]
  constructor
  · rintro ⟨p, hassemble, rfl⟩
    obtain ⟨hknown, create, us, delete, hcreate, hupdate, hdelete, hvalid, rfl⟩ :=
      assemble_iff.mp hassemble
    obtain ⟨hobject, rfl⟩ := take_create.mp hcreate
    obtain ⟨hobject', hread⟩ := takeUpdate_ok.mp hupdate
    obtain ⟨hstrings, rfl⟩ := take_delete.mp hdelete
    have hnodup := (validate_ok.mp hvalid).1
    rw [hread.keys] at hnodup
    exact ⟨⟨hknown, hobject, hobject', hstrings⟩, hnodup, us, hread, rfl⟩
  · rintro ⟨⟨hknown, hobject, hobject', hstrings⟩, hnodup, us, hread, rfl⟩
    refine ⟨_, assemble_iff.mpr ⟨hknown, _, us, _, take_create.mpr ⟨hobject, rfl⟩,
      takeUpdate_ok.mpr ⟨hobject', hread⟩, take_delete.mpr ⟨hstrings, rfl⟩,
      validate_ok.mpr ⟨?_, validateUpdates_read hread⟩, rfl⟩, rfl⟩
    rw [hread.keys]
    exact hnodup

theorem readUpdate_leaf {j : Json} (h : j.isObject = false) :
    Patch.readUpdate j = .ok (.value j) := by
  cases j with
  | object fields => cases h
  | _ => rfl

/-- Updates can be read if each of them can. -/
theorem exists_readAs {updates : List (String × Json)} :
    (∃ us, ReadAs updates us) ↔ ∀ e ∈ updates, ∃ u, Patch.readUpdate e.2 = .ok u := by
  induction updates with
  | nil => exact ⟨fun _ => by simp, fun _ => ⟨[], .nil⟩⟩
  | cons e rest ih =>
      rw [List.forall_mem_cons, ← ih]
      constructor
      · rintro ⟨us, hread⟩
        cases hread with
        | cons hhead hrest => exact ⟨⟨_, hhead.2⟩, _, hrest⟩
      · rintro ⟨⟨u, hu⟩, us, hrest⟩
        exact ⟨(e.1, u) :: us, .cons ⟨rfl, hu⟩ hrest⟩

theorem ReadAs.left {updates : List (String × Json)} {us : List (String × Update Json)}
    (h : ReadAs updates us) : ∀ e ∈ updates, ∃ u, (e.1, u) ∈ us ∧
      Patch.readUpdate e.2 = .ok u := by
  induction h with
  | nil => simp
  | @cons e u _ _ hhead _ ih =>
      obtain ⟨key, u⟩ := u
      obtain ⟨rfl, hu⟩ := hhead
      intro f hf
      cases hf with
      | head => exact ⟨u, List.mem_cons_self, hu⟩
      | tail _ hf =>
          obtain ⟨v, hv, hread⟩ := ih f hf
          exact ⟨v, List.mem_cons_of_mem _ hv, hread⟩

theorem ReadAs.right {updates : List (String × Json)} {us : List (String × Update Json)}
    (h : ReadAs updates us) : ∀ u ∈ us, ∃ j, (u.1, j) ∈ updates ∧
      Patch.readUpdate j = .ok u.2 := by
  induction h with
  | nil => simp
  | @cons e u _ _ hhead _ ih =>
      obtain ⟨key, j⟩ := e
      obtain ⟨rfl, hu⟩ := hhead
      intro v hv
      cases hv with
      | head => exact ⟨j, List.mem_cons_self, hu⟩
      | tail _ hv =>
          obtain ⟨i, hi, hread⟩ := ih v hv
          exact ⟨i, List.mem_cons_of_mem _ hi, hread⟩

theorem ofJson_ok {j : Json} {p : Patch Json} (h : Patch.read j.normal = .ok p) :
    ∃ q, OrderedPatch.ofJson j = .ok q ∧ q.toJson = p := by
  unfold OrderedPatch.ofJson
  split
  · rename_i e he
    rw [h] at he
    cases he
  · rename_i q hq
    rw [h] at hq
    cases hq
    exact ⟨_, rfl, Patch.map_map_of_all (fun _ => Value.toJson_ofJson) _
      (Patch.read_all j.canonical_normal h)⟩

theorem ofJson_error {j : Json} {e : String} (h : Patch.read j.normal = .error e) :
    OrderedPatch.ofJson j = .error e := by
  unfold OrderedPatch.ofJson
  split
  · rename_i e' he
    rw [h] at he
    cases he
    rfl
  · rename_i q hq
    rw [h] at hq
    cases hq

theorem read_object {fields : List (String × Json)} {p : Patch Json} :
    Patch.read (.object fields) = .ok p ↔ Patch.readUpdate (.object fields) = .ok (.object p) := by
  rw [Patch.read, Except.mapError_eq_ok, Patch.readUpdate, Except.map_eq_ok]
  constructor
  · intro h
    exact ⟨p, h, rfl⟩
  · rintro ⟨q, hq, heq⟩
    cases heq
    exact hq

/-! ### The grammar -/

omit [TextCodec] in
/-- What holds of a patch once it holds of what updates its children holds of every
patch. -/
theorem updates_induction {motive : Json → Prop} (leaf : ∀ j, j.isObject = false → motive j)
    (object : ∀ fields : List (String × Json),
      (∀ e ∈ entries (fields.lookup "Update"), motive e.2) → motive (.object fields))
    (j : Json) : motive j := by
  have hboth : motive j ∧ ∀ e ∈ entries (some j), motive e.2 := by
    induction j using Json.induction with
    | object fields ih =>
        refine ⟨object fields fun e he => ?_, fun e he => (ih e he).1⟩
        cases hlookup : fields.lookup "Update" with
        | none =>
            rw [hlookup] at he
            cases he
        | some v =>
            rw [hlookup] at he
            exact (ih _ (mem_of_lookup hlookup)).2 e he
    | _ => exact ⟨leaf _ rfl, nofun⟩
  exact hboth.1

/-- What is a patch: its parts are what they have to be, no key is named twice, and what
updates an object is a patch again. -/
inductive InGrammar : Json → Prop
  | intro {fields : List (String × Json)} (formed : Formed fields)
      (distinct : (keysOf fields).Nodup)
      (nested : ∀ e ∈ entries (fields.lookup "Update"), e.2.isObject = true → InGrammar e.2) :
      InGrammar (.object fields)

/-- What can be read as an update: a leaf, or a patch. -/
theorem exists_readUpdate {j : Json} :
    (∃ u, Patch.readUpdate j = .ok u) ↔ (j.isObject = true → InGrammar j) := by
  induction j using updates_induction with
  | leaf j hleaf =>
      rw [hleaf]
      constructor
      · intro _ hobject
        cases hobject
      · intro _
        exact ⟨_, readUpdate_leaf hleaf⟩
  | object fields ih =>
      have hread : (∃ u, Patch.readUpdate (.object fields) = .ok u) ↔
          Formed fields ∧ (keysOf fields).Nodup ∧
            ∃ us, ReadAs (entries (fields.lookup "Update")) us := by
        simp only [readUpdate_object]
        constructor
        · rintro ⟨u, hformed, hnodup, us, hus, -⟩
          exact ⟨hformed, hnodup, us, hus⟩
        · rintro ⟨hformed, hnodup, us, hus⟩
          exact ⟨_, hformed, hnodup, us, hus, rfl⟩
      rw [hread, exists_readAs]
      constructor
      · rintro ⟨hformed, hnodup, hall⟩ -
        exact .intro hformed hnodup fun e he => (ih e he).mp (hall e he)
      · intro h
        cases h rfl with
        | intro hformed hnodup hnested =>
            exact ⟨hformed, hnodup, fun e he => (ih e he).mpr (hnested e he)⟩

theorem exists_read {j : Json} : (∃ p, Patch.read j = .ok p) ↔ InGrammar j := by
  cases j with
  | object fields =>
      have hupdate := exists_readUpdate (j := .object fields)
      constructor
      · rintro ⟨p, hp⟩
        exact hupdate.mp ⟨_, read_object.mp hp⟩ rfl
      · intro h
        obtain ⟨u, hu⟩ := hupdate.mpr fun _ => h
        obtain ⟨-, -, us, -, rfl⟩ := readUpdate_object.mp hu
        exact ⟨_, read_object.mpr hu⟩
  | _ =>
      constructor
      · rintro ⟨p, hp⟩
        cases hp
      · intro h
        cases h

/-- The JSON form of patches: a valid patch decodes from its encoding, what decodes is what
the grammar has and is valid, and values keep their documents. -/
theorem OrderedPatch.json_exact :
    (∀ p : OrderedPatch, p.toJson.validate Json.isObject = .ok () →
      ∃ q : OrderedPatch, ofJson p.toJson.encode.normal = .ok q ∧ q.toJson = p.toJson) ∧
    ∀ j : Json, j.Canonical →
      ((∃ p, OrderedPatch.ofJson j = .ok p) ↔ InGrammar j) ∧
      (∀ p, OrderedPatch.ofJson j = .ok p → p.toJson.validate Json.isObject = .ok ()) ∧
      (Value.ofJson j).toJson = j := by
  refine ⟨fun p hvalid => ?_, fun j hj => ⟨?_, fun p hp => ?_, Value.toJson_ofJson hj⟩⟩
  · refine ofJson_ok ?_
    rw [p.toJson.encode.canonical_normal.normal_eq]
    exact Patch.read_encode p.toJson_ordered p.toJson_canonical hvalid
  · rw [← exists_read]
    constructor
    · rintro ⟨p, hp⟩
      cases hread : Patch.read j with
      | error e =>
          rw [ofJson_error (by rw [hj.normal_eq, hread])] at hp
          cases hp
      | ok q => exact ⟨q, rfl⟩
    · rintro ⟨q, hq⟩
      obtain ⟨p, hp, -⟩ := ofJson_ok (j := j) (by rw [hj.normal_eq, hq])
      exact ⟨p, hp⟩
  · cases hread : Patch.read j with
    | error e =>
        rw [ofJson_error (by rw [hj.normal_eq, hread])] at hp
        cases hp
    | ok q =>
        obtain ⟨p', hp', hsame⟩ := ofJson_ok (j := j) (by rw [hj.normal_eq, hread])
        rw [hp] at hp'
        cases hp'
        rw [hsame]
        cases j with
        | object fields => exact validateUpdate_read (read_object.mp hread) ""
        | _ => cases hread

end

end Lug.Cavlc
