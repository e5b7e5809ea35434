import Lug.Cavlc.Avl
import Lug.Core.Json

/-!
`cavlc::Value`: immutable JSON whose objects are AVL maps. The trees behind two
equal documents may differ in shape, so everything said about a value is said
about the document it shows.
-/

namespace Lug.Cavlc

open SortedMap

/-- `Kind`, what a `Value` points to. -/
inductive Kind
  | object (map : Link String Kind)
  | atom (value : Json)

namespace Kind

def asObject : Kind → Option (Link String Kind)
  | .object map => some map
  | .atom _ => none

def asAtom : Kind → Option Json
  | .object _ => none
  | .atom value => some value

mutual

/-- `to_json`. -/
def toJson : Kind → Json
  | .object map => .object (entriesToJson map)
  | .atom value => value

def entriesToJson : Link String Kind → List (String × Json)
  | .none => []
  | .some (key, value) left right _ _ =>
      entriesToJson left ++ (key, toJson value) :: entriesToJson right

end

mutual

/-- `PartialEq for Value`, without its shortcut for a shared root: the
comparison below answers `true` there too. -/
def eq : Kind → Kind → Bool
  | .atom a, .atom b => a.eq b
  | .object a, .object b => a.size == b.size && (eqEntries a b.toList).any List.isEmpty
  | _, _ => false

/-- The two iterators run side by side; what is left of the second one. -/
def eqEntries : Link String Kind → List (String × Kind) → Option (List (String × Kind))
  | .none, others => some others
  | .some (key, value) left right _ _, others =>
      match eqEntries left others with
      | some ((key', value') :: others) =>
          if key == key' && eq value value' then eqEntries right others else none
      | _ => none

end

mutual

/-- `From<serde_json::Value>`. -/
def ofJson : Json → Kind
  | .object fields => .object (ofFields fields .none)
  | value => .atom value

def ofFields : List (String × Json) → Link String Kind → Link String Kind
  | [], out => out
  | (key, value) :: fields, out => ofFields fields (out.insert (key, ofJson value))

end

@[simp] theorem toJson_object (map : Link String Kind) :
    toJson (.object map) = .object (mapValues toJson map.toList) := by
  have hentries : entriesToJson map = mapValues toJson map.toList := by
    induction map with
    | none => rfl
    | some e l r height size ihl ihr =>
        obtain ⟨key, value⟩ := e
        rw [entriesToJson, ihl, ihr]
        simp [mapValues]
  rw [toJson, hentries]

@[simp] theorem toJson_atom (value : Json) : toJson (.atom value) = value := rfl

theorem toList_ofFields (fields : List (String × Json)) (out : Link String Kind)
    (h : Sorted out.toList) : (ofFields fields out).toList =
      (mapValues ofJson fields).foldl (fun m e => insert e.1 e.2 m) out.toList := by
  induction fields generalizing out with
  | nil => rfl
  | cons f fields ih =>
      obtain ⟨key, value⟩ := f
      have hinsert := Link.toList_insert (key, ofJson value) out h
      rw [ofFields, ih _ (by rw [hinsert]; exact sorted_insert h), hinsert]
      rfl

theorem toList_ofFields_of_sorted {fields : List (String × Json)} (h : Sorted fields) :
    (ofFields fields .none).toList = mapValues ofJson fields := by
  rw [toList_ofFields fields .none sorted_nil]
  exact ofList_of_sorted ((sorted_mapValues _).mpr h)

/-- A value of the Rust type: every map is a search tree with its caches in
order, and an atom is a JSON value that is not an object. -/
inductive WellFormed : Kind → Prop
  | object {map : Link String Kind} (cached : map.Cached) (sorted : Sorted map.toList)
      (h : ∀ e ∈ map.toList, WellFormed e.2) : WellFormed (.object map)
  | atom {value : Json} (leaf : ∀ fields, value ≠ .object fields) (h : value.Canonical) :
      WellFormed (.atom value)

theorem WellFormed.canonical {k : Kind} (h : k.WellFormed) : k.toJson.Canonical := by
  induction h with
  | object _ sorted _ ih =>
      rw [toJson_object]
      refine .object ((sorted_mapValues _).mpr sorted) fun f hf => ?_
      obtain ⟨e, he, rfl⟩ := List.mem_map.mp hf
      exact ih e he
  | atom _ h => exact h

theorem cached_ofFields (fields : List (String × Json)) {out : Link String Kind}
    (h : out.Cached) : (ofFields fields out).Cached := by
  induction fields generalizing out with
  | nil => exact h
  | cons f fields ih => exact ih (h.insert _)

theorem wellFormed_ofJson {j : Json} (h : j.Canonical) : (ofJson j).WellFormed := by
  induction h with
  | null => exact .atom nofun .null
  | bool b => exact .atom nofun (.bool b)
  | number n => exact .atom nofun (.number n)
  | string s => exact .atom nofun (.string s)
  | array h _ => exact .atom nofun (.array h)
  | @object fields sorted _ ih =>
      have hlist := toList_ofFields_of_sorted sorted
      refine .object (cached_ofFields fields trivial) ?_ fun e he => ?_
      · rw [hlist]
        exact (sorted_mapValues _).mpr sorted
      · rw [hlist] at he
        obtain ⟨f, hf, rfl⟩ := List.mem_map.mp he
        exact ih f hf

/-- A document put into trees is still that document. -/
theorem toJson_ofJson {j : Json} (h : j.Canonical) : (ofJson j).toJson = j := by
  induction h with
  | null => rfl
  | bool b => rfl
  | number n => rfl
  | string s => rfl
  | array _ _ => rfl
  | @object fields sorted _ ih =>
      rw [ofJson, toJson_object, toList_ofFields_of_sorted sorted, mapValues_mapValues,
        mapValues_eq_self ih]

/-- Against an atom, two values are equal if their documents are. -/
theorem eq_atom {value : Json} (leaf : ∀ fields, value ≠ .object fields) (k : Kind) :
    k.eq (.atom value) = k.toJson.eq value := by
  cases k with
  | atom => rfl
  | object map =>
      rw [toJson_object]
      cases value with
      | object fields => exact absurd rfl (leaf fields)
      | _ => rfl

end Kind

/-- `Value`. Cloning shares the tree, which nothing here can tell. -/
structure Value where
  kind : Kind
  wellFormed : kind.WellFormed

namespace Value

/-- The empty object. -/
def default : Value := ⟨.object .none, .object trivial sorted_nil (by simp)⟩

def asObject (v : Value) : Option (Link String Kind) := v.kind.asObject

def toJson (v : Value) : Json := v.kind.toJson

/-- `From<serde_json::Value>`; a value of that type is its own normal form. -/
def ofJson (j : Json) : Value := ⟨Kind.ofJson j.normal, Kind.wellFormed_ofJson j.canonical_normal⟩

theorem canonical (v : Value) : v.toJson.Canonical := v.wellFormed.canonical

theorem toJson_ofJson {j : Json} (h : j.Canonical) : (ofJson j).toJson = j := by
  simp only [toJson, ofJson, h.normal_eq, Kind.toJson_ofJson h]

end Value

end Lug.Cavlc
