import Mathlib.Data.String.Basic
import Mathlib.Data.Int.Basic
import Lug.Lib.SortedMap

/-!
`serde_json::Value`, the shape every patch crosses the wire in. The text codec
itself (`to_vec`, `from_slice`) is a third-party package and enters the
development as a parameter, `TextCodec`.
-/

namespace Lug

abbrev Bytes := List UInt8

/-- `serde_json::Number`: an integer, or the bits of a finite IEEE 754 double. -/
inductive Number
  | int (n : ℤ)
  | float (bits : ℕ)
  deriving DecidableEq, Repr

/-- Both zeros of a double, which differ in the sign bit only. -/
def Number.isZeroBits (bits : ℕ) : Bool := bits == 0 || bits == 2 ^ 63

/-- `PartialEq for Number`: doubles compare as numbers, so the two zeros are
equal, and an integer never equals a double. -/
def Number.eq : Number → Number → Bool
  | .int m, .int n => m == n
  | .float a, .float b => a == b || (Number.isZeroBits a && Number.isZeroBits b)
  | _, _ => false

/-- `serde_json::Value`. The fields of an object stand in the order of its
`BTreeMap`, that is sorted by key. -/
inductive Json
  | null
  | bool (b : Bool)
  | number (n : Number)
  | string (s : String)
  | array (items : List Json)
  | object (fields : List (String × Json))
  deriving Repr, Inhabited

/-- `serde_json`'s text format in both directions, and the text of its error for
a value of another type than the expected one. -/
class TextCodec where
  toVec : Json → Bytes
  fromSlice : Bytes → Except String Json
  invalidType : Json → String → String

namespace Json

open SortedMap

def isObject : Json → Bool
  | .object _ => true
  | _ => false

/-- What holds of a value once it holds of everything inside holds of every value. -/
@[elab_as_elim]
theorem induction {motive : Json → Prop} (null : motive .null)
    (bool : ∀ b, motive (.bool b)) (number : ∀ n, motive (.number n))
    (string : ∀ s, motive (.string s))
    (array : ∀ items, (∀ j ∈ items, motive j) → motive (.array items))
    (object : ∀ fields, (∀ f ∈ fields, motive f.2) → motive (.object fields)) :
    ∀ j, motive j
  | .null => null
  | .bool b => bool b
  | .number n => number n
  | .string s => string s
  | .array items =>
      array items fun j _ => induction null bool number string array object j
  | .object fields =>
      object fields fun f _ => induction null bool number string array object f.2
decreasing_by
  · have hlt := List.sizeOf_lt_of_mem ‹_›
    simp only [Json.array.sizeOf_spec]
    omega
  · have hlt := List.sizeOf_lt_of_mem ‹_›
    obtain ⟨k, v⟩ := f
    simp only [Json.object.sizeOf_spec, Prod.mk.sizeOf_spec] at hlt ⊢
    omega

mutual

/-- `PartialEq for Value`. -/
def eq : Json → Json → Bool
  | .null, .null => true
  | .bool a, .bool b => a == b
  | .number m, .number n => m.eq n
  | .string s, .string t => s == t
  | .array xs, .array ys => eqItems xs ys
  | .object xs, .object ys => eqFields xs ys
  | _, _ => false

def eqItems : List Json → List Json → Bool
  | [], [] => true
  | x :: xs, y :: ys => eq x y && eqItems xs ys
  | _, _ => false

def eqFields : List (String × Json) → List (String × Json) → Bool
  | [], [] => true
  | (k, x) :: xs, (l, y) :: ys => k == l && eq x y && eqFields xs ys
  | _, _ => false

end

mutual

/-- What a document reads back as: the fields of every object go into a
`BTreeMap`, where a later value of a key replaces an earlier one. -/
def normal : Json → Json
  | .array items => .array (normalItems items)
  | .object fields => .object (ofList (normalFields fields))
  | j => j

def normalItems : List Json → List Json
  | [] => []
  | j :: items => normal j :: normalItems items

def normalFields : List (String × Json) → List (String × Json)
  | [] => []
  | (k, j) :: fields => (k, normal j) :: normalFields fields

end

@[simp] theorem normal_array (items : List Json) :
    normal (.array items) = .array (items.map normal) := by
  have hitems : normalItems items = items.map normal := by
    induction items with
    | nil => rfl
    | cons j items ih => rw [normalItems, ih, List.map_cons]
  rw [normal, hitems]

@[simp] theorem normal_object (fields : List (String × Json)) :
    normal (.object fields) = .object (ofList (mapValues normal fields)) := by
  have hfields : normalFields fields = mapValues normal fields := by
    induction fields with
    | nil => rfl
    | cons f fields ih =>
        obtain ⟨k, j⟩ := f
        rw [normalFields, ih]
        rfl
  rw [normal, hfields]

/-- The fields of every object are in strict key order, as a `BTreeMap` keeps
them: the values of this type that are values of the Rust type. -/
inductive Canonical : Json → Prop
  | null : Canonical .null
  | bool (b : Bool) : Canonical (.bool b)
  | number (n : Number) : Canonical (.number n)
  | string (s : String) : Canonical (.string s)
  | array {items : List Json} (h : ∀ j ∈ items, Canonical j) : Canonical (.array items)
  | object {fields : List (String × Json)} (sorted : Sorted fields)
      (h : ∀ f ∈ fields, Canonical f.2) : Canonical (.object fields)

theorem Canonical.normal_eq {j : Json} (h : j.Canonical) : j.normal = j := by
  induction h with
  | null => rfl
  | bool b => rfl
  | number n => rfl
  | string s => rfl
  | array _ ih => rw [normal_array, List.map_congr_left ih, List.map_id']
  | object sorted _ ih =>
      rw [normal_object, mapValues_eq_self ih, ofList_of_sorted sorted]

theorem canonical_normal (j : Json) : j.normal.Canonical := by
  induction j using Json.induction with
  | null => exact .null
  | bool b => exact .bool b
  | number n => exact .number n
  | string s => exact .string s
  | array items ih =>
      rw [normal_array]
      refine .array fun j hj => ?_
      obtain ⟨i, hi, rfl⟩ := List.mem_map.mp hj
      exact ih i hi
  | object fields ih =>
      rw [normal_object]
      refine .object sorted_ofList fun f hf => ?_
      obtain ⟨g, hg, rfl⟩ := List.mem_map.mp (mem_of_mem_ofList hf)
      exact ih g hg

end Json

/-- What the callers rely on: a document that was written reads back as the
value it is the text of. -/
def TextCodec.RoundTrips [TextCodec] : Prop := ∀ j : Json, fromSlice (toVec j) = .ok j.normal

end Lug
