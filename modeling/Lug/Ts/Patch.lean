import Lug.Cavlc.Grammar
import Lug.Cavlc.Store

/-!
`applyCavlcPatch` of the TypeScript client, and that it takes the patches that
`cavlc::Patch` takes and does to a document what they do. An object keeps its
properties in the order they were defined in; a clone of a value is that value.
-/

namespace Lug.Ts

open SortedMap Cavlc

/-- `JSON.stringify` on a string. -/
def stringify (s : String) : String :=
  let escape (c : Char) : String :=
    if c.toNat = 8 then "\\b"
    else if c.toNat = 9 then "\\t"
    else if c.toNat = 10 then "\\n"
    else if c.toNat = 12 then "\\f"
    else if c.toNat = 13 then "\\r"
    else if c.toNat = 34 then "\\\""
    else if c.toNat = 92 then "\\\\"
    else if c.toNat < 16 then "\\u000" ++ String.ofList (Nat.toDigits 16 c.toNat)
    else if c.toNat < 32 then "\\u00" ++ String.ofList (Nat.toDigits 16 c.toNat)
    else c.toString
  "\"" ++ String.join (s.toList.map escape) ++ "\""

structure CavlcPatchError where
  path : List String
  reason : String

def CavlcPatchError.message (e : CavlcPatchError) : String :=
  let location :=
    if e.path.isEmpty then "root" else String.intercalate "." (e.path.map stringify)
  location ++ ": " ++ e.reason

/-! ### validatePatch -/

def isString : Json → Bool
  | .string _ => true
  | _ => false

/-- The checks `validatePatch` makes on the parts of a patch. -/
def checkParts (path : List String) (fields : List (String × Json)) :
    Except CavlcPatchError Unit :=
  match (fields.map Prod.fst).find? (· ∉ ["Create", "Update", "Delete"]) with
  | some operation => .error ⟨path, "unknown operation " ++ stringify operation⟩
  | none =>
      if (fields.lookup "Create").any (!·.isObject) then
        .error ⟨path, "Create must be an object"⟩
      else if (fields.lookup "Update").any (!·.isObject) then
        .error ⟨path, "Update must be an object"⟩
      else
        match fields.lookup "Delete" with
        | none => .ok ()
        | some (.array items) =>
            if items.any (!isString ·) then .error ⟨path, "Delete must be an array of strings"⟩
            else .ok ()
        | some _ => .error ⟨path, "Delete must be an array of strings"⟩

/-- The last loop of `validatePatch`, over the keys to delete. -/
def validateDelete (path : List String) (keys : List String) :
    List String → Except CavlcPatchError Unit
  | [] => .ok ()
  | key :: rest =>
      if key ∈ keys then .error ⟨path ++ [key], "multiple operations for key"⟩
      else validateDelete path (keys ++ [key]) rest

/-- `validatePatch` on an object, with its loop over the updates. -/
def validateParts (path : List String) (fields : List (String × Json))
    (updates : List String → Except CavlcPatchError (List String)) :
    Except CavlcPatchError Unit := do
  checkParts path fields
  let keys ← updates ((entries (fields.lookup "Create")).map Prod.fst)
  validateDelete path keys (strings (fields.lookup "Delete"))

mutual

/-- `validatePatch` on what updates a child, if that is an object. -/
def validateChild (path : List String) : Json → Except CavlcPatchError Unit
  | .object fields => validateParts path fields fun keys => validateUpdate path keys fields
  | _ => .ok ()

/-- The property `Update`. -/
def validateUpdate (path : List String) (keys : List String) :
    List (String × Json) → Except CavlcPatchError (List String)
  | [] => .ok keys
  | (key, value) :: fields =>
      if key = "Update" then validateUpdates path keys value else validateUpdate path keys fields

def validateUpdates (path : List String) (keys : List String) :
    Json → Except CavlcPatchError (List String)
  | .object updates => validateEach path keys updates
  | _ => .ok keys

/-- The loop over the updates, which returns the keys met so far. -/
def validateEach (path : List String) (keys : List String) :
    List (String × Json) → Except CavlcPatchError (List String)
  | [] => .ok keys
  | (key, child) :: rest =>
      if key ∈ keys then .error ⟨path ++ [key], "multiple operations for key"⟩
      else do
        validateChild (path ++ [key]) child
        validateEach path (keys ++ [key]) rest

end

/-- `validatePatch`. -/
def validatePatch (path : List String) : Json → Except CavlcPatchError Unit
  | .object fields => validateChild path (.object fields)
  | _ => .error ⟨path, "patch must be an object"⟩

/-! ### applyAt -/

/-- `define`. -/
def define (target : List (String × Json)) (key : String) (value : Json) : List (String × Json) :=
  if (target.lookup key).isSome then
    target.map fun e => if e.1 = key then (key, value) else e
  else target ++ [(key, value)]

/-- The first loop of `applyAt`. -/
def applyCreate (path : List String) : List (String × Json) → List (String × Json) →
    Except CavlcPatchError (List (String × Json))
  | [], target => .ok target
  | (key, child) :: rest, target =>
      if (target.lookup key).isSome then
        .error ⟨path ++ [key], "Create requires an absent key"⟩
      else applyCreate path rest (define target key child)

/-- The last loop of `applyAt`. -/
def applyDelete (path : List String) : List String → List (String × Json) →
    Except CavlcPatchError (List (String × Json))
  | [], target => .ok target
  | key :: rest, target =>
      if (target.lookup key).isNone then
        .error ⟨path ++ [key], "Delete requires an existing key"⟩
      else applyDelete path rest (erase key target)

/-- `applyAt`, with its loop over the updates. -/
def applyParts (path : List String) (fields : List (String × Json))
    (updates : List (String × Json) → Except CavlcPatchError (List (String × Json)))
    (target : List (String × Json)) : Except CavlcPatchError (List (String × Json)) := do
  let target ← applyCreate path (entries (fields.lookup "Create")) target
  let target ← updates target
  applyDelete path (strings (fields.lookup "Delete")) target

mutual

/-- What an update makes of a child. -/
def applyChild (path : List String) : Json → Json → Except CavlcPatchError Json
  | .object fields, .object target =>
      (applyParts path fields (applyUpdate path fields) target).map .object
  | .object _, _ => .error ⟨path, "expected an object"⟩
  | _, .object _ => .error ⟨path, "cannot replace an object; Delete it before Create"⟩
  | update, _ => .ok update
termination_by structural update => update

/-- The property `Update`. -/
def applyUpdate (path : List String) : List (String × Json) → List (String × Json) →
    Except CavlcPatchError (List (String × Json))
  | [], target => .ok target
  | (key, value) :: fields, target =>
      if key = "Update" then applyUpdates path value target else applyUpdate path fields target
termination_by structural fields => fields

def applyUpdates (path : List String) : Json → List (String × Json) →
    Except CavlcPatchError (List (String × Json))
  | .object updates, target => applyEach path updates target
  | _, target => .ok target
termination_by structural updates => updates

/-- The loop over the updates. -/
def applyEach (path : List String) : List (String × Json) → List (String × Json) →
    Except CavlcPatchError (List (String × Json))
  | [], target => .ok target
  | (key, update) :: rest, target =>
      match target.lookup key with
      | none => .error ⟨path ++ [key], "Update requires an existing key; use Create first"⟩
      | some current => do
          let next ← applyChild (path ++ [key]) update current
          applyEach path rest (define target key next)
termination_by structural updates => updates

end

/-- `applyCavlcPatch`. -/
def applyCavlcPatch (value : List (String × Json)) (patch : Json) :
    Except CavlcPatchError (List (String × Json)) := do
  validatePatch [] patch
  let fields := entries (some patch)
  applyParts [] fields (applyUpdate [] fields) value

end Lug.Ts
