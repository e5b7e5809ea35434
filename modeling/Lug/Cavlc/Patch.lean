import Lug.Cavlc.Value

/-!
`cavlc::Patch`: edits of an object, checked against the value they are applied
to. What a patch does is a function of documents: applied to a tree it does to
the document what the same edit does to a plain JSON value.
-/

namespace Lug.Cavlc

open SortedMap

/-- `Debug for str`, as far as ASCII goes: quoted, with control characters and
quotes escaped. -/
def debugStr (s : String) : String :=
  let escape (c : Char) : String :=
    if c.toNat = 0 then "\\0"
    else if c.toNat = 9 then "\\t"
    else if c.toNat = 10 then "\\n"
    else if c.toNat = 13 then "\\r"
    else if c.toNat = 34 then "\\\""
    else if c.toNat = 92 then "\\\\"
    else if c.toNat < 32 ∨ c.toNat = 127 then
      "\\u\x7b" ++ String.ofList (Nat.toDigits 16 c.toNat) ++ "\x7d"
    else c.toString
  "\"" ++ String.join (s.toList.map escape) ++ "\""

/-- `cavlc::Error`. -/
inductive Error
  | invalidPatch (reason : String)
  | precondition (path : List String) (reason : String)
  | conflict (expected actual : ℕ)
  | mergeConflict (path : List String)
  | foreignBatch
  | rootMustBeObject
  | invalidVersion (expected actual : ℕ)
  | versionOverflow
  deriving DecidableEq, Repr

namespace Error

def debugPath (path : List String) : String :=
  "[" ++ String.intercalate ", " (path.map debugStr) ++ "]"

/-- `Display for Error`. -/
def display : Error → String
  | invalidPatch reason => "invalid patch: " ++ reason
  | precondition path reason => "at " ++ debugPath path ++ ": " ++ reason
  | conflict expected actual =>
      "version conflict: based on " ++ toString expected ++ ", current is " ++ toString actual
  | mergeConflict path =>
      "overlapping edits at " ++ debugPath path ++ "; keep them ordered in a batch"
  | foreignBatch => "batch belongs to another store"
  | rootMustBeObject => "snapshot root must be a JSON object"
  | invalidVersion expected actual =>
      "log version " ++ toString actual ++ ", expected " ++ toString expected
  | versionOverflow => "version counter exhausted"

end Error

mutual

/-- `Patch`, over the type of its leaves. -/
inductive Patch (α : Type)
  | mk (create : List (String × α)) (update : List (String × Update α)) (delete : List String)

/-- `Update`: a patch within an existing object, or a leaf replacement. -/
inductive Update (α : Type)
  | object (patch : Patch α)
  | value (child : α)

end

namespace Patch

variable {α β : Type}

mutual

def map (f : α → β) : Patch α → Patch β
  | .mk create update delete => .mk (mapValues f create) (mapUpdates f update) delete

def mapUpdate (f : α → β) : Update α → Update β
  | .object patch => .object (map f patch)
  | .value child => .value (f child)

def mapUpdates (f : α → β) : List (String × Update α) → List (String × Update β)
  | [] => []
  | (key, update) :: rest => (key, mapUpdate f update) :: mapUpdates f rest

end

/-- The first key that stands twice. -/
def repeated (seen : List String) : List String → Option String
  | [] => none
  | key :: rest => if key ∈ seen then some key else repeated (key :: seen) rest

mutual

/-- `validate`: no key has two operations, and no leaf update brings an object. -/
def validate (isObject : α → Bool) : Patch α → Except Error Unit
  | .mk create update delete =>
      match repeated [] (create.map Prod.fst ++ update.map Prod.fst ++ delete) with
      | some key => .error (.invalidPatch ("multiple operations for " ++ debugStr key))
      | none => validateUpdates isObject update

def validateUpdates (isObject : α → Bool) : List (String × Update α) → Except Error Unit
  | [] => .ok ()
  | (key, update) :: rest =>
      match validateUpdate isObject key update with
      | .error e => .error e
      | .ok () => validateUpdates isObject rest

def validateUpdate (isObject : α → Bool) (key : String) : Update α → Except Error Unit
  | .object patch => validate isObject patch
  | .value child =>
      if isObject child then
        .error (.invalidPatch
          ("Update " ++ debugStr key ++ ": objects require nested operations"))
      else .ok ()

end

end Patch

/-- The map an edit works on. `same` says that it still is the one the edit
started from, down to the root it points to. -/
structure Draft where
  map : Link String Kind
  same : Bool

namespace Draft

def insert (d : Draft) (key : String) (value : Kind) : Draft :=
  { map := d.map.insert (key, value), same := false }

def remove (d : Draft) (key : String) : Draft :=
  { map := (d.map.remove key).1, same := d.same && !(d.map.remove key).2 }

/-- `ptr_eq` with the map the edit started from; two empty maps are one. -/
def ptrEq (d : Draft) (original : Link String Kind) : Bool :=
  d.same || (original.isEmpty && d.map.isEmpty)

end Draft

namespace Patch

/-- The first loop of `apply_at`. -/
def applyCreate (path : List String) : List (String × Value) → Draft → Except Error Draft
  | [], d => .ok d
  | (key, child) :: rest, d =>
      if (d.map.get key).isSome then
        .error (.precondition (path ++ [key]) "Create requires an absent key")
      else applyCreate path rest (d.insert key child.kind)

/-- The last loop of `apply_at`. -/
def applyDelete (path : List String) : List String → Draft → Except Error Draft
  | [], d => .ok d
  | key :: rest, d =>
      if (d.map.get key).isNone then
        .error (.precondition (path ++ [key]) "Delete requires an existing key")
      else applyDelete path rest (d.remove key)

mutual

/-- `apply_at`; `none` is the value that was passed in, down to its pointer. -/
def applyAt (path : List String) : Patch Value → Kind → Except Error (Option Kind)
  | .mk create update delete, value =>
      match value.asObject with
      | none => .error (.precondition path "expected an object")
      | some original => do
          let d ← applyCreate path create ⟨original, true⟩
          let d ← applyUpdate path update d
          let d ← applyDelete path delete d
          return if d.ptrEq original then none else some (.object d.map)

/-- The second loop of `apply_at`. -/
def applyUpdate (path : List String) :
    List (String × Update Value) → Draft → Except Error Draft
  | [], d => .ok d
  | (key, update) :: rest, d =>
      match d.map.get key with
      | none =>
          .error (.precondition (path ++ [key])
            "Update requires an existing key; use Create first")
      | some current => do
          match ← applyNext (path ++ [key]) update current with
          | none => applyUpdate path rest d
          | some next => applyUpdate path rest (d.insert key next)

/-- What becomes of one updated child. -/
def applyNext (path : List String) : Update Value → Kind → Except Error (Option Kind)
  | .object patch, current => applyAt path patch current
  | .value child, current =>
      if current.asObject.isSome then
        .error (.precondition path "cannot replace an object; Delete it before Create")
      else if child.kind.eq current then .ok none
      else .ok (some child.kind)

end

/-- `apply`. -/
def apply (p : Patch Value) (value : Kind) : Except Error (Option Kind) := do
  p.validate fun v => v.asObject.isSome
  p.applyAt [] value

end Patch

end Lug.Cavlc
