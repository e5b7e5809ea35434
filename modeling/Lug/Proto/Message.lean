import Lug.Core.Log
import Lug.Lib.Fields
import Lug.Server.Stream

/-!
`lug_proto`: the requests and responses, the document each is written as, and how a
document is read back. A frame names its variant in the field `t`; its other fields are
read by name, in any order, or by position where the frame is an array.
-/

namespace Lug.Proto

open Fields

/-- `serde_json::Value`, whose objects are in the order of a `BTreeMap`. -/
abbrev Value := {j : Json // j.Canonical}

structure Record where
  version : UInt64
  patch : Value

structure LogInfo where
  name : String
  reducible : Bool
  version : UInt64
  oldest : UInt64
  subscribers : UInt32

inductive Request
  | hello (id : UInt64) (version : UInt16)
  | append (id : UInt64) (log : String) (patches : List Value) (durability : Durability)
  | subscribe (id : UInt64) (log : String) (from_ : UInt64) (mode : Mode) (credit : UInt32)
  | credit (id : UInt64) (grant : UInt32)
  | cancel (id : UInt64)
  | read (id : UInt64) (log : String) (at_ : Option UInt64)
  | list (id : UInt64)
  | create (id : UInt64) (log : String) (reducible : Bool)
  | ping (id : UInt64)

inductive Response
  | welcome (id : UInt64) (version : UInt16) (maxFrame : UInt32) (session : Option String)
  | ack (id : UInt64) (versions : List UInt64) (synced : UInt64)
  | records (id : UInt64) (records : List Record)
  | view (id version : UInt64) (value : Value)
  | gap (id from_ to_ : UInt64)
  | logs (id : UInt64) (logs : List LogInfo)
  | ok (id : UInt64)
  | ended (id : UInt64)
  | pong (id : UInt64)
  | error (id : UInt64) (code : Code) (message : String)

def Request.id : Request → UInt64
  | .hello id _ | .append id _ _ _ | .subscribe id _ _ _ _ | .credit id _ | .cancel id
  | .read id _ _ | .list id | .create id _ _ | .ping id => id

def Response.id : Response → UInt64
  | .welcome id _ _ _ | .ack id _ _ | .records id _ | .view id _ _ | .gap id _ _ | .logs id _
  | .ok id | .ended id | .pong id | .error id _ _ => id

/-- Whether this frame ends the exchange its id names. -/
def Response.isFinal : Response → Bool
  | .ended _ | .error _ _ _ => true
  | _ => false

/-! ### Writing -/

def number (n : ℕ) : Json := .number (.int n)

def modeName : Mode → String
  | .records => "records"
  | .reducible => "reducible"

def durabilityName : Durability → String
  | .memory => "memory"
  | .written => "written"
  | .durable => "durable"

def codeName : Code → String
  | .rejected => "rejected"
  | .noSuchLog => "no_such_log"
  | .logExists => "log_exists"
  | .notReducible => "not_reducible"
  | .outOfRange => "out_of_range"
  | .badId => "bad_id"
  | .unauthorized => "unauthorized"
  | .malformed => "malformed"
  | .storage => "storage"
  | .backpressure => "backpressure"
  | .internal => "internal"

def Record.fields (r : Record) : List (String × Json) :=
  [("version", number r.version.toNat), ("patch", r.patch)]

def Record.json (r : Record) : Json := .object r.fields

def LogInfo.fields (l : LogInfo) : List (String × Json) :=
  [("name", .string l.name), ("reducible", .bool l.reducible),
    ("version", number l.version.toNat), ("oldest", number l.oldest.toNat),
    ("subscribers", number l.subscribers.toNat)]

def LogInfo.json (l : LogInfo) : Json := .object l.fields

def Request.tag : Request → String
  | .hello _ _ => "hello"
  | .append _ _ _ _ => "append"
  | .subscribe _ _ _ _ _ => "subscribe"
  | .credit _ _ => "credit"
  | .cancel _ => "cancel"
  | .read _ _ _ => "read"
  | .list _ => "list"
  | .create _ _ _ => "create"
  | .ping _ => "ping"

def Request.content : Request → List (String × Json)
  | .hello id version => [("id", number id.toNat), ("version", number version.toNat)]
  | .append id log patches durability =>
      [("id", number id.toNat), ("log", .string log), ("patches", .array (patches.map (·.1))),
        ("durability", .string (durabilityName durability))]
  | .subscribe id log from_ mode window =>
      [("id", number id.toNat), ("log", .string log), ("from", number from_.toNat),
        ("mode", .string (modeName mode)), ("credit", number window.toNat)]
  | .credit id grant => [("id", number id.toNat), ("grant", number grant.toNat)]
  | .cancel id => [("id", number id.toNat)]
  | .read id log at_ =>
      [("id", number id.toNat), ("log", .string log)] ++
        (at_.map fun version => ("at", number version.toNat)).toList
  | .list id => [("id", number id.toNat)]
  | .create id log reducible =>
      [("id", number id.toNat), ("log", .string log), ("reducible", .bool reducible)]
  | .ping id => [("id", number id.toNat)]

def Request.fields (r : Request) : List (String × Json) := ("t", .string r.tag) :: r.content

def Request.json (r : Request) : Json := .object r.fields

def Response.tag : Response → String
  | .welcome _ _ _ _ => "welcome"
  | .ack _ _ _ => "ack"
  | .records _ _ => "records"
  | .view _ _ _ => "view"
  | .gap _ _ _ => "gap"
  | .logs _ _ => "logs"
  | .ok _ => "ok"
  | .ended _ => "end"
  | .pong _ => "pong"
  | .error _ _ _ => "error"

def Response.content : Response → List (String × Json)
  | .welcome id version maxFrame session =>
      [("id", number id.toNat), ("version", number version.toNat),
        ("max_frame", number maxFrame.toNat)] ++
        (session.map fun token => ("session", .string token)).toList
  | .ack id versions synced =>
      [("id", number id.toNat), ("versions", .array (versions.map (number ·.toNat))),
        ("synced", number synced.toNat)]
  | .records id pushed =>
      [("id", number id.toNat), ("records", .array (pushed.map Record.json))]
  | .view id version value =>
      [("id", number id.toNat), ("version", number version.toNat), ("value", value)]
  | .gap id from_ to_ =>
      [("id", number id.toNat), ("from", number from_.toNat), ("to", number to_.toNat)]
  | .logs id infos => [("id", number id.toNat), ("logs", .array (infos.map LogInfo.json))]
  | .ok id => [("id", number id.toNat)]
  | .ended id => [("id", number id.toNat)]
  | .pong id => [("id", number id.toNat)]
  | .error id code message =>
      [("id", number id.toNat), ("code", .string (codeName code)), ("message", .string message)]

def Response.fields (r : Response) : List (String × Json) := ("t", .string r.tag) :: r.content

def Response.json (r : Response) : Json := .object r.fields

/-! ### Reading -/

def unsigned (bound : ℕ) : Json → Option ℕ
  | .number (.int n) => if 0 ≤ n ∧ n < bound then some n.toNat else none
  | _ => none

def u64 (j : Json) : Option UInt64 := (unsigned (2 ^ 64) j).map UInt64.ofNat

def u32 (j : Json) : Option UInt32 := (unsigned (2 ^ 32) j).map UInt32.ofNat

def u16 (j : Json) : Option UInt16 := (unsigned (2 ^ 16) j).map UInt16.ofNat

def string : Json → Option String
  | .string s => some s
  | _ => none

def bool : Json → Option Bool
  | .bool b => some b
  | _ => none

def value (j : Json) : Option Value := some ⟨j.normal, j.canonical_normal⟩

def option {α : Type} (read : Json → Option α) : Json → Option (Option α)
  | .null => some none
  | j => (read j).map some

def array {α : Type} (read : Json → Option α) : Json → Option (List α)
  | .array items => items.mapM read
  | _ => none

/-- A variant without fields: its name, or an object of that one field and nothing in it. -/
def variant {α : Type} (named : String → Option α) : Json → Option α
  | .string s => named s
  | .object [(s, .null)] => named s
  | .object [(s, .object [])] => named s
  | _ => none

def modeNamed : String → Option Mode
  | "records" => some .records
  | "reducible" => some .reducible
  | _ => none

def durabilityNamed : String → Option Durability
  | "memory" => some .memory
  | "written" => some .written
  | "durable" => some .durable
  | _ => none

def codeNamed : String → Option Code
  | "rejected" => some .rejected
  | "no_such_log" => some .noSuchLog
  | "log_exists" => some .logExists
  | "not_reducible" => some .notReducible
  | "out_of_range" => some .outOfRange
  | "bad_id" => some .badId
  | "unauthorized" => some .unauthorized
  | "malformed" => some .malformed
  | "storage" => some .storage
  | "backpressure" => some .backpressure
  | "internal" => some .internal
  | _ => none

/-- The items of an array under the names of the fields, in the order of the declaration. -/
def positional (names : List String) (items : List Json) : Option (List (String × Json)) :=
  if items.length ≤ names.length then some (names.zip items) else none

/-- A `struct`. -/
def readStruct {α : Type} (names : List String) (read : List (String × Json) → Option α) :
    Json → Option α
  | .object fields => read fields
  | .array items => (positional names items).bind read
  | _ => none

/-- What stands beside the tag of a frame. -/
def untagged (fields : List (String × Json)) : List (String × Json) := fields.filter (·.1 ≠ "t")

/-- An `enum` whose tag is the field `t`. -/
def readTagged {α : Type} (names : String → List String)
    (read : String → List (String × Json) → Option α) : Json → Option α
  | .object fields => do
      let tag ← required string "t" fields
      read tag (untagged fields)
  | .array (tag :: items) => do
      let tag ← string tag
      (positional (names tag) items).bind (read tag)
  | _ => none

def Record.names : List String := ["version", "patch"]

def Record.read (fields : List (String × Json)) : Option Record := do
  let version ← required u64 "version" fields
  let patch ← required value "patch" fields
  return { version, patch }

def Record.ofJson : Json → Option Record := readStruct Record.names Record.read

def LogInfo.names : List String := ["name", "reducible", "version", "oldest", "subscribers"]

def LogInfo.read (fields : List (String × Json)) : Option LogInfo := do
  let name ← required string "name" fields
  let reducible ← required bool "reducible" fields
  let version ← required u64 "version" fields
  let oldest ← required u64 "oldest" fields
  let subscribers ← required u32 "subscribers" fields
  return { name, reducible, version, oldest, subscribers }

def LogInfo.ofJson : Json → Option LogInfo := readStruct LogInfo.names LogInfo.read

def Request.names : String → List String
  | "hello" => ["id", "version"]
  | "append" => ["id", "log", "patches", "durability"]
  | "subscribe" => ["id", "log", "from", "mode", "credit"]
  | "credit" => ["id", "grant"]
  | "read" => ["id", "log", "at"]
  | "create" => ["id", "log", "reducible"]
  | _ => ["id"]

def Request.readAs (tag : String) (fields : List (String × Json)) : Option Request :=
  match tag with
  | "hello" => do
      return .hello (← required u64 "id" fields) (← required u16 "version" fields)
  | "append" => do
      return .append (← required u64 "id" fields) (← required string "log" fields)
        (← required (array value) "patches" fields)
        (← defaulted (variant durabilityNamed) .written "durability" fields)
  | "subscribe" => do
      return .subscribe (← required u64 "id" fields) (← required string "log" fields)
        (← defaulted u64 0 "from" fields) (← defaulted (variant modeNamed) .records "mode" fields)
        (← required u32 "credit" fields)
  | "credit" => do
      return .credit (← required u64 "id" fields) (← required u32 "grant" fields)
  | "cancel" => do return .cancel (← required u64 "id" fields)
  | "read" => do
      return .read (← required u64 "id" fields) (← required string "log" fields)
        (← defaulted (option u64) none "at" fields)
  | "list" => do return .list (← required u64 "id" fields)
  | "create" => do
      return .create (← required u64 "id" fields) (← required string "log" fields)
        (← required bool "reducible" fields)
  | "ping" => do return .ping (← required u64 "id" fields)
  | _ => none

def Request.ofJson : Json → Option Request := readTagged Request.names Request.readAs

def Response.names : String → List String
  | "welcome" => ["id", "version", "max_frame", "session"]
  | "ack" => ["id", "versions", "synced"]
  | "records" => ["id", "records"]
  | "view" => ["id", "version", "value"]
  | "gap" => ["id", "from", "to"]
  | "logs" => ["id", "logs"]
  | "error" => ["id", "code", "message"]
  | _ => ["id"]

def Response.readAs (tag : String) (fields : List (String × Json)) : Option Response :=
  match tag with
  | "welcome" => do
      return .welcome (← required u64 "id" fields) (← required u16 "version" fields)
        (← required u32 "max_frame" fields) (← defaulted (option string) none "session" fields)
  | "ack" => do
      return .ack (← required u64 "id" fields) (← required (array u64) "versions" fields)
        (← required u64 "synced" fields)
  | "records" => do
      return .records (← required u64 "id" fields)
        (← required (array Record.ofJson) "records" fields)
  | "view" => do
      return .view (← required u64 "id" fields) (← required u64 "version" fields)
        (← required value "value" fields)
  | "gap" => do
      return .gap (← required u64 "id" fields) (← required u64 "from" fields)
        (← required u64 "to" fields)
  | "logs" => do
      return .logs (← required u64 "id" fields) (← required (array LogInfo.ofJson) "logs" fields)
  | "ok" => do return .ok (← required u64 "id" fields)
  | "end" => do return .ended (← required u64 "id" fields)
  | "pong" => do return .pong (← required u64 "id" fields)
  | "error" => do
      return .error (← required u64 "id" fields) (← required (variant codeNamed) "code" fields)
        (← required string "message" fields)
  | _ => none

def Response.ofJson : Json → Option Response := readTagged Response.names Response.readAs

end Lug.Proto
