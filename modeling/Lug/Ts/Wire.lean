import Lug.Proto.Spelled
import Lug.Ts.Shared

/-!
`isResponse` of `wire.ts`, over what `JSON.parse` makes of a frame: it takes the frames
that the daemon writes wherever a double holds their numbers, and of the values that both
languages have those that decode to a response.
-/

namespace Lug.Ts

open Fields

/-- The integer a number is as a double. One out of the safe range is rounded there, and
stays out of it. -/
def integer : Number → Option ℤ
  | .int n => some n
  | .float bits =>
      let exponent := bits / 2 ^ 52 % 2 ^ 11
      let fraction := bits % 2 ^ 52
      let sign : ℤ := if bits / 2 ^ 63 % 2 = 0 then 1 else -1
      if exponent = 0 then if fraction = 0 then some 0 else none
      else if 1075 ≤ exponent then
        some (sign * ((2 ^ 52 + fraction) * 2 ^ (exponent - 1075) : ℕ))
      else if (2 ^ 52 + fraction) % 2 ^ (1075 - exponent) = 0 then
        some (sign * ((2 ^ 52 + fraction) / 2 ^ (1075 - exponent) : ℕ))
      else none

/-- `Number.isInteger(value) && value >= 0 && value < bound`. -/
def isBelow (bound : ℕ) : Json → Bool
  | .number n => (integer n).any fun i : ℤ => 0 ≤ i ∧ i < bound
  | _ => false

/-- `isVersion`, and `isId`: a safe integer that is not negative. -/
def isVersion : Json → Bool := isBelow (2 ^ 53)

def isU16 : Json → Bool := isBelow (2 ^ 16)

def isU32 : Json → Bool := isBelow (2 ^ 32)

def isBoolean : Json → Bool
  | .bool _ => true
  | _ => false

/-- `Array.isArray(value) && value.every(p)`. -/
def isArrayOf (p : Json → Bool) : Json → Bool
  | .array items => items.all p
  | _ => false

/-- `CODES.has(value)`. -/
def isCode : Json → Bool
  | .string s => s ∈ ["rejected", "no_such_log", "log_exists", "not_reducible", "out_of_range",
      "bad_id", "unauthorized", "malformed", "storage", "backpressure", "internal"]
  | _ => false

/-- A property that is defined and passes. -/
def has (p : Json → Bool) (key : String) (fields : List (String × Json)) : Bool :=
  (fields.lookup key).any p

def isRecord : Json → Bool
  | .object fields => has isVersion "version" fields && (fields.lookup "patch").isSome
  | _ => false

def isLogInfo : Json → Bool
  | .object fields =>
      has isString "name" fields && has isBoolean "reducible" fields &&
        has isVersion "version" fields && has isVersion "oldest" fields &&
        has isU32 "subscribers" fields
  | _ => false

/-- The `switch` of `isResponse`. -/
def isBody (fields : List (String × Json)) (tag : String) : Bool :=
  match tag with
  | "welcome" =>
      has isU16 "version" fields && has isU32 "max_frame" fields &&
        (fields.lookup "session").all isString
  | "ack" => has (isArrayOf isVersion) "versions" fields && has isVersion "synced" fields
  | "records" => has (isArrayOf isRecord) "records" fields
  | "view" => has isVersion "version" fields && (fields.lookup "value").isSome
  | "gap" => has isVersion "from" fields && has isVersion "to" fields
  | "logs" => has (isArrayOf isLogInfo) "logs" fields
  | "ok" => true
  | "end" => true
  | "pong" => true
  | "error" => has isCode "code" fields && has isString "message" fields
  | _ => false

def isResponse : Json → Bool
  | .object fields =>
      has isVersion "id" fields &&
        match fields.lookup "t" with
        | some (.string tag) => isBody fields tag
        | _ => false
  | _ => false

/-! ### What the daemon writes -/

theorem has_cons (p : Json → Bool) (key k : String) (v : Json) (fields : List (String × Json)) :
    has p key ((k, v) :: fields) = if key = k then p v else has p key fields := by
  rw [has, List.lookup_cons]
  by_cases h : key = k
  · rw [if_pos h, beq_iff_eq.mpr h]
    rfl
  · rw [if_neg h, beq_false_of_ne h]
    rfl

theorem isBelow_number {bound n : ℕ} : isBelow bound (Proto.number n) = true ↔ n < bound := by
  simp [isBelow, Proto.number, integer]

theorem isVersion_number {n : ℕ} : isVersion (Proto.number n) = true ↔ n < 2 ^ 53 :=
  isBelow_number

@[simp] theorem isU16_number (n : UInt16) : isU16 (Proto.number n.toNat) = true :=
  isBelow_number.mpr n.toNat_lt

@[simp] theorem isU32_number (n : UInt32) : isU32 (Proto.number n.toNat) = true :=
  isBelow_number.mpr n.toNat_lt

theorem isArrayOf_map {α : Type} {p : Json → Bool} {write : α → Json} (as : List α) :
    isArrayOf p (.array (as.map write)) = true ↔ ∀ a ∈ as, p (write a) = true := by
  simp [isArrayOf]

theorem isRecord_json (r : Proto.Record) : isRecord r.json = true ↔ r.version.toNat < 2 ^ 53 := by
  simp [isRecord, Proto.Record.json, Proto.Record.fields, has_cons, isVersion_number,
    List.lookup_cons]

theorem isLogInfo_json (l : Proto.LogInfo) :
    isLogInfo l.json = true ↔ l.version.toNat < 2 ^ 53 ∧ l.oldest.toNat < 2 ^ 53 := by
  simp [isLogInfo, Proto.LogInfo.json, Proto.LogInfo.fields, has_cons, isVersion_number, isString,
    isBoolean]

@[simp] theorem isCode_codeName (c : Code) : isCode (.string (Proto.codeName c)) = true := by
  cases c <;> simp [isCode, Proto.codeName]

/-- The numbers of a frame that are a `u64`. -/
def numbers : Proto.Response → List UInt64
  | .welcome id _ _ _ => [id]
  | .ack id versions synced => id :: synced :: versions
  | .records id records => id :: records.map (·.version)
  | .view id version _ => [id, version]
  | .gap id from_ to_ => [id, from_, to_]
  | .logs id logs => id :: logs.flatMap fun l => [l.version, l.oldest]
  | .ok id => [id]
  | .ended id => [id]
  | .pong id => [id]
  | .error id _ _ => [id]

theorem has_id (r : Proto.Response) : has isVersion "id" r.fields = true ↔ r.id.toNat < 2 ^ 53 := by
  rw [← isVersion_number]
  cases r <;> simp [Proto.Response.fields, Proto.Response.content, Proto.Response.id, has_cons]

/-- Of the frames of the daemon, the client takes those whose versions it can hold. -/
theorem isResponse_json (r : Proto.Response) :
    isResponse r.json = true ↔ ∀ n ∈ numbers r, n.toNat < 2 ^ 53 := by
  have hopen : isResponse r.json = (has isVersion "id" r.fields && isBody r.fields r.tag) := by
    simp [isResponse, Proto.Response.json, Proto.Response.fields]
  rw [hopen, Bool.and_eq_true, has_id]
  cases r with
  | welcome id version maxFrame session =>
      cases session <;> simp [isBody, Proto.Response.tag, Proto.Response.fields,
        Proto.Response.content, has_cons, List.lookup_cons, numbers, Proto.Response.id, isString]
  | ack id versions synced =>
      simp [isBody, Proto.Response.tag, Proto.Response.fields, Proto.Response.content, has_cons,
        numbers, Proto.Response.id, isArrayOf_map, isVersion_number, and_comm]
  | records id records =>
      simp [isBody, Proto.Response.tag, Proto.Response.fields, Proto.Response.content, has_cons,
        numbers, Proto.Response.id, isArrayOf_map, isRecord_json]
  | logs id logs =>
      simp [isBody, Proto.Response.tag, Proto.Response.fields, Proto.Response.content, has_cons,
        numbers, Proto.Response.id, isArrayOf_map, isLogInfo_json]
      refine fun _ => ⟨?_, fun h l hl => ⟨h _ l hl (.inl rfl), h _ l hl (.inr rfl)⟩⟩
      rintro h n l hl (rfl | rfl)
      · exact (h l hl).1
      · exact (h l hl).2
  | _ =>
      simp [isBody, Proto.Response.tag, Proto.Response.fields, Proto.Response.content, has_cons,
        List.lookup_cons, numbers, Proto.Response.id, isVersion_number, isString]

/-! ### What decodes to a response -/

section Shared

variable {j : Json} {fields : List (String × Json)}

/-- What `serde` reads and never writes: an absent session as `null`, a code as an object,
a record or a log by position. -/
def Plain (fields : List (String × Json)) (tag : String) : Prop :=
  match tag with
  | "welcome" => fields.lookup "session" ≠ some .null
  | "records" => ∀ items, fields.lookup "records" = some (.array items) →
      ∀ j ∈ items, j.isObject = true
  | "logs" => ∀ items, fields.lookup "logs" = some (.array items) → ∀ j ∈ items, j.isObject = true
  | "error" => ∀ v, fields.lookup "code" = some v → v.isObject = false
  | _ => True

end Shared

end Lug.Ts
