import Lug.Ts.Wire

/-!
`client.ts`: what a client makes of the calls it is given, before its transport sends
them. Whatever it hands on, the daemon reads as what the caller asked for.
-/

namespace Lug.Ts

open Fields

/-- `Request` of `types.ts`. -/
inductive Request
  | hello (id version : ℕ)
  | append (id : ℕ) (log : String) (patches : List Json) (durability : Durability)
  | subscribe (id : ℕ) (log : String) (from_ : ℕ) (mode : Mode) (credit : ℕ)
  | credit (id grant : ℕ)
  | cancel (id : ℕ)
  | read (id : ℕ) (log : String) (at_ : Option ℕ)
  | list (id : ℕ)
  | create (id : ℕ) (log : String) (reducible : Bool)
  | ping (id : ℕ)

namespace Request

def id : Request → ℕ
  | hello id _ | append id _ _ _ | subscribe id _ _ _ _ | credit id _ | cancel id | read id _ _
  | list id | create id _ _ | ping id => id

def tag : Request → String
  | hello _ _ => "hello"
  | append _ _ _ _ => "append"
  | subscribe _ _ _ _ _ => "subscribe"
  | credit _ _ => "credit"
  | cancel _ => "cancel"
  | read _ _ _ => "read"
  | list _ => "list"
  | create _ _ _ => "create"
  | ping _ => "ping"

open Proto in
/-- The properties behind the tag, in the order they are set. -/
def content : Request → List (String × Json)
  | hello id version => [("id", number id), ("version", number version)]
  | append id log patches durability =>
      [("id", number id), ("log", .string log), ("patches", .array patches),
        ("durability", .string (durabilityName durability))]
  | subscribe id log from_ mode window =>
      [("id", number id), ("log", .string log), ("from", number from_),
        ("mode", .string (modeName mode)), ("credit", number window)]
  | credit id grant => [("id", number id), ("grant", number grant)]
  | cancel id => [("id", number id)]
  | read id log none => [("id", number id), ("log", .string log)]
  | read id log (some version) =>
      [("id", number id), ("log", .string log), ("at", number version)]
  | list id => [("id", number id)]
  | create id log reducible =>
      [("id", number id), ("log", .string log), ("reducible", .bool reducible)]
  | ping id => [("id", number id)]

/-- What `JSON.stringify` writes out. -/
def json (r : Request) : Json := .object (("t", .string r.tag) :: r.content)

/-- The numbers of a request are such that the daemon has them. -/
def Fits : Request → Prop
  | hello id version => id < 2 ^ 64 ∧ version < 2 ^ 16
  | subscribe id _ from_ _ window => id < 2 ^ 64 ∧ from_ < 2 ^ 64 ∧ window < 2 ^ 32
  | credit id grant => id < 2 ^ 64 ∧ grant < 2 ^ 32
  | read id _ at_ => id < 2 ^ 64 ∧ ∀ version, at_ = some version → version < 2 ^ 64
  | r => r.id < 2 ^ 64

/-- The request as the daemon has it. -/
def asked : Request → Proto.Request
  | hello id version => .hello (.ofNat id) (.ofNat version)
  | append id log patches durability =>
      .append (.ofNat id) log (patches.map fun j => ⟨j.normal, j.canonical_normal⟩) durability
  | subscribe id log from_ mode window =>
      .subscribe (.ofNat id) log (.ofNat from_) mode (.ofNat window)
  | credit id grant => .credit (.ofNat id) (.ofNat grant)
  | cancel id => .cancel (.ofNat id)
  | read id log at_ => .read (.ofNat id) log (at_.map .ofNat)
  | list id => .list (.ofNat id)
  | create id log reducible => .create (.ofNat id) log reducible
  | ping id => .ping (.ofNat id)

end Request

/-! ### What the daemon reads -/

namespace Request

open Proto

theorem u64_ofNat {n : ℕ} (h : n < 2 ^ 64) : u64 (number n) = some (.ofNat n) := by
  rw [u64, unsigned_number h, Option.map_some]

theorem u32_ofNat {n : ℕ} (h : n < 2 ^ 32) : u32 (number n) = some (.ofNat n) := by
  rw [u32, unsigned_number h, Option.map_some]

theorem u16_ofNat {n : ℕ} (h : n < 2 ^ 16) : u16 (number n) = some (.ofNat n) := by
  rw [u16, unsigned_number h, Option.map_some]

theorem array_value (items : List Json) :
    array Proto.value (.array items) =
      some (items.map fun j => ⟨j.normal, j.canonical_normal⟩) := by
  show items.mapM Proto.value = _
  induction items with
  | nil => rfl
  | cons j items ih =>
      rw [List.mapM_cons, ih]
      rfl

theorem nodup_content (r : Request) : (r.content.map Prod.fst).Nodup := by
  cases r with
  | read id log at_ => cases at_ <;> simp [content]
  | _ => simp [content]

theorem tag_content (r : Request) : "t" ∉ r.content.map Prod.fst := by
  cases r with
  | read id log at_ => cases at_ <;> simp [content]
  | _ => simp [content]

/-- A frame is read by its tag. -/
theorem ofJson_json (r : Request) :
    Proto.Request.ofJson r.json = Proto.Request.readAs r.tag r.content := by
  have hnodup : ((("t", Json.string r.tag) :: r.content).map Prod.fst).Nodup :=
    List.nodup_cons.mpr ⟨r.tag_content, r.nodup_content⟩
  have htag : required string "t" (("t", Json.string r.tag) :: r.content) = some r.tag := by
    rw [required_of_nodup hnodup]
    simp
  have hrest : untagged (("t", Json.string r.tag) :: r.content) = r.content := by
    rw [untagged, List.filter_cons_of_neg (by simp), List.filter_eq_self]
    intro f hf
    have hne : f.1 ≠ "t" := fun heq => r.tag_content (heq ▸ List.mem_map_of_mem hf)
    simpa using hne
  rw [json, Proto.Request.ofJson, readTagged, htag, hrest]
  rfl

theorem mem_id (r : Request) : ("id", number r.id) ∈ r.content := by
  cases r with
  | read id log at_ => cases at_ <;> simp [content, Request.id]
  | _ => simp [content, Request.id]

theorem Fits.id {r : Request} (h : r.Fits) : r.id < 2 ^ 64 := by
  cases r <;> first | exact h | exact h.1

/-- The daemon reads a request as it was meant. -/
theorem read_json {r : Request} (h : r.Fits) : Proto.Request.ofJson r.json = some r.asked := by
  have hspells : Spells [] r.content (fun _ => False) r.content := .refl r.nodup_content
  have hid := hspells.required (k := "id") r.mem_id not_false (u64_ofNat h.id)
  rw [ofJson_json]
  cases r with
  | hello id version =>
      have hversion := hspells.required (k := "version") (by simp [content]) not_false
        (u16_ofNat h.2)
      simp only [tag, Proto.Request.readAs, hid, hversion]
      rfl
  | append id log patches durability =>
      have hlog := hspells.required (k := "log") (by simp [content]) not_false (string_string log)
      have hpatches := hspells.required (k := "patches") (by simp [content]) not_false
        (array_value patches)
      have hdurability := hspells.defaulted (k := "durability") (d := .written) (by simp [content])
        (fun hleft => hleft.elim) (variant_durability durability)
      simp only [tag, Proto.Request.readAs, hid, hlog, hpatches, hdurability]
      rfl
  | subscribe id log from_ mode window =>
      have hlog := hspells.required (k := "log") (by simp [content]) not_false (string_string log)
      have hfrom := hspells.defaulted (k := "from") (d := 0) (by simp [content])
        (fun hleft => hleft.elim) (u64_ofNat h.2.1)
      have hmode := hspells.defaulted (k := "mode") (d := .records) (by simp [content])
        (fun hleft => hleft.elim) (variant_mode mode)
      have hwindow := hspells.required (k := "credit") (by simp [content]) not_false
        (u32_ofNat h.2.2)
      simp only [tag, Proto.Request.readAs, hid, hlog, hfrom, hmode, hwindow]
      rfl
  | credit id grant =>
      have hgrant := hspells.required (k := "grant") (by simp [content]) not_false (u32_ofNat h.2)
      simp only [tag, Proto.Request.readAs, hid, hgrant]
      rfl
  | read id log at_ =>
      have hlog := hspells.required (k := "log") (by cases at_ <;> simp [content]) not_false
        (string_string log)
      have hat : defaulted (option u64) none "at" (content (.read id log at_)) =
          some (at_.map .ofNat) := by
        cases at_ with
        | none => exact defaulted_nil (under_eq_nil.mpr (by simp [content]))
        | some version =>
            have hread : option u64 (number version) = some (some (.ofNat version)) := by
              show (u64 (number version)).map some = _
              rw [u64_ofNat (h.2 version rfl), Option.map_some]
            exact hspells.defaulted (by simp [content]) (fun hleft => hleft.elim) hread
      simp only [tag, Proto.Request.readAs, hid, hlog, hat]
      rfl
  | create id log reducible =>
      have hlog := hspells.required (k := "log") (by simp [content]) not_false (string_string log)
      have hreducible := hspells.required (k := "reducible") (by simp [content]) not_false
        (bool_bool reducible)
      simp only [tag, Proto.Request.readAs, hid, hlog, hreducible]
      rfl
  | cancel id | list id | ping id =>
      simp only [tag, Proto.Request.readAs, hid]
      rfl

end Request

/-! ### The client -/

/-- A number, by the bits of the double it is. -/
abbrev Double := UInt64

/-- `Number.isSafeInteger(x) && x >= 0`, and the version it then is. -/
def version (x : Double) : Option ℕ :=
  (integer (.float x.toNat)).bind fun n =>
    if 0 ≤ n ∧ n < (2 ^ 53 : ℕ) then some n.toNat else none

/-- `Number.isFinite(x) && x > 0`. -/
def positive (x : Double) : Bool := 0 < x && x < 0x7ff0000000000000

/-- What a call of the client throws before it gets to the transport. -/
inductive Refusal
  | path
  | timeout (received : Double)
  | closed
  | version (received : Double) (field : String)
  | exhausted
  deriving DecidableEq, Repr

/-- The text of the error, with numbers as `String` has them. -/
def Refusal.message (written : Double → String) : Refusal → String
  | path => "unix socket path must not be empty"
  | timeout received => "timeoutMs must be positive, received " ++ written received
  | closed => "client is closed"
  | version received field =>
      field ++ " must be a version below Number.MAX_SAFE_INTEGER, received " ++ written received
  | exhausted => "client exhausted safe integer request ids"

inductive ClientOptions
  | unix (path : String)
  | http (baseUrl token : String)

inductive CallRequest
  | append (log : String) (patches : List Json) (durability : Option Durability)
  | read (log : String) (at_ : Option Double)
  | list
  | create (log : String) (reducible : Bool)
  | ping

/-- The version that a read names. -/
def CallRequest.named : CallRequest → Option Double
  | read _ at_ => at_
  | _ => none

structure SubscriptionOptions where
  log : String
  from_ : Option Double
  mode : Option Mode

/-- `Client`, without its transport. -/
structure Client where
  timeoutMs : Double
  nextId : ℕ
  closed : Bool

/-- A request, as the transport is called with it. -/
structure Handed where
  request : Request
  timeoutMs : Double

def checkTimeout (timeoutMs : Double) : Except Refusal Unit :=
  if positive timeoutMs then .ok () else .error (.timeout timeoutMs)

/-- `checkVersion`, of a version that is given. -/
def checkVersion (received : Option Double) (field : String) : Except Refusal (Option ℕ) :=
  match received with
  | none => .ok none
  | some x =>
      match version x with
      | some n => .ok (some n)
      | none => .error (.version x field)

/-- `withId`, where `at` is the version that was checked. -/
def withId (request : CallRequest) (at_ : Option ℕ) (id : ℕ) : Request :=
  match request with
  | .append log patches durability => .append id log patches (durability.getD .written)
  | .read log _ => .read id log at_
  | .list => .list id
  | .create log reducible => .create id log reducible
  | .ping => .ping id

namespace Client

/-- `connect`, where the transport gets connected. Over a socket, the first id went to the
`hello`. -/
def connect (options : ClientOptions) (timeoutMs : Double) : Except Refusal Client := do
  checkTimeout timeoutMs
  match options with
  | .unix path => if path = "" then .error .path else .ok ⟨timeoutMs, 2, false⟩
  | .http _ _ => .ok ⟨timeoutMs, 1, false⟩

def ensureOpen (c : Client) : Except Refusal Unit := if c.closed then .error .closed else .ok ()

def allocateId (c : Client) : Except Refusal (ℕ × Client) :=
  if c.nextId < 2 ^ 53 then .ok (c.nextId, { c with nextId := c.nextId + 1 })
  else .error .exhausted

def call (c : Client) (request : CallRequest) (timeoutMs : Option Double) :
    Except Refusal (Handed × Client) := do
  let timeoutMs := timeoutMs.getD c.timeoutMs
  c.ensureOpen
  checkTimeout timeoutMs
  let at_ ← checkVersion request.named "at"
  let (id, c) ← c.allocateId
  .ok (⟨withId request at_ id, timeoutMs⟩, c)

def subscribe (c : Client) (options : SubscriptionOptions) : Except Refusal (Handed × Client) := do
  c.ensureOpen
  let from_ ← checkVersion options.from_ "from"
  let (id, c) ← c.allocateId
  .ok (⟨.subscribe id options.log (from_.getD 0) (options.mode.getD .records) 0, c.timeoutMs⟩, c)

/-- `close`, and whether the transport is closed with it. -/
def close (c : Client) : Bool × Client :=
  if c.closed then (false, c) else (true, { c with closed := true })

end Client

/-- A call of the client. -/
inductive Use
  | call (request : CallRequest) (timeoutMs : Option Double)
  | subscribe (options : SubscriptionOptions)
  | close

namespace Client

/-- One call. What throws leaves the client as it was. -/
def use (c : Client) : Use → Except Refusal (Option Handed) × Client
  | .call request timeoutMs =>
      match c.call request timeoutMs with
      | .ok (handed, c) => (.ok (some handed), c)
      | .error e => (.error e, c)
  | .subscribe options =>
      match c.subscribe options with
      | .ok (handed, c) => (.ok (some handed), c)
      | .error e => (.error e, c)
  | .close => (.ok none, c.close.2)

/-- What the transport is called with, use after use. -/
def handed (c : Client) : List Use → List Handed
  | [] => []
  | u :: us =>
      match c.use u with
      | (.ok (some h), c) => h :: c.handed us
      | (_, c) => c.handed us

end Client

/-! ### What is asked of the daemon -/

/-- The version that is named, where one is, and it is one that a double holds exactly. -/
def Named (received : Option Double) : Bool := received.all fun x => (version x).isSome

namespace Use

def isClose : Use → Bool
  | close => true
  | _ => false

/-- A use that says nothing a client refuses. -/
def sound : Use → Bool
  | call request timeoutMs => timeoutMs.all positive && Named request.named
  | subscribe options => Named options.from_
  | close => false

/-- What is asked by it of the daemon, under an id. -/
def meant (id : UInt64) : Use → Option Proto.Request
  | call (.append log patches durability) _ => some (.append id log
      (patches.map fun j => ⟨j.normal, j.canonical_normal⟩) (durability.getD .written))
  | call (.read log at_) _ => some (.read id log (at_.bind fun x => (version x).map .ofNat))
  | call .list _ => some (.list id)
  | call (.create log reducible) _ => some (.create id log reducible)
  | call .ping _ => some (.ping id)
  | subscribe options => some (.subscribe id options.log
      (.ofNat ((options.from_.bind version).getD 0)) (options.mode.getD .records) 0)
  | close => none

end Use

theorem version_lt {x : Double} {n : ℕ} (h : version x = some n) : n < 2 ^ 53 := by
  obtain ⟨i, -, hi⟩ := Option.bind_eq_some_iff.mp h
  split_ifs at hi with hsafe
  cases hi
  omega

theorem checkVersion_eq (received : Option Double) (field : String) :
    (Named received = true ∧ checkVersion received field = .ok (received.bind version)) ∨
      (Named received = false ∧ ∃ e, checkVersion received field = .error e) := by
  cases received with
  | none => exact .inl ⟨rfl, rfl⟩
  | some x =>
      cases h : version x with
      | none => exact .inr ⟨by simp [Named, h], .version x field, by simp [checkVersion, h]⟩
      | some n => exact .inl ⟨by simp [Named, h], by simp [checkVersion, h]⟩

namespace Client

variable {c : Client}

/-- The two ways a use that is no close can go, on an open client. -/
inductive Went (c : Client) (u : Use) : Prop
  | out (h : Handed) (sound : u.sound = true) (free : c.nextId < 2 ^ 53)
      (use : c.use u = (.ok (some h), { c with nextId := c.nextId + 1 }))
      (id : h.request.id = c.nextId) (fits : h.request.Fits)
      (asked : u.meant (.ofNat c.nextId) = some h.request.asked)
  | thrown (e : Refusal) (why : u.sound = false ∨ ¬c.nextId < 2 ^ 53)
      (use : c.use u = (.error e, c))

theorem allocateId_eq (c : Client) :
    (c.nextId < 2 ^ 53 ∧ c.allocateId = .ok (c.nextId, { c with nextId := c.nextId + 1 })) ∨
      (¬c.nextId < 2 ^ 53 ∧ c.allocateId = .error .exhausted) := by
  by_cases h : c.nextId < 2 ^ 53
  · exact .inl ⟨h, if_pos h⟩
  · exact .inr ⟨h, if_neg h⟩

theorem ensureOpen_ok (hopen : c.closed = false) : c.ensureOpen = .ok () := by
  simp [ensureOpen, hopen]

/-- The timeout a call runs with is checked again, also where it is the client's own. -/
theorem checkTimeout_getD (hpositive : positive c.timeoutMs = true) (timeoutMs : Option Double) :
    (timeoutMs.all positive = true ∧ checkTimeout (timeoutMs.getD c.timeoutMs) = .ok ()) ∨
      (timeoutMs.all positive = false ∧
        ∃ e, checkTimeout (timeoutMs.getD c.timeoutMs) = .error e) := by
  cases timeoutMs with
  | none => exact .inl ⟨rfl, if_pos hpositive⟩
  | some x =>
      cases h : positive x with
      | true => exact .inl ⟨h, if_pos h⟩
      | false => exact .inr ⟨h, _, if_neg (by simp [h])⟩

theorem went_call (hopen : c.closed = false) (hpositive : positive c.timeoutMs = true)
    (request : CallRequest) (timeoutMs : Option Double) : Went c (.call request timeoutMs) := by
  have hguard := ensureOpen_ok hopen
  rcases checkTimeout_getD hpositive timeoutMs with ⟨hall, hcheck⟩ | ⟨hall, e, hcheck⟩
  case inr =>
    exact .thrown e (.inl (by simp [Use.sound, hall]))
      (by simp [use, call, hguard, hcheck, bind, Except.bind])
  rcases checkVersion_eq request.named "at" with ⟨hnamed, hat⟩ | ⟨hnamed, e, hat⟩
  case inr =>
    exact .thrown e (.inl (by simp [Use.sound, hnamed]))
      (by simp [use, call, hguard, hcheck, hat, bind, Except.bind])
  rcases c.allocateId_eq with ⟨hfree, hid⟩ | ⟨hfull, hid⟩
  case inr =>
    exact .thrown .exhausted (.inr hfull)
      (by simp [use, call, hguard, hcheck, hat, hid, bind, Except.bind])
  refine .out ⟨withId request (request.named.bind version) c.nextId, timeoutMs.getD c.timeoutMs⟩
    (by simp [Use.sound, hall, hnamed]) hfree
    (by simp [use, call, hguard, hcheck, hat, hid, bind, Except.bind]) ?_ ?_ ?_
  · cases request <;> rfl
  · have hlt : c.nextId < 2 ^ 64 := by omega
    cases request with
    | read log at_ =>
        refine ⟨hlt, fun n hn => ?_⟩
        obtain ⟨x, -, hx⟩ := Option.bind_eq_some_iff.mp hn
        have := version_lt hx
        omega
    | _ => exact hlt
  · cases request with
    | read log at_ => simp [Use.meant, withId, Request.asked, CallRequest.named, Option.map_bind]
    | _ => rfl

theorem went_subscribe (hopen : c.closed = false) (options : SubscriptionOptions) :
    Went c (.subscribe options) := by
  have hguard := ensureOpen_ok hopen
  rcases checkVersion_eq options.from_ "from" with ⟨hnamed, hfrom⟩ | ⟨hnamed, e, hfrom⟩
  case inr =>
    exact .thrown e (.inl hnamed) (by simp [use, subscribe, hguard, hfrom, bind, Except.bind])
  rcases c.allocateId_eq with ⟨hfree, hid⟩ | ⟨hfull, hid⟩
  case inr =>
    exact .thrown .exhausted (.inr hfull)
      (by simp [use, subscribe, hguard, hfrom, hid, bind, Except.bind])
  refine .out ⟨.subscribe c.nextId options.log ((options.from_.bind version).getD 0)
    (options.mode.getD .records) 0, c.timeoutMs⟩ hnamed hfree
    (by simp [use, subscribe, hguard, hfrom, hid, bind, Except.bind]) rfl
    ⟨by omega, ?_, by decide⟩ rfl
  cases hat : options.from_.bind version with
  | none => decide
  | some n =>
      obtain ⟨x, -, hx⟩ := Option.bind_eq_some_iff.mp hat
      have := version_lt hx
      rw [Option.getD_some]
      omega

theorem handed_closed (hclosed : c.closed = true) (uses : List Use) : c.handed uses = [] := by
  have hguard : c.ensureOpen = .error .closed := by simp [ensureOpen, hclosed]
  induction uses with
  | nil => rfl
  | cons u uses ih =>
      cases u with
      | call request timeoutMs => simp [handed, use, call, hguard, bind, Except.bind, ih]
      | subscribe options => simp [handed, use, subscribe, hguard, bind, Except.bind, ih]
      | close => simp [handed, use, close, hclosed, ih]

/-- The uses that get to the transport: the sound ones in front of the first close, as far as
the ids last. -/
def sent (c : Client) (uses : List Use) : List Use :=
  ((uses.takeWhile fun u => !u.isClose).filter Use.sound).take (2 ^ 53 - c.nextId)

/-- The calls of the transport are the uses that get there, in their order and with ids that
count on, and the daemon reads of each what was meant. -/
theorem handed_open (hopen : c.closed = false) (hpositive : positive c.timeoutMs = true)
    (uses : List Use) :
    (c.handed uses).map (fun h => Proto.Request.ofJson h.request.json) =
        (c.sent uses).mapIdx (fun i u => u.meant (.ofNat (c.nextId + i))) ∧
      (c.handed uses).map (·.request.id) = List.range' c.nextId (c.handed uses).length := by
  induction uses generalizing c with
  | nil => simp [handed, sent]
  | cons u uses ih =>
      by_cases hclose : u = .close
      · subst hclose
        have hnone : c.handed (.close :: uses) = [] := by
          have hlater := handed_closed (c := { c with closed := true }) rfl uses
          simpa [handed, use, close, hopen] using hlater
        simp [hnone, sent, Use.isClose]
      have hgoes : (!u.isClose) = true := by cases u <;> simp [Use.isClose] at hclose ⊢
      have hwent : Went c u := by
        cases u with
        | call request timeoutMs => exact went_call hopen hpositive request timeoutMs
        | subscribe options => exact went_subscribe hopen options
        | close => exact absurd rfl hclose
      cases hwent with
      | thrown e why huse =>
          have hsame : c.sent (u :: uses) = c.sent uses := by
            rcases why with hsound | hfull
            · simp [sent, hgoes, hsound]
            · have hzero : 2 ^ 53 - c.nextId = 0 := by omega
              rw [sent, sent, hzero, List.take_zero, List.take_zero]
          have hrest : c.handed (u :: uses) = c.handed uses := by simp [handed, huse]
          rw [hsame, hrest]
          exact ih hopen hpositive
      | out h hsound hfree huse hid hfits hasked =>
          generalize hnext : ({ c with nextId := c.nextId + 1 } : Client) = next at huse
          have hid' : next.nextId = c.nextId + 1 := by rw [← hnext]
          obtain ⟨hmeant, hids⟩ := ih (c := next) (by rw [← hnext, hopen])
            (by rw [← hnext]; exact hpositive)
          have hcons : c.sent (u :: uses) = u :: next.sent uses := by
            have hleft : 2 ^ 53 - c.nextId = (2 ^ 53 - next.nextId) + 1 := by omega
            have htake : (u :: uses).takeWhile (fun u => !u.isClose) =
                u :: uses.takeWhile (fun u => !u.isClose) := List.takeWhile_cons_of_pos hgoes
            rw [sent, hleft, htake, List.filter_cons_of_pos hsound, List.take_succ_cons]
            rfl
          have hrest : c.handed (u :: uses) = h :: next.handed uses := by simp [handed, huse]
          rw [hcons, hrest, List.map_cons, List.map_cons, hids, List.mapIdx_cons, hmeant,
            Request.read_json hfits, Nat.add_zero, hasked, hid, hid', List.length_cons,
            List.range'_succ]
          refine ⟨?_, rfl⟩
          congr 2
          funext i u
          rw [Nat.add_right_comm, Nat.add_assoc]

theorem connect_ok {options : ClientOptions} {timeoutMs : Double}
    (h : connect options timeoutMs = .ok c) :
    c.closed = false ∧ positive c.timeoutMs = true := by
  cases hpositive : positive timeoutMs with
  | false => simp [connect, checkTimeout, hpositive, bind, Except.bind] at h
  | true =>
      have hcheck : checkTimeout timeoutMs = .ok () := if_pos hpositive
      cases options with
      | http baseUrl token =>
          have hclient : c = ⟨timeoutMs, 1, false⟩ := by
            simpa [connect, hcheck, bind, Except.bind] using h.symm
          rw [hclient]
          exact ⟨rfl, hpositive⟩
      | unix path =>
          have hclient : c = ⟨timeoutMs, 2, false⟩ := by
            by_cases hpath : path = ""
            · simp [connect, hcheck, hpath, bind, Except.bind] at h
            · simpa [connect, hcheck, hpath, bind, Except.bind] using h.symm
          rw [hclient]
          exact ⟨rfl, hpositive⟩

/-- Whatever is made of a client, the daemon is asked for what the caller meant, and for
nothing that the client refused or that came behind its close. -/
theorem handed_meant {options : ClientOptions} {timeoutMs : Double}
    (h : connect options timeoutMs = .ok c) (uses : List Use) :
    (c.handed uses).map (fun h => Proto.Request.ofJson h.request.json) =
        (c.sent uses).mapIdx (fun i u => u.meant (.ofNat (c.nextId + i))) ∧
      (c.handed uses).map (·.request.id) = List.range' c.nextId (c.handed uses).length :=
  handed_open (connect_ok h).1 (connect_ok h).2 uses

/-- Over HTTP, with a timeout of one millisecond: a log that is read from a version that no
double is, one that is read from the start, and one behind the close. -/
theorem oneMs_meant : ((⟨0x3ff0000000000000, 1, false⟩ : Client).handed
    [.subscribe ⟨"a", some 0x3fe0000000000000, none⟩, .subscribe ⟨"a", none, none⟩, .close,
      .call .list none]).map (fun h => Proto.Request.ofJson h.request.json) =
    [some (.subscribe 1 "a" 0 .records 0)] := by
  have hconnect : connect (.http "http://localhost" "") 0x3ff0000000000000 =
      .ok ⟨0x3ff0000000000000, 1, false⟩ := rfl
  refine (handed_meant hconnect _).1.trans ?_
  rfl

end Client

end Lug.Ts
