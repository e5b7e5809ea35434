import Lug.Proto.Message

/-!
Every frame reads back as itself from any document that spells it out: its fields in any
order, those that hold their default left out, and fields that this version of the
protocol has no name for among them.
-/

namespace Lug.Proto

open Fields

@[simp] theorem unsigned_number {bound n : ℕ} (h : n < bound) :
    unsigned bound (number n) = some n := by
  rw [number, unsigned, if_pos ⟨Int.natCast_nonneg n, Int.ofNat_lt.mpr h⟩, Int.toNat_natCast]

@[simp] theorem u64_number (n : UInt64) : u64 (number n.toNat) = some n := by
  rw [u64, unsigned_number n.toNat_lt, Option.map_some, UInt64.ofNat_toNat]

@[simp] theorem u32_number (n : UInt32) : u32 (number n.toNat) = some n := by
  rw [u32, unsigned_number n.toNat_lt, Option.map_some, UInt32.ofNat_toNat]

@[simp] theorem u16_number (n : UInt16) : u16 (number n.toNat) = some n := by
  rw [u16, unsigned_number n.toNat_lt, Option.map_some, UInt16.ofNat_toNat]

@[simp] theorem value_val (v : Value) : value v.1 = some v := by
  rw [value]
  exact congrArg some (Subtype.ext v.2.normal_eq)

@[simp] theorem option_u64 (n : UInt64) : option u64 (number n.toNat) = some (some n) := by
  show (u64 (number n.toNat)).map some = _
  rw [u64_number, Option.map_some]

@[simp] theorem option_string (s : String) : option string (.string s) = some (some s) := rfl

theorem array_map {α : Type} {read : Json → Option α} {write : α → Json}
    (h : ∀ a, read (write a) = some a) (as : List α) :
    array read (.array (as.map write)) = some as := by
  show (as.map write).mapM read = some as
  induction as with
  | nil => rfl
  | cons a as ih =>
      rw [List.map_cons, List.mapM_cons, h, ih]
      rfl

@[simp] theorem variant_mode (m : Mode) :
    variant modeNamed (.string (modeName m)) = some m := by
  cases m <;> rfl

@[simp] theorem variant_durability (d : Durability) :
    variant durabilityNamed (.string (durabilityName d)) = some d := by
  cases d <;> rfl

@[simp] theorem variant_code (c : Code) :
    variant codeNamed (.string (codeName c)) = some c := by
  cases c <;> rfl

@[simp] theorem string_string (s : String) : string (.string s) = some s := rfl

@[simp] theorem bool_bool (b : Bool) : bool (.bool b) = some b := rfl

/-! ### Structures -/

theorem Record.read_spells {r : Record} {fields : List (String × Json)}
    (h : Spells Record.names r.fields (fun _ => False) fields) : Record.read fields = some r := by
  have hversion := h.required (k := "version") (by simp [Record.fields]) not_false (u64_number r.version)
  have hpatch := h.required (k := "patch") (by simp [Record.fields]) not_false (value_val r.patch)
  rw [Record.read, hversion, hpatch]
  rfl

@[simp] theorem Record.ofJson_json (r : Record) : Record.ofJson r.json = some r :=
  Record.read_spells (.refl (by simp [Record.fields]))

theorem LogInfo.read_spells {l : LogInfo} {fields : List (String × Json)}
    (h : Spells LogInfo.names l.fields (fun _ => False) fields) :
    LogInfo.read fields = some l := by
  have hname := h.required (k := "name") (by simp [LogInfo.fields]) not_false (string_string l.name)
  have hreducible := h.required (k := "reducible") (by simp [LogInfo.fields]) not_false
    (bool_bool l.reducible)
  have hversion := h.required (k := "version") (by simp [LogInfo.fields]) not_false (u64_number l.version)
  have holdest := h.required (k := "oldest") (by simp [LogInfo.fields]) not_false (u64_number l.oldest)
  have hsubscribers := h.required (k := "subscribers") (by simp [LogInfo.fields]) not_false
    (u32_number l.subscribers)
  rw [LogInfo.read, hname, hreducible, hversion, holdest, hsubscribers]
  rfl

@[simp] theorem LogInfo.ofJson_json (l : LogInfo) : LogInfo.ofJson l.json = some l :=
  LogInfo.read_spells (.refl (by simp [LogInfo.fields]))

/-! ### Frames -/

/-- What may be left out of a request: a field with a default that it holds. -/
def Request.left : Request → String → Prop
  | .append _ _ _ durability, name => name = "durability" ∧ durability = .written
  | .subscribe _ _ from_ mode _, name =>
      name = "from" ∧ from_ = 0 ∨ name = "mode" ∧ mode = .records
  | _, _ => False

theorem Request.mem_id (r : Request) : ("id", number r.id.toNat) ∈ r.content := by
  cases r <;> simp [Request.content, Request.id]

theorem Request.readAs_spells {r : Request} {fields : List (String × Json)}
    (h : Spells (Request.names r.tag) r.content r.left fields) :
    Request.readAs r.tag fields = some r := by
  have hid := h.required (k := "id") r.mem_id (by cases r <;> simp [Request.left])
    (u64_number r.id)
  cases r with
  | hello id version =>
      have hversion := h.required (k := "version") (by simp [content]) (by simp [left])
        (u16_number version)
      simp only [tag, readAs, hid, hversion]
      rfl
  | append id log patches durability =>
      have hlog := h.required (k := "log") (by simp [content]) (by simp [left]) (string_string log)
      have hpatches := h.required (k := "patches") (by simp [content]) (by simp [left])
        (array_map value_val patches)
      have hdurability := h.defaulted (k := "durability") (d := .written) (by simp [content])
        (by simp [left]) (variant_durability durability)
      simp only [tag, readAs, hid, hlog, hpatches, hdurability]
      rfl
  | subscribe id log from_ mode window =>
      have hlog := h.required (k := "log") (by simp [content]) (by simp [left]) (string_string log)
      have hfrom := h.defaulted (k := "from") (d := 0) (by simp [content]) (by simp [left])
        (u64_number from_)
      have hmode := h.defaulted (k := "mode") (d := .records) (by simp [content]) (by simp [left])
        (variant_mode mode)
      have hcredit := h.required (k := "credit") (by simp [content]) (by simp [left])
        (u32_number window)
      simp only [tag, readAs, hid, hlog, hfrom, hmode, hcredit]
      rfl
  | credit id grant =>
      have hgrant := h.required (k := "grant") (by simp [content]) (by simp [left])
        (u32_number grant)
      simp only [tag, readAs, hid, hgrant]
      rfl
  | read id log at_ =>
      have hlog := h.required (k := "log") (by simp [content]) (by simp [left]) (string_string log)
      have hat : defaulted (option u64) none "at" fields = some at_ := by
        cases at_ with
        | none => exact h.defaulted_absent (by simp [tag, names]) (by simp [content])
        | some version =>
            exact h.defaulted (by simp [content]) (by simp [left]) (option_u64 version)
      simp only [tag, readAs, hid, hlog, hat]
      rfl
  | create id log reducible =>
      have hlog := h.required (k := "log") (by simp [content]) (by simp [left]) (string_string log)
      have hreducible := h.required (k := "reducible") (by simp [content]) (by simp [left])
        (bool_bool reducible)
      simp only [tag, readAs, hid, hlog, hreducible]
      rfl
  | cancel id | list id | ping id =>
      simp only [tag, readAs, hid]
      rfl

theorem Response.mem_id (r : Response) : ("id", number r.id.toNat) ∈ r.content := by
  cases r <;> simp [Response.content, Response.id]

theorem Response.readAs_spells {r : Response} {fields : List (String × Json)}
    (h : Spells (Response.names r.tag) r.content (fun _ => False) fields) :
    Response.readAs r.tag fields = some r := by
  have hid := h.required (k := "id") r.mem_id not_false (u64_number r.id)
  cases r with
  | welcome id version maxFrame session =>
      have hversion := h.required (k := "version") (by simp [content]) not_false
        (u16_number version)
      have hmax := h.required (k := "max_frame") (by simp [content]) not_false
        (u32_number maxFrame)
      have hsession : defaulted (option string) none "session" fields = some session := by
        cases session with
        | none => exact h.defaulted_absent (by simp [tag, names]) (by simp [content])
        | some token => exact h.defaulted (by simp [content]) False.elim (option_string token)
      simp only [tag, readAs, hid, hversion, hmax, hsession]
      rfl
  | ack id versions synced =>
      have hversions := h.required (k := "versions") (by simp [content]) not_false
        (array_map u64_number versions)
      have hsynced := h.required (k := "synced") (by simp [content]) not_false (u64_number synced)
      simp only [tag, readAs, hid, hversions, hsynced]
      rfl
  | records id pushed =>
      have hrecords := h.required (k := "records") (by simp [content]) not_false
        (array_map Record.ofJson_json pushed)
      simp only [tag, readAs, hid, hrecords]
      rfl
  | view id version document =>
      have hversion := h.required (k := "version") (by simp [content]) not_false
        (u64_number version)
      have hvalue := h.required (k := "value") (by simp [content]) not_false (value_val document)
      simp only [tag, readAs, hid, hversion, hvalue]
      rfl
  | gap id from_ to_ =>
      have hfrom := h.required (k := "from") (by simp [content]) not_false (u64_number from_)
      have hto := h.required (k := "to") (by simp [content]) not_false (u64_number to_)
      simp only [tag, readAs, hid, hfrom, hto]
      rfl
  | logs id infos =>
      have hlogs := h.required (k := "logs") (by simp [content]) not_false
        (array_map LogInfo.ofJson_json infos)
      simp only [tag, readAs, hid, hlogs]
      rfl
  | error id code message =>
      have hcode := h.required (k := "code") (by simp [content]) not_false (variant_code code)
      have hmessage := h.required (k := "message") (by simp [content]) not_false
        (string_string message)
      simp only [tag, readAs, hid, hcode, hmessage]
      rfl
  | ok id | ended id | pong id =>
      simp only [tag, readAs, hid]
      rfl

section Untagged

variable {α : Type} {read : Json → Option α} {d : α} {k : String} {fields : List (String × Json)}

theorem under_untagged (hk : k ≠ "t") : under k (untagged fields) = under k fields :=
  under_filter (p := fun k => decide (k ≠ "t")) (decide_eq_true hk)

end Untagged

/-- A tag, and the rest of what the frame is spelled with. -/
theorem readTagged_spells {α : Type} {names : String → List String}
    {read : String → List (String × Json) → Option α} {tag : String}
    {content fields : List (String × Json)} {left : String → Prop} {a : α}
    (htag : "t" ∉ content.map Prod.fst) (hnames : "t" ∉ names tag) (hleft : ¬left "t")
    (h : Spells ("t" :: names tag) (("t", .string tag) :: content) left fields)
    (hread : ∀ rest, Spells (names tag) content left rest → read tag rest = some a) :
    readTagged names read (.object fields) = some a := by
  have ht := h.required (k := "t") List.mem_cons_self hleft (string_string tag)
  have hrest : Spells (names tag) content left (untagged fields) := by
    constructor
    · intro f hf
      have hne : f.1 ≠ "t" := fun heq => htag (heq ▸ List.mem_map_of_mem hf)
      rw [under_untagged hne]
      exact h.present f (List.mem_cons_of_mem _ hf)
    · intro k hk habsent
      have hne : k ≠ "t" := fun heq => hnames (heq ▸ hk)
      rw [under_untagged hne]
      refine h.absent k (List.mem_cons_of_mem _ hk) ?_
      rw [List.map_cons, List.mem_cons]
      rintro (heq | hmem)
      · exact hne heq
      · exact habsent hmem
  rw [readTagged, ht]
  exact hread _ hrest

theorem Request.ofJson_spells {r : Request} {fields : List (String × Json)}
    (h : Spells ("t" :: Request.names r.tag) r.fields r.left fields) :
    Request.ofJson (.object fields) = some r :=
  readTagged_spells (by cases r <;> simp [content]) (by cases r <;> simp [tag, names])
    (by cases r <;> simp [left]) h fun _ => readAs_spells

theorem Response.ofJson_spells {r : Response} {fields : List (String × Json)}
    (h : Spells ("t" :: Response.names r.tag) r.fields (fun _ => False) fields) :
    Response.ofJson (.object fields) = some r :=
  readTagged_spells (by cases r <;> simp [content]) (by cases r <;> simp [tag, names])
    not_false h fun _ => readAs_spells

/-! ### By position -/

theorem zip_initial {names : List String} {content : List (String × Json)}
    (h : content.map Prod.fst <+: names) : names.zip (content.map Prod.snd) = content := by
  induction content generalizing names with
  | nil => rw [List.map_nil, List.zip_nil_right]
  | cons f content ih =>
      obtain ⟨rest, rfl⟩ := h
      simp only [List.map_cons, List.cons_append, List.zip_cons_cons]
      rw [ih (List.prefix_append _ _)]

theorem positional_initial {names : List String} {content : List (String × Json)}
    (h : content.map Prod.fst <+: names) :
    positional names (content.map Prod.snd) = some content := by
  have hlength := h.length_le
  rw [List.length_map] at hlength
  rw [positional, List.length_map, if_pos hlength, zip_initial h]

theorem readTagged_positional {α : Type} {names : String → List String}
    {read : String → List (String × Json) → Option α} {tag : String}
    {content : List (String × Json)} (h : content.map Prod.fst <+: names tag) :
    readTagged names read (.array (.string tag :: content.map Prod.snd)) = read tag content := by
  show (positional (names tag) (content.map Prod.snd)).bind (read tag) = _
  rw [positional_initial h]
  rfl

theorem Request.prefix_names (r : Request) : r.content.map Prod.fst <+: names r.tag := by
  cases r with
  | read id log at_ => cases at_ <;> simp [content, tag, names]
  | _ => simp [content, tag, names]

theorem Response.prefix_names (r : Response) : r.content.map Prod.fst <+: names r.tag := by
  cases r with
  | welcome id version maxFrame session => cases session <;> simp [content, tag, names]
  | _ => simp [content, tag, names]

theorem Request.nodup_names (tag : String) : (names tag).Nodup := by
  unfold names
  split <;> decide

theorem Response.nodup_names (tag : String) : (names tag).Nodup := by
  unfold names
  split <;> decide

theorem Request.ofJson_positional (r : Request) :
    Request.ofJson (.array (r.fields.map Prod.snd)) = some r :=
  (readTagged_positional r.prefix_names).trans
    (readAs_spells (.refl ((nodup_names _).sublist r.prefix_names.sublist)))

theorem Response.ofJson_positional (r : Response) :
    Response.ofJson (.array (r.fields.map Prod.snd)) = some r :=
  (readTagged_positional r.prefix_names).trans
    (readAs_spells (.refl ((nodup_names _).sublist r.prefix_names.sublist)))

/-- A frame reads back as itself from every object that spells it out, and from the array
of its values. -/
theorem frames_read :
    (∀ (r : Request) (fields : List (String × Json)),
      Spells ("t" :: Request.names r.tag) r.fields r.left fields →
        Request.ofJson (.object fields) = some r) ∧
    (∀ r : Request, Request.ofJson (.array (r.fields.map Prod.snd)) = some r) ∧
    (∀ (r : Response) (fields : List (String × Json)),
      Spells ("t" :: Response.names r.tag) r.fields (fun _ => False) fields →
        Response.ofJson (.object fields) = some r) ∧
    ∀ r : Response, Response.ofJson (.array (r.fields.map Prod.snd)) = some r :=
  ⟨fun _ _ h => Request.ofJson_spells h, Request.ofJson_positional,
    fun _ _ h => Response.ofJson_spells h, Response.ofJson_positional⟩

/-- A subscription from the start, in another order and with a field nobody knows, and the
answer to it. -/
theorem subscribe_read :
    Request.ofJson (.object [("credit", number 4), ("log", .string "a"), ("note", .null),
      ("t", .string "subscribe"), ("id", number 2)]) = some (.subscribe 2 "a" 0 .records 4) ∧
    Response.ofJson (.object [("id", number 2), ("t", .string "ok")]) = some (.ok 2) :=
  ⟨frames_read.1 (.subscribe 2 "a" 0 .records 4) _
      ⟨by simp [Request.fields, Request.content, Request.tag, Request.left, under],
        by simp [Request.fields, Request.content, Request.tag, Request.names, under]⟩,
    frames_read.2.2.1 (.ok 2) _
      ⟨by simp [Response.fields, Response.content, Response.tag, under],
        by simp [Response.fields, Response.content, Response.tag, Response.names, under]⟩⟩

end Lug.Proto
