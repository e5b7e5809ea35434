import Lug.Server.Stream

/-!
`lug_proto::codec`: one frame is its length in four bytes and that many bytes of
JSON. Of the JSON only what carries patches and documents is written out here.
-/

namespace Lug.Proto

/-- `MAX_FRAME`. -/
def maxFrame : ℕ := 16 * 1024 * 1024

/-- `codec::Error`, as `encode` returns it. -/
inductive CodecError
  | tooLarge (len : ℕ)

/-- `u32::to_be_bytes`. -/
def putU32 (n : ℕ) : Bytes :=
  [(n / 2 ^ 24).toUInt8, (n / 2 ^ 16).toUInt8, (n / 2 ^ 8).toUInt8, n.toUInt8]

/-- `Codec::encode`, of an item with this JSON. -/
def encode (body dst : Bytes) : Except CodecError Bytes :=
  if 2 ^ 32 ≤ body.length then .error (.tooLarge (2 ^ 32 - 1))
  else if maxFrame < body.length then .error (.tooLarge body.length)
  else .ok (dst ++ putU32 body.length ++ body)

theorem encode_ok_iff (body dst : Bytes) :
    (∃ out, encode body dst = .ok out) ↔ body.length ≤ maxFrame := by
  rw [encode]
  split_ifs with hwide hlong
  · constructor
    · rintro ⟨out, h⟩
      cases h
    · intro h
      rw [maxFrame] at h
      omega
  · constructor
    · rintro ⟨out, h⟩
      cases h
    · intro h
      omega
  · exact ⟨fun _ => not_lt.mp hlong, fun _ => ⟨_, rfl⟩⟩

/-! ### Text -/

def ascii (s : String) : Bytes := s.toList.map fun c => c.toNat.toUInt8

/-- A number in decimal. -/
def digits (n : ℕ) : Bytes := (Nat.toDigits 10 n).map fun c => c.toNat.toUInt8

/-- The items of an array, between commas. -/
def joined : List Bytes → Bytes
  | [] => []
  | [item] => item
  | item :: next :: items => item ++ ascii "," ++ joined (next :: items)

theorem length_digits (n : ℕ) : (digits n).length = (Nat.toDigits 10 n).length :=
  List.length_map _

theorem length_digits_le {n : ℕ} (h : n < 2 ^ 64) : (digits n).length ≤ 20 := by
  rw [length_digits, Nat.length_toDigits_le_iff (by decide) (by decide)]
  omega

theorem length_joined (items : List Bytes) :
    (joined items).length = (items.map List.length).sum + (items.length - 1) := by
  induction items with
  | nil => rfl
  | cons item items ih =>
      cases items with
      | nil => rfl
      | cons next items =>
          have hcomma : (ascii ",").length = 1 := rfl
          rw [joined, List.length_append, List.length_append, ih, hcomma]
          simp only [List.map_cons, List.sum_cons, List.length_cons]
          omega

variable [TextCodec]

def recordText (r : Pushed) : Bytes :=
  ascii "\x7b\"version\":" ++ digits r.version ++ ascii ",\"patch\":" ++
    TextCodec.toVec r.patch ++ ascii "\x7d"

/-- `Response::Records`. -/
def recordsText (id : ℕ) (records : List Pushed) : Bytes :=
  ascii "\x7b\"t\":\"records\",\"id\":" ++ digits id ++ ascii ",\"records\":[" ++
    joined (records.map recordText) ++ ascii "]\x7d"

/-- `Response::View`. -/
def viewText (id version : ℕ) (value : Json) : Bytes :=
  ascii "\x7b\"t\":\"view\",\"id\":" ++ digits id ++ ascii ",\"version\":" ++ digits version ++
    ascii ",\"value\":" ++ TextCodec.toVec value ++ ascii "\x7d"

/-- `Request::Append`, at its default durability. -/
def appendText (id : ℕ) (log : String) (patches : List Json) : Bytes :=
  ascii "\x7b\"t\":\"append\",\"id\":" ++ digits id ++ ascii ",\"log\":" ++
    TextCodec.toVec (.string log) ++ ascii ",\"patches\":[" ++
    joined (patches.map TextCodec.toVec) ++ ascii "]\x7d"

/-- The bytes of a record in its frame. -/
def recordSize (r : Pushed) : ℕ :=
  21 + (digits r.version).length + (TextCodec.toVec r.patch).length

def recordsSize (id : ℕ) (records : List Pushed) : ℕ :=
  34 + (digits id).length + (records.map recordSize).sum + (records.length - 1)

def viewSize (id version : ℕ) (value : Json) : ℕ :=
  38 + (digits id).length + (digits version).length + (TextCodec.toVec value).length

theorem length_recordText (r : Pushed) : (recordText r).length = recordSize r := by
  have hopen : (ascii "\x7b\"version\":").length = 11 := rfl
  have hpatch : (ascii ",\"patch\":").length = 9 := rfl
  have hclose : (ascii "\x7d").length = 1 := rfl
  simp only [recordText, recordSize, List.length_append, hopen, hpatch, hclose]
  omega

theorem length_recordsText (id : ℕ) (records : List Pushed) :
    (recordsText id records).length = recordsSize id records := by
  have hopen : (ascii "\x7b\"t\":\"records\",\"id\":").length = 20 := rfl
  have hrecords : (ascii ",\"records\":[").length = 12 := rfl
  have hclose : (ascii "]\x7d").length = 2 := rfl
  have hsizes : (records.map recordText).map List.length = records.map recordSize := by
    rw [List.map_map]
    exact List.map_congr_left fun r _ => length_recordText r
  simp only [recordsText, recordsSize, List.length_append, length_joined, hsizes, List.length_map,
    hopen, hrecords, hclose]
  omega

theorem length_viewText (id version : ℕ) (value : Json) :
    (viewText id version value).length = viewSize id version value := by
  have hopen : (ascii "\x7b\"t\":\"view\",\"id\":").length = 17 := rfl
  have hversion : (ascii ",\"version\":").length = 11 := rfl
  have hvalue : (ascii ",\"value\":").length = 9 := rfl
  have hclose : (ascii "\x7d").length = 1 := rfl
  simp only [viewText, viewSize, List.length_append, hopen, hversion, hvalue, hclose]
  omega

/-- A frame of fewer records is no larger. -/
theorem recordsSize_mono (id : ℕ) {rs rs' : List Pushed} (h : rs <+: rs') :
    recordsSize id rs ≤ recordsSize id rs' := by
  obtain ⟨rest, rfl⟩ := h
  simp only [recordsSize, List.map_append, List.sum_append, List.length_append]
  omega

end Lug.Proto
