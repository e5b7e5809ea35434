import Lug.Core.Json
import Mathlib.Logic.Denumerable
import Mathlib.Logic.Equiv.List

/-!
A text format that round-trips, so that what is assumed of `serde_json` can be
met. It writes chosen documents as `serde_json` does and every other one as a
number that stands for it.
-/

namespace Lug

namespace Json

def keyCode (s : String) : ℕ := Encodable.encode (s.toList.map Char.toNat)

theorem keyCode_injective : Function.Injective keyCode := fun s t h => by
  have hinj : Function.Injective Char.toNat := fun a b hab => Char.toNat_inj.mp hab
  exact String.toList_inj.mp (List.map_injective_iff.mpr hinj (Encodable.encode_injective h))

mutual

/-- A tag, then what the value is made of. -/
def code : Json → List ℕ
  | .null => [0]
  | .bool b => [1, b.toNat]
  | .number (.int n) => [2, 0, Encodable.encode n]
  | .number (.float bits) => [2, 1, bits]
  | .string s => [4, keyCode s]
  | .array items => 5 :: items.length :: codeItems items
  | .object fields => 6 :: fields.length :: codeFields fields

def codeItems : List Json → List ℕ
  | [] => []
  | j :: items => code j ++ codeItems items

def codeFields : List (String × Json) → List ℕ
  | [] => []
  | (key, j) :: fields =>
      keyCode key :: (code j ++ codeFields fields)

end

/-- The code of a value ends where it ends, whatever follows. -/
def Readable (i : Json) : Prop :=
  ∀ (j : Json) (r r' : List ℕ), code i ++ r = code j ++ r' → i = j ∧ r = r'

theorem codeItems_inj {items : List Json} (h : ∀ j ∈ items, Readable j) :
    ∀ (items' : List Json) (r r' : List ℕ), items.length = items'.length →
      codeItems items ++ r = codeItems items' ++ r' → items = items' ∧ r = r' := by
  induction items with
  | nil =>
      intro items' r r' hlength hcode
      cases items' with
      | nil => exact ⟨rfl, hcode⟩
      | cons => cases hlength
  | cons i items ih =>
      intro items' r r' hlength hcode
      cases items' with
      | nil => cases hlength
      | cons j items' =>
          rw [codeItems, codeItems, List.append_assoc, List.append_assoc] at hcode
          obtain ⟨rfl, hrest⟩ := h i List.mem_cons_self j _ _ hcode
          obtain ⟨rfl, rfl⟩ := ih (fun j hj => h j (List.mem_cons_of_mem _ hj)) items' r r'
            (Nat.succ.inj hlength) hrest
          exact ⟨rfl, rfl⟩

theorem codeFields_inj {fields : List (String × Json)} (h : ∀ f ∈ fields, Readable f.2) :
    ∀ (fields' : List (String × Json)) (r r' : List ℕ), fields.length = fields'.length →
      codeFields fields ++ r = codeFields fields' ++ r' → fields = fields' ∧ r = r' := by
  induction fields with
  | nil =>
      intro fields' r r' hlength hcode
      cases fields' with
      | nil => exact ⟨rfl, hcode⟩
      | cons => cases hlength
  | cons f fields ih =>
      intro fields' r r' hlength hcode
      cases fields' with
      | nil => cases hlength
      | cons g fields' =>
          obtain ⟨key, i⟩ := f
          obtain ⟨key', j⟩ := g
          rw [codeFields, codeFields, List.cons_append, List.cons_append, List.append_assoc,
            List.append_assoc, List.cons.injEq] at hcode
          obtain rfl := keyCode_injective hcode.1
          obtain ⟨rfl, hrest⟩ := h (key, i) List.mem_cons_self j _ _ hcode.2
          obtain ⟨rfl, rfl⟩ := ih (fun f hf => h f (List.mem_cons_of_mem _ hf)) fields' r r'
            (Nat.succ.inj hlength) hrest
          exact ⟨rfl, rfl⟩

/-- Values of two constructors differ in their tags, and the values of one in
what follows the tag. -/
theorem readable (i : Json) : Readable i := by
  induction i using Json.induction with
  | null =>
      intro j r r' h
      rcases j with _ | _ | (_ | _) | _ | _ | _ <;> simp [code] at h
      exact ⟨rfl, h⟩
  | bool b =>
      intro j r r' h
      rcases j with _ | _ | (_ | _) | _ | _ | _ <;> simp [code] at h
      rename_i c
      have hbool : b = c := by cases b <;> cases c <;> simp_all
      exact ⟨congrArg Json.bool hbool, h.2⟩
  | number n =>
      intro j r r' h
      rcases n with _ | _ <;> rcases j with _ | _ | (_ | _) | _ | _ | _ <;> simp [code] at h
      · exact ⟨congrArg (fun n => Json.number (.int n)) h.1, h.2⟩
      · exact ⟨congrArg (fun bits => Json.number (.float bits)) h.1, h.2⟩
  | string s =>
      intro j r r' h
      rcases j with _ | _ | (_ | _) | t | _ | _ <;> simp [code] at h
      exact ⟨congrArg Json.string (keyCode_injective h.1), h.2⟩
  | array items ih =>
      intro j r r' h
      rcases j with _ | _ | (_ | _) | _ | items' | _ <;> simp [code] at h
      obtain ⟨rfl, hrest⟩ := codeItems_inj ih items' r r' h.1 h.2
      exact ⟨rfl, hrest⟩
  | object fields ih =>
      intro j r r' h
      rcases j with _ | _ | (_ | _) | _ | _ | fields' <;> simp [code] at h
      obtain ⟨rfl, hrest⟩ := codeFields_inj ih fields' r r' h.1 h.2
      exact ⟨rfl, hrest⟩

theorem code_injective : Function.Injective code := fun i j h =>
  (readable i j [] [] (by rw [h])).1

end Json

/-- The code of a value as bytes, behind one that starts no text. -/
def codeBytes (j : Json) : Bytes := 255 :: List.replicate (Encodable.encode j.code) 0

theorem codeBytes_injective : Function.Injective codeBytes := by
  intro i j h
  have hlength : Encodable.encode i.code = Encodable.encode j.code := by
    simpa [codeBytes] using congrArg List.length h
  exact Json.code_injective (Encodable.encode_injective hlength)

/-- A patch that creates one field. -/
def created : Json := .object [("Create", .object [("a", .bool true)])]

/-- `serde_json`'s text of two documents, a code for every other one. -/
def write : Json → Bytes
  | .null => "null".toUTF8.toList
  | .object [("Create", .object [("a", .bool true)])] =>
      "\x7b\"Create\":\x7b\"a\":true\x7d\x7d".toUTF8.toList
  | j => codeBytes j

theorem write_cases (j : Json) : (j = .null ∧ (write j).head? = some 110) ∨
    (j = created ∧ (write j).head? = some 123) ∨ write j = codeBytes j := by
  unfold write
  split
  · exact .inl ⟨rfl, by decide +kernel⟩
  · exact .inr (.inl ⟨rfl, by decide +kernel⟩)
  · exact .inr (.inr rfl)

theorem write_injective : Function.Injective write := by
  intro i j h
  have hhead : (write i).head? = (write j).head? := congrArg List.head? h
  have hcode : ∀ k, (codeBytes k).head? = some 255 := fun k => rfl
  rcases write_cases i with ⟨rfl, hi⟩ | ⟨rfl, hi⟩ | hi <;>
    rcases write_cases j with ⟨rfl, hj⟩ | ⟨rfl, hj⟩ | hj
  case inr.inr.inr.inr => exact codeBytes_injective (by rw [← hi, ← hj, h])
  all_goals first
    | rfl
    | simp [hi, hj, hcode] at hhead

open Classical in
/-- A codec that reads what it wrote. -/
@[reducible] noncomputable def codec : TextCodec where
  toVec := write
  fromSlice bytes :=
    if h : ∃ j, write j = bytes then .ok h.choose.normal else .error "expected value"
  invalidType _ expected := "invalid type, expected " ++ expected

theorem codec_roundTrips : codec.RoundTrips := by
  intro j
  have hwritten : ∃ i, write i = write j := ⟨j, rfl⟩
  have hchosen : hwritten.choose = j := write_injective hwritten.choose_spec
  exact (dif_pos hwritten).trans (by rw [hchosen])

end Lug
