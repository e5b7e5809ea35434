import Lug.Wal.Checkpoint
import Lug.Wal.Mark

/-!
The header file: which files `read_header` accepts, and which views it reads back
after `write_header` took them.
-/

namespace Lug.Wal

open Octets Faulty

section

variable [Crc32] {V : Type} [Versioned V] [HeaderSerde V] {env : Env} {m : Machine}

/-! ### What is accepted -/

/-- The length the file gives of its text. -/
def declared (bytes : Bytes) : ℕ := ofLe ((bytes.drop 12).take 4)

/-- A header file that says of itself what is true, and is the header `h`. -/
structure Agrees (bytes : Bytes) (h : Header V) : Prop where
  magic : bytes.take 8 = hdrMagic
  length : bytes.length = 16 + declared bytes
  checksum : ofLe ((bytes.drop 8).take 4) = (Crc32.hash (bytes.drop 16)).toNat
  text : HeaderSerde.fromSlice (bytes.drop 16) = .ok h
  version : h.version = Versioned.version h.view

omit [Crc32] in
/-- The fields of a header do not reach into its text. -/
theorem fields_take (bytes : Bytes) {n : ℕ} (h : 16 ≤ n) :
    (bytes.take n).take 8 = bytes.take 8 ∧
      ((bytes.take n).drop 8).take 4 = (bytes.drop 8).take 4 ∧
        declared (bytes.take n) = declared bytes := by
  have hfield : ∀ i k, i + k ≤ n → ((bytes.take n).drop i).take k = (bytes.drop i).take k := by
    intro i k hik
    rw [List.drop_take, List.take_take, min_eq_left (by omega)]
  refine ⟨?_, hfield 8 4 (by omega), ?_⟩
  · rw [List.take_take, min_eq_left (by omega)]
  · rw [declared, declared, hfield 12 4 (by omega)]

theorem parseHeader_of_agrees {bytes : Bytes} {h : Header V} (hagrees : Agrees bytes h)
    (rest : Bytes) : parseHeader (bytes ++ rest) = .ok h := by
  obtain ⟨hmagic, hlength, hchecksum, htext, hversion⟩ := hagrees
  have hfields := fields_take (bytes ++ rest) (show 16 ≤ bytes.length by omega)
  rw [List.take_left] at hfields
  obtain ⟨hfirst, hsecond, hthird⟩ := hfields
  have hjson : ((bytes ++ rest).drop 16).take (declared bytes) = bytes.drop 16 := by
    rw [List.drop_append_of_le_length (by omega), List.take_left']
    rw [List.length_drop]
    omega
  have hroom : ¬(bytes ++ rest).length < 16 + declared bytes := by
    rw [List.length_append]
    omega
  rw [parseHeader, if_neg (by rw [List.length_append]; omega), ← hfirst,
    if_neg (not_not.mpr hmagic)]
  simp only [← hsecond]
  rw [show ofLe (((bytes ++ rest).drop 12).take 4) = declared bytes from hthird.symm, if_neg hroom,
    hjson, hchecksum, if_neg (not_not.mpr rfl), htext]
  exact if_neg (not_not.mpr hversion)

theorem agrees_of_parseHeader {bytes : Bytes} {h : Header V} (hparse : parseHeader bytes = .ok h) :
    16 + declared bytes ≤ bytes.length ∧ Agrees (bytes.take (16 + declared bytes)) h := by
  have hfields := fields_take bytes (show 16 ≤ 16 + declared bytes by omega)
  obtain ⟨hfirst, hsecond, hthird⟩ := hfields
  rw [parseHeader] at hparse
  split_ifs at hparse with hshort hmagic
  dsimp only at hparse
  split_ifs at hparse with hroom hcrc
  rw [show ofLe ((bytes.drop 12).take 4) = declared bytes from rfl] at hparse hroom hcrc
  have hjson : (bytes.take (16 + declared bytes)).drop 16 =
      (bytes.drop 16).take (declared bytes) := by
    rw [List.drop_take, Nat.add_sub_cancel_left]
  cases htext : (HeaderSerde.fromSlice ((bytes.drop 16).take (declared bytes)) :
      Except String (Header V)) with
  | error e =>
      rw [htext] at hparse
      cases hparse
  | ok header =>
      rw [htext] at hparse
      dsimp only at hparse
      split_ifs at hparse with hversion
      cases hparse
      refine ⟨not_lt.mp hroom, hfirst.trans (not_not.mp hmagic), ?_, ?_, ?_, not_not.mp hversion⟩
      · rw [hthird, List.length_take]
        omega
      · rw [hsecond, hjson]
        exact (not_not.mp hcrc).symm
      · rw [hjson]
        exact htext

/-- The files that are accepted start with a header that agrees with itself. -/
theorem parseHeader_eq_ok {bytes : Bytes} {h : Header V} :
    parseHeader bytes = .ok h ↔ ∃ kept rest, bytes = kept ++ rest ∧ Agrees kept h := by
  constructor
  · intro hparse
    exact ⟨_, _, (List.take_append_drop _ bytes).symm, (agrees_of_parseHeader hparse).2⟩
  · rintro ⟨kept, rest, rfl, hagrees⟩
    exact parseHeader_of_agrees hagrees rest

theorem agrees_iff_of_parseHeader {bytes : Bytes} {h : Header V}
    (hparse : parseHeader bytes = .ok h) : Agrees bytes h ↔ bytes.length ≤ 16 + declared bytes := by
  constructor
  · intro hagrees
    exact hagrees.length.le
  · intro hle
    have hagrees := (agrees_of_parseHeader hparse).2
    rwa [List.take_of_length_le hle] at hagrees

/-! ### What is read back -/

omit [Crc32] in
theorem header_reclaimLoop (headerVersion : ℕ) (segments : List Segment) (removed : Bool) :
    Ends (reclaimLoop env headerVersion segments removed)
      (fun _ m' => m'.dir.header = m.dir.header) m := by
  induction segments generalizing m removed with
  | nil => rfl
  | cons s tail ih =>
      cases tail with
      | nil => rfl
      | cons t rest =>
          rw [reclaimLoop]
          split_ifs
          case neg => rfl
          rw [ends_bind, ends_upd, after_ok, ends_bind]
          refine ends_sys_call (fun _ => ?_) (fun _ => rfl) (fun _ => rfl)
          rw [after_ok]
          exact ih true

omit [Crc32] in
/-- Segments go, the header stays. -/
theorem header_reclaim : Ends (reclaim env) (fun _ m' => m'.dir.header = m.dir.header) m := by
  rw [reclaim, ends_bind, ends_get, after_ok, ends_bind]
  refine (header_reclaimLoop _ _ false).mono ?_
  intro x m₁ hheader
  cases x with
  | error e => exact hheader
  | died => exact hheader
  | ok removed =>
      rw [after_ok]
      split_ifs
      · exact ends_sys_call (fun _ => hheader) (fun _ => hheader) (fun _ => hheader)
      · exact hheader

/-- What `write_header` published when it returned `Ok`. -/
theorem header_writeHeader (view : V) : Ends (writeHeader env view) (fun x m' => x = .ok () →
    ∃ json, HeaderSerde.toVec (⟨Versioned.version view, view⟩ : Header V) = .ok json ∧
      m'.dir.header = some (headerBytes json)) m := by
  refine ends_writeHeader_steps (fun x d hx _ _ _ hok => absurd hok hx)
    (fun json x d hx _ _ _ _ hok => absurd hok hx) (fun json d _ hjson _ hheader => ?_)
  refine header_reclaim.mono fun x m' hsame _ => ⟨json, hjson, hsame.trans hheader⟩

theorem readHeader_eq_headerOf (hreply : env.reply .readHeader = .ok) :
    (readHeader V env m).1 = match headerOf V m.dir with
      | .ok header => .ok header
      | .error e => .error e := by
  rw [readHeader, hreply, headerOf]
  cases m.dir.header with
  | none => rfl
  | some bytes =>
      dsimp only
      cases (parseHeader bytes : Except Err (Header V)) <;> rfl

/-- A view that `write_header` took is read back if and only if its text is shorter
than the length field can say. A file that is accepted starts with a header that
agrees with itself, and is no more than that if and only if nothing stands behind the
length it declares. -/
theorem header_exact_iff [LawfulHeaderSerde V] :
    (∀ (env : Env) (view : V) (m : Machine), Ends (writeHeader env view) (fun x m' => x = .ok () →
      ∃ json, HeaderSerde.toVec (⟨Versioned.version view, view⟩ : Header V) = .ok json ∧
        ∀ env' : Env, env'.reply .readHeader = .ok →
          ((readHeader V env' m').1 = .ok (some ⟨Versioned.version view, view⟩) ↔
            json.length < 2 ^ 32)) m) ∧
    ∀ (bytes : Bytes) (h : Header V), parseHeader bytes = .ok h →
      (∃ kept rest, bytes = kept ++ rest ∧ Agrees kept h) ∧
        (Agrees bytes h ↔ bytes.length ≤ 16 + declared bytes) := by
  refine ⟨fun env view m => ?_, fun bytes h hparse =>
    ⟨parseHeader_eq_ok.mp hparse, agrees_iff_of_parseHeader hparse⟩⟩
  refine (header_writeHeader view).mono fun x m' hwritten hok => ?_
  obtain ⟨json, hjson, hheader⟩ := hwritten hok
  refine ⟨json, hjson, fun env' hreply => ?_⟩
  have hread := headerOf_headerBytes hjson hheader
  rw [readHeader_eq_headerOf hreply]
  split_ifs at hread with hshort
  · rw [hread]
    exact iff_of_true rfl hshort
  · obtain ⟨e, he⟩ := hread
    rw [he]
    exact iff_of_false nofun hshort

end

/-! ### A view that is a text -/

/-- A view that is one text, of this many characters. -/
structure Page where
  size : ℕ

instance : Versioned Page := ⟨fun _ => 0, fun _ => .null⟩

/-- `{"version":`, the version, `,"view":"`, the characters and `"}`. -/
def pageText (version size : ℕ) : Bytes :=
  versionKey ++ (decimal version ++ (viewKey ++ (34 :: (List.replicate size 120 ++ [34, 125]))))

theorem length_pageText (version size : ℕ) :
    (pageText version size).length = (pageText version 0).length + size := by
  simp only [pageText, List.length_append, List.length_cons, List.length_replicate, List.length_nil]
  omega

instance : HeaderSerde Page where
  toVec h := .ok (pageText h.version h.view.size)
  fromSlice text :=
    let version := number ((text.drop versionKey.length).takeWhile isDigit)
    let size := text.length - (pageText version 0).length
    if pageText version size = text then .ok ⟨version, ⟨size⟩⟩ else .error "not a header"

theorem version_pageText (version size : ℕ) :
    number (((pageText version size).drop versionKey.length).takeWhile isDigit) = version := by
  have hcomma : viewKey ++ (34 :: (List.replicate size 120 ++ [34, 125])) =
      44 :: (viewKey.tail ++ (34 :: (List.replicate size 120 ++ [34, 125]))) := rfl
  rw [pageText, List.drop_left, hcomma, takeWhile_decimal version (by decide), number_decimal]

instance : LawfulHeaderSerde Page where
  fromSlice_toVec := by
    rintro ⟨version, ⟨size⟩⟩ json hjson
    cases hjson
    show (if _ then _ else _) = _
    rw [version_pageText, length_pageText version size, Nat.add_sub_cancel_left, if_pos rfl]
  fromSlice_take := by
    rintro ⟨version, ⟨size⟩⟩ json n hjson hn
    cases hjson
    -- a header ends with the one brace that closes it
    have hsplit : pageText version size =
        (versionKey ++ (decimal version ++
          (viewKey ++ (34 :: (List.replicate size 120 ++ [34]))))) ++
          [125] := by
      simp [pageText]
    have hopen : (125 : UInt8) ∉ decimal version := fun hmem =>
      absurd (isDigit_decimal version 125 hmem) (by decide)
    have hnone : (125 : UInt8) ∉ versionKey ++ (decimal version ++
        (viewKey ++ (34 :: (List.replicate size 120 ++ [34])))) := by
      simp only [List.mem_append, List.mem_cons, List.mem_replicate, not_or]
      exact ⟨by decide, hopen, by decide, by decide, by simp, by decide⟩
    refine ⟨"not a header", if_neg fun hsame => hnone ?_⟩
    have hmem : (125 : UInt8) ∈ (pageText version size).take n := by
      show (125 : UInt8) ∈ (pageText version size).take n
      rw [← hsame]
      simp [pageText]
    have hn' : n < (pageText version size).length := hn
    rw [hsplit, List.length_append, List.length_singleton] at hn'
    rw [hsplit, List.take_append_of_le_length (by omega)] at hmem
    exact List.mem_of_mem_take hmem

/-! ### Runs -/

/-- A store on an empty directory. -/
def unused : Machine := ⟨⟨[], none, 0, 0, 64, true, none⟩, .empty⟩

section

variable [Crc32] {V : Type} [Versioned V] [HeaderSerde V]

theorem calm_writeHeader (view : V) {json : Bytes}
    (hjson : HeaderSerde.toVec (⟨Versioned.version view, view⟩ : Header V) = .ok json) :
    Ends (writeHeader calm view) (fun x _ => x = .ok ()) unused := by
  have hpublishes : calm.Publishes := ⟨rfl, rfl, rfl, rfl, rfl, rfl⟩
  refine ends_writeHeader_steps (fun x d _ hnot _ _ => absurd hpublishes.renames (hnot json hjson))
    (fun json x d _ hnot _ _ _ => absurd hpublishes hnot) (fun json d _ _ _ _ => ?_)
  rfl

/-- A text that is too long for the length field is written and cannot be read. -/
theorem unreadable_of_le [LawfulHeaderSerde V] (view : V) {json : Bytes}
    (hjson : HeaderSerde.toVec (⟨Versioned.version view, view⟩ : Header V) = .ok json)
    (hlong : 2 ^ 32 ≤ json.length) : Ends (writeHeader calm view) (fun x m' => x = .ok () ∧
      (readHeader V calm m').1 ≠ .ok (some ⟨Versioned.version view, view⟩)) unused := by
  refine ((calm_writeHeader view hjson).and (header_writeHeader view)).mono fun x m' hboth => ?_
  obtain ⟨hok, hwritten⟩ := hboth
  obtain ⟨json', hjson', hheader⟩ := hwritten hok
  rw [hjson] at hjson'
  cases hjson'
  have hread := headerOf_headerBytes hjson hheader
  rw [if_neg (not_lt.mpr hlong)] at hread
  obtain ⟨e, he⟩ := hread
  rw [readHeader_eq_headerOf rfl, he]
  exact ⟨hok, nofun⟩

end

/-- The mark at version 7 is read back, and its file is a header and no more. -/
theorem header_exact_iff_mark :
    (@readHeader ieee Mark _ _ calm (@writeHeader ieee Mark _ _ calm ⟨7⟩ unused).2).1 =
        .ok (some ⟨7, ⟨7⟩⟩) ∧
      @Agrees ieee Mark _ _ (@headerBytes ieee (headerText 7 7)) ⟨7, ⟨7⟩⟩ := by
  let _ := ieee
  have hjson : HeaderSerde.toVec (⟨7, ⟨7⟩⟩ : Header Mark) = .ok (headerText 7 7) := rfl
  have hparse : parseHeader (headerBytes (headerText 7 7)) = .ok (⟨7, ⟨7⟩⟩ : Header Mark) := by
    have hread := parseHeader_headerBytes hjson rfl
    rwa [if_pos (by decide)] at hread
  constructor
  · have hwritten := (header_exact_iff (V := Mark)).1 calm ⟨7⟩ unused
      (calm_writeHeader (⟨7⟩ : Mark) hjson)
    obtain ⟨json, hsame, hread⟩ := hwritten
    cases hsame
    exact (hread calm rfl).mpr (by decide)
  · exact ((header_exact_iff (V := Mark)).2 _ _ hparse).2.mpr (by decide)

/-- A page of 2 ^ 32 characters is written, and is not read back. -/
theorem page_not_read_back : ¬ ∀ (view : Page) (m : Machine),
    Ends (@writeHeader ieee Page _ _ calm view) (fun x m' => x = .ok () →
      (@readHeader ieee Page _ _ calm m').1 = .ok (some ⟨Versioned.version view, view⟩)) m := by
  let _ := ieee
  intro h
  have hlong : ∀ n, 2 ^ 32 ≤ n → 2 ^ 32 ≤ (pageText 0 n).length := by
    intro n hn
    rw [length_pageText]
    omega
  have hpage := unreadable_of_le (⟨2 ^ 32⟩ : Page) rfl (hlong _ le_rfl)
  exact hpage.2 (h ⟨2 ^ 32⟩ unused hpage.1)

end Lug.Wal
