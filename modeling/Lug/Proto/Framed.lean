import Lug.Core.Noop
import Lug.Proto.Codec
import Lug.Lib.Incremental

/-!
`lug_proto::codec`, both halves of it: what `encode` appends to its buffer, `decode` takes
off the front of one, however the bytes between them were cut.
-/

namespace Lug.Proto

/-- `codec::Error`, without what a socket adds to it. -/
inductive FrameError
  | tooLarge (len : ℕ)
  | json (e : String)
  deriving DecidableEq, Repr

/-- `u32::from_be_bytes`. -/
def getU32 (bs : Bytes) : ℕ := bs.foldl (fun n b => 256 * n + b.toNat) 0

@[simp] theorem length_putU32 (n : ℕ) : (putU32 n).length = 4 := rfl

theorem getU32_putU32 {n : ℕ} (h : n < 2 ^ 32) : getU32 (putU32 n) = n := by
  have hbyte : ∀ m : ℕ, m.toUInt8.toNat = m % 256 := fun m => UInt8.toNat_ofNat'
  simp only [getU32, putU32, List.foldl_cons, List.foldl_nil, hbyte]
  omega

/-! ### One frame off the front of a buffer -/

/-- A length, and as many bytes for `parse` to read, where they have arrived. -/
def readFrame {T : Type} (parse : Bytes → Except String T) (src : Bytes) :
    Verdict UInt8 T FrameError :=
  if src.length < 4 then .wait
  else if maxFrame < getU32 (src.take 4) then .fail (.tooLarge (getU32 (src.take 4)))
  else if src.length < 4 + getU32 (src.take 4) then .wait
  else
    match parse ((src.drop 4).take (getU32 (src.take 4))) with
    | .error e => .fail (.json e)
    | .ok item => .item item (src.drop (4 + getU32 (src.take 4)))

section Read

variable {T : Type} {parse : Bytes → Except String T} {src : Bytes}

theorem readFrame_item {item : T} {rest : Bytes} (h : readFrame parse src = .item item rest) :
    4 + getU32 (src.take 4) ≤ src.length ∧ getU32 (src.take 4) ≤ maxFrame ∧
      parse ((src.drop 4).take (getU32 (src.take 4))) = .ok item ∧
        rest = src.drop (4 + getU32 (src.take 4)) := by
  unfold readFrame at h
  split_ifs at h with hshort hlong hpart
  split at h
  · cases h
  · rename_i hparse
    cases h
    exact ⟨not_lt.mp hpart, not_lt.mp hlong, hparse, rfl⟩

/-- The length in front does not change as more arrives. -/
theorem take_append_four (h : 4 ≤ src.length) (more : Bytes) : (src ++ more).take 4 = src.take 4 :=
  List.take_append_of_le_length h

theorem readFrame_append_item {item : T} {rest : Bytes} (more : Bytes)
    (h : readFrame parse src = .item item rest) :
    readFrame parse (src ++ more) = .item item (rest ++ more) := by
  obtain ⟨hwhole, hlen, hparse, rfl⟩ := readFrame_item h
  have htake : (src ++ more).take 4 = src.take 4 := take_append_four (by omega) more
  have hbody : ((src ++ more).drop 4).take (getU32 (src.take 4)) =
      (src.drop 4).take (getU32 (src.take 4)) := by
    rw [List.drop_append_of_le_length (by omega), List.take_append_of_le_length]
    rw [List.length_drop]
    omega
  rw [readFrame, htake, hbody, hparse, List.length_append, if_neg (by omega), if_neg (by omega),
    if_neg (by omega), List.drop_append_of_le_length hwhole]

theorem readFrame_append_fail {e : FrameError} (more : Bytes)
    (h : readFrame parse src = .fail e) : readFrame parse (src ++ more) = .fail e := by
  unfold readFrame at h
  split_ifs at h with hshort hlong hpart
  · rw [readFrame, take_append_four (not_lt.mp hshort), List.length_append, if_neg (by omega),
      if_pos hlong]
    exact h
  · split at h
    · rename_i hparse
      have htake : (src ++ more).take 4 = src.take 4 := take_append_four (by omega) more
      have hbody : ((src ++ more).drop 4).take (getU32 (src.take 4)) =
          (src.drop 4).take (getU32 (src.take 4)) := by
        rw [List.drop_append_of_le_length (by omega), List.take_append_of_le_length]
        rw [List.length_drop]
        omega
      rw [readFrame, htake, hbody, hparse, List.length_append, if_neg (by omega), if_neg hlong,
        if_neg (by omega)]
      exact h
    · cases h

/-- Frames, one after the other. -/
def frames (parse : Bytes → Except String T) : Reader UInt8 T FrameError where
  read := readFrame parse
  shorter h := by
    obtain ⟨hwhole, -, -, rfl⟩ := readFrame_item h
    rw [List.length_drop]
    omega
  item_append := readFrame_append_item
  fail_append := readFrame_append_fail

theorem read_nil : (frames parse).read [] = .wait := rfl

/-- A frame that has arrived, and what follows it. -/
theorem readFrame_frame {body : Bytes} {item : T} (hlen : body.length ≤ maxFrame)
    (hparse : parse body = .ok item) (rest : Bytes) :
    readFrame parse (putU32 body.length ++ body ++ rest) = .item item rest := by
  have hhead : (putU32 body.length ++ body ++ rest).take 4 = putU32 body.length := rfl
  have hnumber : getU32 (putU32 body.length) = body.length :=
    getU32_putU32 (by rw [maxFrame] at hlen; omega)
  have hbody : ((putU32 body.length ++ body ++ rest).drop 4).take body.length = body := by
    rw [List.append_assoc]
    show ((body ++ rest).take body.length) = body
    exact List.take_left
  have hrest : (putU32 body.length ++ body ++ rest).drop (4 + body.length) = rest := by
    have hwhole : (putU32 body.length ++ body).length = 4 + body.length := by simp
    rw [← hwhole, List.drop_left]
  rw [readFrame, hhead, hnumber, hbody, hparse, hrest]
  simp only [List.length_append, length_putU32]
  rw [if_neg (by omega), if_neg (by omega), if_neg (by omega)]

end Read

/-! ### The codec -/

namespace Codec

variable {T : Type} [Serde T]

/-- `Encoder::encode`, with the buffer it leaves behind. -/
def encode (item : T) (dst : Bytes) : Except FrameError Unit × Bytes :=
  match Serde.toVec item with
  | .error e => (.error (.json e), dst)
  | .ok body =>
      match Proto.encode body dst with
      | .error (.tooLarge len) => (.error (.tooLarge len), dst)
      | .ok out => (.ok (), out)

/-- Items encoded into one buffer, up to the first that fails. -/
def encodeAll : List T → Bytes → Except FrameError Unit × Bytes
  | [], dst => (.ok (), dst)
  | item :: items, dst =>
      match encode item dst with
      | (.error e, dst) => (.error e, dst)
      | (.ok (), dst) => encodeAll items dst

/-- `Decoder::decode`, with the buffer it leaves behind. -/
def decode (src : Bytes) : Except FrameError (Option T) × Bytes :=
  if src.length < 4 then (.ok none, src)
  else
    let len := getU32 (src.take 4)
    if maxFrame < len then (.error (.tooLarge len), src)
    else if src.length < 4 + len then (.ok none, src)
    else
      let src := src.drop 4
      let body := src.take len
      match Serde.fromSlice body with
      | .error e => (.error (.json e), src.drop len)
      | .ok item => (.ok (some item), src.drop len)

/-- What a caller makes of an answer of `decode`. -/
def read (src : Bytes) : Verdict UInt8 T FrameError :=
  match decode src with
  | (.ok none, _) => .wait
  | (.ok (some item), rest) => .item item rest
  | (.error e, _) => .fail e

theorem read_eq (src : Bytes) : read src = readFrame (Serde.fromSlice (P := T)) src := by
  by_cases hshort : src.length < 4
  · simp only [read, decode, readFrame, if_pos hshort]
  by_cases hlong : maxFrame < getU32 (src.take 4)
  · simp only [read, decode, readFrame, if_neg hshort, if_pos hlong]
  by_cases hpart : src.length < 4 + getU32 (src.take 4)
  · simp only [read, decode, readFrame, if_neg hshort, if_neg hlong, if_pos hpart]
  simp only [read, decode, readFrame, if_neg hshort, if_neg hlong, if_neg hpart]
  cases Serde.fromSlice (P := T) ((src.drop 4).take (getU32 (src.take 4))) with
  | error e => rfl
  | ok item => simp only [List.drop_drop]

/-- A caller that drains the decoder after each read. -/
def reader (T : Type) [Serde T] : Reader UInt8 T FrameError where
  read := read
  shorter h := (frames Serde.fromSlice).shorter ((read_eq _).symm.trans h)
  item_append more h :=
    (read_eq _).trans (readFrame_append_item more ((read_eq _).symm.trans h))
  fail_append more h :=
    (read_eq _).trans (readFrame_append_fail more ((read_eq _).symm.trans h))

/-- The item has a body that fits a frame and decodes to it again. -/
def Fits (item : T) : Prop :=
  ∃ body, Serde.toVec item = .ok body ∧ body.length ≤ maxFrame ∧ Serde.fromSlice body = .ok item

theorem encode_of_body {item : T} {body : Bytes} (hbody : Serde.toVec item = .ok body)
    (hlen : body.length ≤ maxFrame) (dst : Bytes) :
    encode item dst = (.ok (), dst ++ putU32 body.length ++ body) := by
  have hwide : ¬ 2 ^ 32 ≤ body.length := by
    rw [maxFrame] at hlen
    omega
  simp only [encode, hbody, Proto.encode]
  rw [if_neg hwide, if_neg (not_lt.mpr hlen)]

theorem encode_error {item : T} {dst : Bytes} {e : FrameError}
    (h : (encode item dst).1 = .error e) : (encode item dst).2 = dst := by
  unfold encode at h ⊢
  split at h
  · rfl
  · split at h
    · rfl
    · cases h

theorem encode_error_iff {item : T} {body : Bytes} (hbody : Serde.toVec item = .ok body)
    (dst : Bytes) : (∃ e, (encode item dst).1 = .error e) ↔ maxFrame < body.length := by
  by_cases hlen : body.length ≤ maxFrame
  · rw [encode_of_body hbody hlen]
    exact ⟨nofun, fun hlong => absurd hlen (not_le.mpr hlong)⟩
  · have hno := (encode_ok_iff body dst).not.mpr hlen
    refine ⟨fun _ => not_le.mp hlen, fun _ => ?_⟩
    simp only [encode, hbody]
    cases hencode : Proto.encode body dst with
    | error e =>
        cases e with
        | tooLarge len => exact ⟨_, rfl⟩
    | ok out => exact absurd ⟨out, hencode⟩ hno

/-- What is encoded drains to the items again. -/
theorem drain_encodeAll {items : List T} (h : ∀ item ∈ items, Fits item) (dst : Bytes) :
    ∃ wire, encodeAll items dst = (.ok (), dst ++ wire) ∧
      (reader T).drain wire = ⟨items, [], none⟩ := by
  induction items generalizing dst with
  | nil =>
      refine ⟨[], by rw [encodeAll, List.append_nil], Reader.drain_wait ?_⟩
      rfl
  | cons item items ih =>
      obtain ⟨body, hbody, hlen, hparse⟩ := h item List.mem_cons_self
      obtain ⟨wire, hwire, hdrain⟩ := ih (fun i hi => h i (List.mem_cons_of_mem _ hi))
        (dst ++ putU32 body.length ++ body)
      refine ⟨putU32 body.length ++ body ++ wire, ?_, ?_⟩
      · rw [encodeAll, encode_of_body hbody hlen]
        show encodeAll items (dst ++ putU32 body.length ++ body) = _
        rw [hwire]
        simp only [List.append_assoc]
      · have hread : (reader T).read (putU32 body.length ++ body ++ wire) = .item item wire :=
          (read_eq _).trans (readFrame_frame hlen hparse wire)
        rw [Reader.drain_item hread, hdrain]
        rfl

theorem decode_none {src : Bytes} (h : (decode (T := T) src).1 = .ok none) :
    (decode (T := T) src).2 = src := by
  simp only [decode] at h ⊢
  split_ifs at h ⊢
  · rfl
  · rfl
  · split at h <;> cases h

theorem decode_tooLarge {src : Bytes} (hheader : 4 ≤ src.length)
    (hlong : maxFrame < getU32 (src.take 4)) :
    decode (T := T) src = (.error (.tooLarge (getU32 (src.take 4))), src) := by
  simp only [decode]
  rw [if_neg (not_lt.mpr hheader), if_pos hlong]

/-- Frames that fit, encoded into one buffer, cut in any way and fed to a decoder that is
drained after each piece. -/
theorem feed_encodeAll {items : List T} (h : ∀ item ∈ items, Fits item) :
    ∃ wire, encodeAll items [] = (.ok (), wire) ∧ ∀ pieces, pieces.flatten = wire →
      (reader T).feed [] pieces = ⟨items, [], none⟩ := by
  obtain ⟨wire, hwire, hdrain⟩ := drain_encodeAll h []
  refine ⟨wire, hwire, fun pieces hpieces => ?_⟩
  have hwait : (reader T).read [] = .wait := rfl
  have hlike := Reader.feed_like hwait pieces
  rw [List.nil_append, hpieces, hdrain] at hlike
  exact hlike.eq hlike.failure

/-- The codec over any cut of the bytes, and what its two halves promise one by one. -/
theorem codec_framed {items : List T} (h : ∀ item ∈ items, Fits item) :
    (∃ wire, encodeAll items [] = (.ok (), wire) ∧ ∀ pieces, pieces.flatten = wire →
      (reader T).feed [] pieces = ⟨items, [], none⟩) ∧
    (∀ (item : T) (dst body : Bytes), Serde.toVec item = .ok body →
      ((∃ e, (encode item dst).1 = .error e) ↔ maxFrame < body.length)) ∧
    (∀ (item : T) (dst : Bytes) (e : FrameError), (encode item dst).1 = .error e →
      (encode item dst).2 = dst) ∧
    (∀ src, (decode (T := T) src).1 = .ok none → (decode (T := T) src).2 = src) ∧
    ∀ src, 4 ≤ src.length → maxFrame < getU32 (src.take 4) →
      (decode (T := T) src).1 = .error (.tooLarge (getU32 (src.take 4))) :=
  ⟨feed_encodeAll h, fun _ dst _ hbody => encode_error_iff hbody dst,
    fun _ _ _ herror => encode_error herror, fun _ hnone => decode_none hnone,
    fun _ hheader hlong => congrArg Prod.fst (decode_tooLarge hheader hlong)⟩

end Codec

section Sample

attribute [local instance] nullText

/-- Two frames that hold `null`. -/
theorem nulls_framed : ∃ wire,
    Codec.encodeAll [Json.null, Json.null] [] = (.ok (), wire) ∧ ∀ pieces, pieces.flatten = wire →
      (Codec.reader Json).feed [] pieces = ⟨[Json.null, Json.null], [], none⟩ := by
  refine (Codec.codec_framed fun item hitem => ?_).1
  have hnull : item = Json.null := by simpa using hitem
  rw [hnull]
  exact ⟨"null".toUTF8.toList, rfl, by decide +kernel, if_pos rfl⟩

end Sample

end Lug.Proto
