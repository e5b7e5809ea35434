import Lug.Lib.Octets
import Lug.Proto.Framed

/-!
`codec.ts`: the decoder of a socket client, with the buffer it manages itself. Frames come
out in the order of the stream however it was cut, but a push that fails keeps the frames
it had already decoded.
-/

namespace Lug.Ts

open Octets Proto

/-- What `push` may throw: a `FrameError`, or the `RangeError` of a typed array. -/
inductive Thrown
  | frame (e : FrameError)
  | range
  deriving DecidableEq, Repr

/-! ### Typed arrays -/

/-- `set`, which does not grow the array. -/
def set (array source : Bytes) (offset : ℕ) : Except Thrown Bytes :=
  if array.length < offset + source.length then .error .range
  else .ok (overwrite offset source array)

def subarray (array : Bytes) (start stop : ℕ) : Bytes := (array.take stop).drop start

/-- `copyWithin`, to the front. -/
def copyWithin (array : Bytes) (start stop : ℕ) : Bytes :=
  overwrite 0 (subarray array start stop) array

/-! ### The decoder -/

/-- `FrameDecoder`; `stop` is its `#end`. -/
structure FrameDecoder where
  buffer : Bytes
  start : ℕ
  stop : ℕ

/-- The loop that doubles a capacity. -/
def doubled (capacity needed : ℕ) : ℕ :=
  if 0 < capacity ∧ capacity < needed then doubled (capacity * 2) needed else capacity
termination_by needed - capacity

namespace FrameDecoder

def new : FrameDecoder := ⟨[], 0, 0⟩

/-- `#append`. -/
def append (d : FrameDecoder) (chunk : Bytes) : Except Thrown FrameDecoder :=
  if chunk.length = 0 then .ok d
  else do
    let used := d.stop - d.start
    let needed := used + chunk.length
    let d ←
      if needed > d.buffer.length then do
        let capacity := doubled (max 64 d.buffer.length) needed
        let grown ← set (zeroes capacity) (subarray d.buffer d.start d.stop) 0
        pure ⟨grown, 0, used⟩
      else if d.stop + chunk.length > d.buffer.length then
        pure ⟨copyWithin d.buffer d.start d.stop, 0, used⟩
      else pure d
    let buffer ← set d.buffer chunk d.stop
    return ⟨buffer, d.start, d.stop + chunk.length⟩

variable {T : Type} (parse : Bytes → Except String T)

/-- The loop of `push`. -/
def loop (d : FrameDecoder) (frames : List T) : Except Thrown (List T) × FrameDecoder :=
  if 4 ≤ d.stop - d.start then
    if d.buffer.length < d.start + 4 then (.error .range, d)
    else
      let length := getU32 (subarray d.buffer d.start (d.start + 4))
      if maxFrame < length then (.error (.frame (.tooLarge length)), d)
      else if d.stop - d.start - 4 < length then (.ok frames, d)
      else
        match parse (subarray d.buffer (d.start + 4) (d.start + 4 + length)) with
        | .error e => (.error (.frame (.json e)), d)
        | .ok frame => loop { d with start := d.start + 4 + length } (frames ++ [frame])
  else (.ok frames, d)
termination_by d.stop - d.start

/-- `push`. -/
def push (d : FrameDecoder) (chunk : Bytes) : Except Thrown (List T) × FrameDecoder :=
  match d.append chunk with
  | .error e => (.error e, d)
  | .ok d =>
      match d.loop parse [] with
      | (.error e, d) => (.error e, d)
      | (.ok frames, d) =>
          (.ok frames, if d.start = d.stop then { d with start := 0, stop := 0 } else d)

/-- `finish`: how many bytes trail, which is an error unless none do. -/
def finish (d : FrameDecoder) : ℕ := d.stop - d.start

end FrameDecoder

/-- What a client of the decoder gets to see: the frames that pushes handed out, and then
the failure of a push or what `finish` reports. -/
structure Outcome (T : Type) where
  frames : List T
  ending : Except Thrown ℕ

namespace FrameDecoder

variable {T : Type} (parse : Bytes → Except String T)

/-- Chunk after chunk, until a push fails. -/
def run (d : FrameDecoder) : List Bytes → Outcome T
  | [] => ⟨[], .ok d.finish⟩
  | chunk :: chunks =>
      match d.push parse chunk with
      | (.error e, _) => ⟨[], .error e⟩
      | (.ok frames, d) => ⟨frames ++ (d.run chunks).frames, (d.run chunks).ending⟩

/-- The decoder behind pushes that all succeeded. -/
def pushed (d : FrameDecoder) : List Bytes → Option FrameDecoder
  | [] => some d
  | chunk :: chunks =>
      match d.push parse chunk with
      | (.error _, _) => none
      | (.ok _, d) => d.pushed chunks

/-- The range from start to end. -/
def held (d : FrameDecoder) : Bytes := subarray d.buffer d.start d.stop

/-- The range lies within the buffer. -/
structure Valid (d : FrameDecoder) : Prop where
  le : d.start ≤ d.stop
  fits : d.stop ≤ d.buffer.length

theorem valid_new : new.Valid := ⟨le_rfl, le_rfl⟩

@[simp] theorem held_new : new.held = [] := rfl

theorem Valid.length_held {d : FrameDecoder} (h : d.Valid) : d.held.length = d.stop - d.start := by
  have hfits := h.fits
  rw [held, subarray, List.length_drop, List.length_take]
  omega

end FrameDecoder

/-- Doubling ends where there is room. -/
theorem le_doubled {capacity : ℕ} (needed : ℕ) (h : 0 < capacity) :
    needed ≤ doubled capacity needed := by
  induction capacity using doubled.induct needed with
  | case1 capacity hgrow ih =>
      rw [doubled, if_pos hgrow]
      exact ih (by omega)
  | case2 capacity hstop =>
      rw [doubled, if_neg hstop]
      omega

theorem length_subarray {array : Bytes} {start stop : ℕ} (h : stop ≤ array.length) :
    (subarray array start stop).length = stop - start := by
  rw [subarray, List.length_drop, List.length_take]
  omega

/-- What was written stands behind what stood before it. -/
theorem subarray_overwrite {array source : Bytes} {offset start : ℕ}
    (h : offset ≤ array.length) (hstart : start ≤ offset) :
    subarray (overwrite offset source array) start (offset + source.length) =
      subarray array start offset ++ source := by
  have hextend : extend offset array = array := by
    rw [extend, Nat.sub_eq_zero_of_le h]
    exact List.append_nil array
  have hhead : (array.take offset ++ source).length = offset + source.length := by
    rw [List.length_append, List.length_take, min_eq_left h]
  rw [subarray, overwrite, hextend, ← hhead, List.take_left, List.drop_append_of_le_length]
  · rfl
  · rw [List.length_take, min_eq_left h]
    exact hstart

namespace FrameDecoder

variable {d : FrameDecoder}

/-- A chunk that fits behind the range. -/
theorem set_held (h : d.Valid) (chunk : Bytes)
    (hfits : d.stop + chunk.length ≤ d.buffer.length) :
    ∃ buffer, set d.buffer chunk d.stop = .ok buffer ∧
      (FrameDecoder.mk buffer d.start (d.stop + chunk.length)).Valid ∧
      (FrameDecoder.mk buffer d.start (d.stop + chunk.length)).held = d.held ++ chunk := by
  refine ⟨overwrite d.stop chunk d.buffer, if_neg (not_lt.mpr hfits), ⟨?_, ?_⟩, ?_⟩
  · exact h.le.trans (Nat.le_add_right _ _)
  · show _ ≤ (overwrite _ _ _).length
    rw [length_overwrite]
    exact le_max_left _ _
  · exact subarray_overwrite h.fits h.le

/-- The range written to the front of an array with room for it. -/
theorem moved_held (h : d.Valid) (array : Bytes) (hroom : d.held.length ≤ array.length) :
    (FrameDecoder.mk (overwrite 0 d.held array) 0 (d.stop - d.start)).Valid ∧
      (FrameDecoder.mk (overwrite 0 d.held array) 0 (d.stop - d.start)).held = d.held ∧
        (overwrite 0 d.held array).length = array.length := by
  have hused := h.length_held
  have hlength : (overwrite 0 d.held array).length = array.length := by
    rw [length_overwrite]
    omega
  refine ⟨⟨Nat.zero_le _, ?_⟩, ?_, hlength⟩
  · show d.stop - d.start ≤ (overwrite 0 d.held array).length
    omega
  · have hwritten : subarray (overwrite 0 d.held array) 0 (0 + d.held.length) =
        subarray array 0 0 ++ d.held := subarray_overwrite (Nat.zero_le array.length) le_rfl
    rw [Nat.zero_add, hused] at hwritten
    exact hwritten

/-- A chunk ends up behind what was held, with or without a larger buffer, and no typed array
throws. -/
theorem append_held (h : d.Valid) (chunk : Bytes) :
    ∃ d', d.append chunk = .ok d' ∧ d'.Valid ∧ d'.held = d.held ++ chunk := by
  have hused := h.length_held
  by_cases hempty : chunk.length = 0
  · rw [append, if_pos hempty, List.length_eq_zero_iff.mp hempty, List.append_nil]
    exact ⟨d, rfl, h, rfl⟩
  rw [append, if_neg hempty]
  by_cases hgrow : d.stop - d.start + chunk.length > d.buffer.length
  · -- A larger buffer, with the range at its front.
    generalize hcapacity : doubled (max 64 d.buffer.length) (d.stop - d.start + chunk.length) = c
    have hroom : d.stop - d.start + chunk.length ≤ c := by
      rw [← hcapacity]
      exact le_doubled _ (by omega)
    have hzeroes : (zeroes c).length = c := length_zeroes c
    have hset : set (zeroes c) d.held 0 = .ok (overwrite 0 d.held (zeroes c)) :=
      if_neg (by omega)
    obtain ⟨hvalid, hheld, hlength⟩ := moved_held h (zeroes c) (by omega)
    obtain ⟨buffer, hbuffer, hvalid', hheld'⟩ := set_held hvalid chunk (by
      show d.stop - d.start + chunk.length ≤ (overwrite 0 d.held (zeroes c)).length
      omega)
    refine ⟨_, ?_, hvalid', by rw [hheld', hheld]⟩
    simp only [if_pos hgrow, hcapacity]
    rw [show subarray d.buffer d.start d.stop = d.held from rfl, hset]
    show (set (overwrite 0 d.held (zeroes c)) chunk (d.stop - d.start) >>= _) = _
    rw [hbuffer]
    rfl
  · by_cases hmove : d.stop + chunk.length > d.buffer.length
    · obtain ⟨hvalid, hheld, hlength⟩ := moved_held h d.buffer (by omega)
      obtain ⟨buffer, hbuffer, hvalid', hheld'⟩ := set_held hvalid chunk (by
        show d.stop - d.start + chunk.length ≤ (overwrite 0 d.held d.buffer).length
        omega)
      refine ⟨_, ?_, hvalid', by rw [hheld', hheld]⟩
      simp only [if_neg hgrow, if_pos hmove]
      show (set (overwrite 0 d.held d.buffer) chunk (d.stop - d.start) >>= _) = _
      rw [hbuffer]
      rfl
    · obtain ⟨buffer, hbuffer, hvalid', hheld'⟩ := set_held h chunk (not_lt.mp hmove)
      refine ⟨_, ?_, hvalid', hheld'⟩
      simp only [if_neg hgrow, if_neg hmove]
      show (set d.buffer chunk d.stop >>= _) = _
      rw [hbuffer]
      rfl

variable {T : Type} {parse : Bytes → Except String T}

/-- A part of the range. -/
theorem subarray_held {i n : ℕ} (hn : d.start + i + n ≤ d.stop) :
    subarray d.buffer (d.start + i) (d.start + i + n) = (d.held.drop i).take n := by
  rw [held, subarray, subarray, List.drop_drop, List.take_drop, List.take_take,
    min_eq_left hn]

/-- The loop reads the frames off the range. -/
theorem loop_held (parse : Bytes → Except String T) (h : d.Valid) (shown : List T) :
    match ((frames parse).drain d.held).failure with
    | some e => ∃ d', d.loop parse shown = (.error (.frame e), d')
    | none => ∃ d', d.loop parse shown = (.ok (shown ++ ((frames parse).drain d.held).items), d') ∧
        d'.Valid ∧ d'.held = ((frames parse).drain d.held).rest := by
  induction hn : d.stop - d.start using Nat.strongRecOn generalizing d shown with
  | _ n ih =>
      have hused := h.length_held
      have hle := h.le
      have hfits := h.fits
      by_cases hheader : 4 ≤ d.stop - d.start
      case neg =>
        have hread : (frames parse).read d.held = .wait := if_pos (by omega)
        rw [Reader.drain_wait hread, loop, if_neg hheader]
        exact ⟨d, by rw [List.append_nil], h, rfl⟩
      have hsub : subarray d.buffer d.start (d.start + 4) = d.held.take 4 :=
        subarray_held (i := 0) (by omega)
      have hbound : ¬ d.buffer.length < d.start + 4 := by omega
      rw [loop, if_pos hheader, if_neg hbound, hsub]
      generalize hlen : getU32 (d.held.take 4) = len
      by_cases hlong : maxFrame < len
      · have hread : (frames parse).read d.held = .fail (.tooLarge len) := by
          show readFrame parse d.held = _
          rw [readFrame, hlen, if_neg (by omega), if_pos hlong]
        rw [Reader.drain_fail hread]
        simp only [if_pos hlong]
        exact ⟨d, rfl⟩
      by_cases hpart : d.stop - d.start - 4 < len
      · have hread : (frames parse).read d.held = .wait := by
          show readFrame parse d.held = _
          rw [readFrame, hlen, if_neg (by omega), if_neg hlong, if_pos (by omega)]
        rw [Reader.drain_wait hread]
        simp only [if_neg hlong, if_pos hpart]
        exact ⟨d, by rw [List.append_nil], h, rfl⟩
      have hbody : subarray d.buffer (d.start + 4) (d.start + 4 + len) =
          (d.held.drop 4).take len := subarray_held (by omega)
      simp only [if_neg hlong, if_neg hpart, hbody]
      cases hparse : parse ((d.held.drop 4).take len) with
      | error e =>
          have hread : (frames parse).read d.held = .fail (.json e) := by
            show readFrame parse d.held = _
            rw [readFrame, hlen, if_neg (by omega), if_neg hlong, if_neg (by omega), hparse]
          rw [Reader.drain_fail hread]
          exact ⟨d, rfl⟩
      | ok frame =>
          have hread : (frames parse).read d.held = .item frame (d.held.drop (4 + len)) := by
            show readFrame parse d.held = _
            rw [readFrame, hlen, if_neg (by omega), if_neg hlong, if_neg (by omega), hparse]
          generalize hnext : ({ d with start := d.start + 4 + len } : FrameDecoder) = next
          have hvalid : next.Valid := by
            rw [← hnext]
            exact ⟨by show d.start + 4 + len ≤ d.stop; omega, h.fits⟩
          have hheld : next.held = d.held.drop (4 + len) := by
            rw [← hnext, held, held, subarray, subarray, List.drop_drop, Nat.add_assoc]
          have hless : next.stop - next.start < n := by
            rw [← hnext]
            show d.stop - (d.start + 4 + len) < n
            omega
          have hrest := ih _ hless hvalid (shown ++ [frame]) rfl
          rw [Reader.drain_item hread, ← hheld]
          simp only [Drained.failure_after, Drained.items_after, Drained.rest_after,
            ← List.append_assoc]
          exact hrest

/-- A push hands out what can be read of the range and the chunk, or fails where reading
them does. -/
theorem push_held (parse : Bytes → Except String T) (h : d.Valid) (chunk : Bytes) :
    match ((frames parse).drain (d.held ++ chunk)).failure with
    | some e => ∃ d', d.push parse chunk = (.error (.frame e), d')
    | none => ∃ d',
        d.push parse chunk = (.ok ((frames parse).drain (d.held ++ chunk)).items, d') ∧
          d'.Valid ∧ d'.held = ((frames parse).drain (d.held ++ chunk)).rest := by
  obtain ⟨d₁, happend, hvalid, hheld⟩ := append_held h chunk
  have hloop := loop_held parse hvalid []
  rw [hheld] at hloop
  simp only [push, happend]
  cases hfailure : ((frames parse).drain (d.held ++ chunk)).failure with
  | some e =>
      rw [hfailure] at hloop
      obtain ⟨d₂, hresult⟩ := hloop
      exact ⟨d₂, by rw [hresult]⟩
  | none =>
      rw [hfailure] at hloop
      obtain ⟨d₂, hresult, hvalid₂, hheld₂⟩ := hloop
      rw [hresult]
      dsimp only
      by_cases hempty : d₂.start = d₂.stop
      · -- Nothing is held, so that the range may start over.
        have hnone : d₂.held = [] := by
          rw [← List.length_eq_zero_iff, hvalid₂.length_held]
          omega
        rw [if_pos hempty]
        refine ⟨_, rfl, ⟨le_rfl, Nat.zero_le _⟩, ?_⟩
        rw [← hheld₂, hnone]
        rfl
      · rw [if_neg hempty]
        exact ⟨d₂, rfl, hvalid₂, hheld₂⟩

/-- A client sees the frames of the stream, or, where it fails, the failure and the frames of
the pushes before. -/
theorem run_held (parse : Bytes → Except String T) (h : d.Valid)
    (hwait : (frames parse).read d.held = .wait) (chunks : List Bytes) :
    match ((frames parse).drain (d.held ++ chunks.flatten)).failure with
    | some e => (d.run parse chunks).ending = .error (.frame e) ∧
        (d.run parse chunks).frames <+:
          ((frames parse).drain (d.held ++ chunks.flatten)).items
    | none => d.run parse chunks = ⟨((frames parse).drain (d.held ++ chunks.flatten)).items,
        .ok ((frames parse).drain (d.held ++ chunks.flatten)).rest.length⟩ := by
  induction chunks generalizing d with
  | nil =>
      rw [List.flatten_nil, List.append_nil, Reader.drain_wait hwait]
      show Outcome.mk [] (.ok d.finish) = _
      rw [finish, ← h.length_held]
  | cons chunk chunks ih =>
      have hpush := push_held parse h chunk
      rw [List.flatten_cons, ← List.append_assoc]
      cases hfailure : ((frames parse).drain (d.held ++ chunk)).failure with
      | some e =>
          rw [hfailure] at hpush
          obtain ⟨d', hresult⟩ := hpush
          rw [Reader.drain_append_of_failure hfailure]
          simp only [hfailure, run, hresult]
          exact ⟨trivial, List.nil_prefix⟩
      | none =>
          rw [hfailure] at hpush
          obtain ⟨d', hresult, hvalid, hheld⟩ := hpush
          have hrest := ih hvalid (by rw [hheld]; exact Reader.read_rest hfailure)
          rw [Reader.drain_append hfailure, ← hheld]
          simp only [run, hresult, Drained.failure_after, Drained.items_after,
            Drained.rest_after]
          generalize (frames parse).drain (d'.held ++ chunks.flatten) = later at hrest ⊢
          cases hlater : later.failure with
          | some e =>
              rw [hlater] at hrest
              exact ⟨hrest.1, (List.prefix_append_right_inj _).mpr hrest.2⟩
          | none =>
              rw [hlater] at hrest
              simp only [hrest]

/-- Behind pushes that succeeded the range holds exactly what is not decoded yet. -/
theorem held_of_pushed (h : d.Valid) (hwait : (frames parse).read d.held = .wait)
    {chunks : List Bytes} {d' : FrameDecoder} (hd' : d.pushed parse chunks = some d') :
    d'.Valid ∧ d'.held = ((frames parse).drain (d.held ++ chunks.flatten)).rest := by
  induction chunks generalizing d with
  | nil =>
      cases hd'
      rw [List.flatten_nil, List.append_nil, Reader.drain_wait hwait]
      exact ⟨h, rfl⟩
  | cons chunk chunks ih =>
      have hpush := push_held parse h chunk
      rw [List.flatten_cons, ← List.append_assoc]
      cases hfailure : ((frames parse).drain (d.held ++ chunk)).failure with
      | some e =>
          rw [hfailure] at hpush
          obtain ⟨d₁, hresult⟩ := hpush
          rw [pushed, hresult] at hd'
          cases hd'
      | none =>
          rw [hfailure] at hpush
          obtain ⟨d₁, hresult, hvalid, hheld⟩ := hpush
          rw [pushed, hresult] at hd'
          rw [Reader.drain_append hfailure, ← hheld, Drained.rest_after]
          exact ih hvalid (by rw [hheld]; exact Reader.read_rest hfailure) hd'

/-! ### Byte by byte -/

/-- The byte that completes a frame is its last. -/
theorem rest_of_byte {src rest : Bytes} {b : UInt8} {frame : T}
    (hwait : readFrame parse src = .wait) (h : readFrame parse (src ++ [b]) = .item frame rest) :
    rest = [] := by
  obtain ⟨hwhole, hlen, -, rfl⟩ := readFrame_item h
  rw [List.length_append, List.length_singleton] at hwhole
  have hlast : src.length + 1 ≤ 4 + getU32 ((src ++ [b]).take 4) := by
    by_cases hshort : src.length < 4
    · omega
    · rw [take_append_four (not_lt.mp hshort)] at hlen ⊢
      by_contra hmore
      rw [readFrame, if_neg hshort, if_neg (not_lt.mpr hlen), if_neg (by omega)] at hwait
      split at hwait <;> cases hwait
  rw [← List.length_eq_zero_iff, List.length_drop, List.length_append, List.length_singleton]
  omega

/-- One byte makes nothing of a range that waits but one frame or a failure. -/
theorem items_of_byte {src : Bytes} {b : UInt8} {e : FrameError}
    (hwait : readFrame parse src = .wait)
    (h : ((frames parse).drain (src ++ [b])).failure = some e) :
    ((frames parse).drain (src ++ [b])).items = [] := by
  cases hread : (frames parse).read (src ++ [b]) with
  | wait => rw [Reader.drain_wait hread]
  | fail e' => rw [Reader.drain_fail hread]
  | item frame rest =>
      have hrest := rest_of_byte hwait hread
      rw [Reader.drain_item hread, hrest, Reader.drain_wait read_nil] at h
      cases h

/-- Pushed byte by byte, a stream hands out every frame in front of its failure. -/
theorem run_bytes (parse : Bytes → Except String T) (h : d.Valid)
    (hwait : (frames parse).read d.held = .wait) (bytes : Bytes) :
    (d.run parse (bytes.map fun b => [b])).frames =
      ((frames parse).drain (d.held ++ bytes)).items := by
  induction bytes generalizing d with
  | nil =>
      rw [List.append_nil, Reader.drain_wait hwait]
      rfl
  | cons b bytes ih =>
      have hpush := push_held parse h [b]
      have hsplit : d.held ++ b :: bytes = (d.held ++ [b]) ++ bytes := by simp
      rw [List.map_cons, hsplit]
      cases hfailure : ((frames parse).drain (d.held ++ [b])).failure with
      | some e =>
          rw [hfailure] at hpush
          obtain ⟨d', hresult⟩ := hpush
          rw [Reader.drain_append_of_failure hfailure, items_of_byte hwait hfailure]
          simp only [run, hresult]
      | none =>
          rw [hfailure] at hpush
          obtain ⟨d', hresult, hvalid, hheld⟩ := hpush
          have hrest := ih hvalid (by rw [hheld]; exact Reader.read_rest hfailure)
          rw [Reader.drain_append hfailure, ← hheld, Drained.items_after, ← hrest]
          simp only [run, hresult]

/-- However the stream is cut, a client sees the same. -/
def Independent (parse : Bytes → Except String T) (stream : Bytes) : Prop :=
  ∀ chunks chunks' : List Bytes, chunks.flatten = stream → chunks'.flatten = stream →
    new.run parse chunks = new.run parse chunks'

/-- A malformed frame stands behind a frame that is not. -/
def Buries (parse : Bytes → Except String T) (stream : Bytes) : Prop :=
  ((frames parse).drain stream).failure ≠ none ∧ ((frames parse).drain stream).items ≠ []

/-- How a stream is cut makes a difference exactly where a malformed frame stands behind a good
one. -/
theorem independent_of_clear (parse : Bytes → Except String T) (stream : Bytes) :
    Independent parse stream ↔ ¬ Buries parse stream := by
  have hwait : (frames parse).read new.held = .wait := read_nil
  refine ⟨fun hsame hburies => ?_, fun hclear chunks chunks' hchunks hchunks' => ?_⟩
  · -- In one piece the good frame is lost, byte by byte it is not.
    have hbytes := run_bytes parse valid_new hwait stream
    have hcut : (stream.map fun b => [b]).flatten = stream := by
      rw [← List.flatMap_def, List.flatMap_singleton']
    have hwhole : (new.run parse [stream]).frames = [] := by
      have hpush := push_held parse valid_new stream
      cases hfailure : ((frames parse).drain (new.held ++ stream)).failure with
      | none => exact absurd hfailure hburies.1
      | some e =>
          rw [hfailure] at hpush
          obtain ⟨d', hresult⟩ := hpush
          simp only [run, hresult]
    rw [hsame _ [stream] hcut (by simp), hwhole] at hbytes
    exact hburies.2 hbytes.symm
  · have hleft := run_held parse valid_new hwait chunks
    have hright := run_held parse valid_new hwait chunks'
    rw [hchunks] at hleft
    rw [hchunks'] at hright
    rw [held_new, List.nil_append] at hleft hright
    cases hfailure : ((frames parse).drain stream).failure with
    | none =>
        rw [hfailure] at hleft hright
        exact hleft.trans hright.symm
    | some e =>
        rw [hfailure] at hleft hright
        have hitems : ((frames parse).drain stream).items = [] := by
          by_contra hne
          exact hclear ⟨by rw [hfailure]; exact nofun, hne⟩
        rw [hitems] at hleft hright
        have hframes := (List.prefix_nil.mp hleft.2).trans (List.prefix_nil.mp hright.2).symm
        generalize new.run parse chunks = o at *
        generalize new.run parse chunks' = o' at *
        obtain ⟨shown, ending⟩ := o
        obtain ⟨shown', ending'⟩ := o'
        rw [Outcome.mk.injEq]
        exact ⟨hframes, hleft.1.trans hright.1.symm⟩

/-- A decoder is independent of how its stream is cut, a malformed frame behind a good one
apart; and whatever was pushed, its range holds what is not decoded yet. -/
theorem independent_iff (parse : Bytes → Except String T) (stream : Bytes) :
    (Independent parse stream ↔ ¬ Buries parse stream) ∧
      ∀ chunks d, chunks.flatten <+: stream → new.pushed parse chunks = some d →
        d.Valid ∧ d.held = ((frames parse).drain chunks.flatten).rest :=
  ⟨independent_of_clear parse stream,
    fun _ _ _ hd => held_of_pushed valid_new read_nil hd⟩

/-- The text of a `pong`. -/
def pong : Bytes := ascii "\x7b\"t\":\"pong\",\"id\":1\x7d"

/-- `JSON.parse`, of texts that are that one or no JSON. -/
def parsePong (body : Bytes) : Except String Bytes :=
  if body = pong then .ok body else .error "Unexpected token"

/-- A `pong`, and a length no frame may have. -/
def pongThenLong : Bytes := putU32 pong.length ++ pong ++ [255, 255, 255, 255]

/-- In one piece the `pong` is never handed out. -/
theorem pongThenLong_dependent : ¬ Independent parsePong pongThenLong := by
  rw [independent_of_clear, not_not]
  have hlen : pong.length ≤ maxFrame := by decide
  have hparse : parsePong pong = .ok pong := if_pos rfl
  have hpong : (frames parsePong).read pongThenLong = .item pong [255, 255, 255, 255] :=
    readFrame_frame hlen hparse _
  have hlong : (frames parsePong).read [255, 255, 255, 255] = .fail (.tooLarge 4294967295) := rfl
  rw [Buries, Reader.drain_item hpong, Reader.drain_fail hlong]
  exact ⟨nofun, nofun⟩

end FrameDecoder

end Lug.Ts
