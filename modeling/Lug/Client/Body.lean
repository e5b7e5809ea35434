import Lug.Core.Json
import Lug.Lib.Octets
import Lug.Lib.Radix
import Lug.Lib.Utf8

/-!
`lug_client::http::Body`, the body of a reply, read whole or line by line, and what one
`fill` of its buffer leads to.
-/

namespace Lug.Client.Decoding

open Octets

inductive Error
  /-- `read_exact` found the end of the connection. -/
  | unexpectedEof
  /-- `read_line` found a line that is no UTF-8. -/
  | invalidData
  | badChunkSize (header : List Char)
  deriving DecidableEq

/-- `Body`. Of its reader it has the bytes that are still to come, and how many of them
each `read` will find there. -/
structure Body where
  unread : Bytes
  arrivals : ℕ → ℕ
  chunked : Bool
  remaining : Option ℕ
  buf : Bytes
  done : Bool

/-- The number a chunk is announced with: `header.trim().split(';').next()`, trimmed. -/
def chunkSize (header : List Char) : Option ℕ :=
  Radix.fromStrRadix (2 ^ 64) (Utf8.trim ((Utf8.trim header).takeWhile (· ≠ ';')))

namespace Body

/-- `Body::new`. -/
def new (unread : Bytes) (arrivals : ℕ → ℕ) (chunked : Bool) (length : Option ℕ) : Body :=
  ⟨unread, arrivals, chunked, length, [], false⟩

/-- `AsyncBufReadExt::read_line`: the line with its line feed, or what is left of the
connection. -/
def readLine (b : Body) : Except Error (List Char) × Body :=
  let line := b.unread.takeWhile (· ≠ 10) ++ (b.unread.dropWhile (· ≠ 10)).take 1
  let b := { b with unread := (b.unread.dropWhile (· ≠ 10)).drop 1 }
  match Utf8.text line with
  | none => (.error .invalidData, b)
  | some header => (.ok header, b)

/-- `buf.resize` by `size`, and `AsyncReadExt::read_exact` into the new part. -/
def readExact (b : Body) (size : ℕ) : Except Error Unit × Body :=
  if b.unread.length < size then
    (.error .unexpectedEof,
      { b with unread := [], buf := b.buf ++ b.unread ++ zeroes (size - b.unread.length) })
  else
    (.ok (), { b with unread := b.unread.drop size, buf := b.buf ++ b.unread.take size })

/-- The two bytes behind the data of a chunk, which nobody looks at. -/
def skipCrlf (b : Body) : Except Error Bool × Body :=
  if b.unread.length < 2 then (.error .unexpectedEof, { b with unread := [] })
  else (.ok true, { b with unread := b.unread.drop 2 })

/-- `AsyncReadExt::read` of at most 4096 bytes. -/
def read (b : Body) : Bytes × Body :=
  let count := min (b.arrivals 0 + 1) 4096
  (b.unread.take count,
    { b with unread := b.unread.drop count, arrivals := fun k => b.arrivals (k + 1) })

/-- `Body::fill`: appends more decoded body bytes, or says that there are none. -/
def fill (b : Body) : Except Error Bool × Body :=
  if b.done then (.ok false, b)
  else if b.chunked then
    -- `read_line` read nothing.
    if b.unread = [] then (.ok false, { b with done := true })
    else
      match b.readLine with
      | (.error e, b) => (.error e, b)
      | (.ok header, b) =>
          match chunkSize header with
          | none => (.error (.badChunkSize header), b)
          | some 0 => (.ok false, { b with done := true })
          | some size =>
              match b.readExact size with
              | (.error e, b) => (.error e, b)
              | (.ok (), b) => b.skipCrlf
  else
    match b.remaining with
    | some 0 => (.ok false, { b with done := true })
    | some left =>
        match b.readExact left with
        | (.error e, b) => (.error e, b)
        | (.ok (), b) => (.ok true, { b with remaining := some 0 })
    | none =>
        -- No framing header at all: the body runs to end of connection.
        match b.read with
        | ([], b) => (.ok false, { b with done := true })
        | (chunk, b) => (.ok true, { b with buf := b.buf ++ chunk })

/-! ### Every piece comes out of the connection -/

theorem shorter_readLine (b : Body) (h : b.unread ≠ []) :
    b.readLine.2.unread.length < b.unread.length := by
  have hsplit := List.takeWhile_append_dropWhile (p := (· ≠ 10)) (l := b.unread)
  have hlength := congrArg List.length hsplit
  have hpos := List.length_pos_iff.mpr h
  have hrest : b.readLine.2.unread = (b.unread.dropWhile (· ≠ 10)).drop 1 := by
    rw [readLine]
    split <;> rfl
  rw [hrest, List.length_drop]
  rw [List.length_append] at hlength
  omega

theorem shorter_readExact {b b' : Body} {size : ℕ} (h : b.readExact size = (.ok (), b')) :
    b'.unread.length + size = b.unread.length := by
  rw [readExact] at h
  split_ifs at h with hshort
  · cases h
  · cases h
    show (b.unread.drop size).length + size = _
    rw [List.length_drop]
    omega

theorem shorter_skipCrlf {b b' : Body} (h : b.skipCrlf = (.ok true, b')) :
    b'.unread.length < b.unread.length := by
  rw [skipCrlf] at h
  split_ifs at h with hshort
  · cases h
  · cases h
    show (b.unread.drop 2).length < _
    rw [List.length_drop]
    omega

/-- What a `fill` appends comes out of the connection. -/
theorem shorter_fill {b b' : Body} (h : b.fill = (.ok true, b')) :
    b'.unread.length < b.unread.length := by
  rw [fill] at h
  split_ifs at h with hdone hchunked hend
  · cases h
  · cases h
  · have hline := shorter_readLine b hend
    split at h
    · cases h
    · rename_i header b₁ hread
      rw [hread] at hline
      split at h
      · cases h
      · cases h
      · split at h
        · cases h
        · rename_i b₂ hexact
          have hdata := shorter_readExact hexact
          have hskip := shorter_skipCrlf h
          dsimp only at hline
          omega
  · split at h
    · cases h
    · rename_i left hleft _
      split at h
      · cases h
      · rename_i b₁ hexact
        have hdata := shorter_readExact hexact
        cases h
        show b₁.unread.length < _
        have hpos : left ≠ 0 := fun hzero => hleft hzero
        omega
    · split at h
      · cases h
      · rename_i chunk b₁ hsome hread
        have hchunk : chunk = b.unread.take (min (b.arrivals 0 + 1) 4096) :=
          (congrArg Prod.fst hread).symm
        have hrest : b₁.unread = b.unread.drop (min (b.arrivals 0 + 1) 4096) :=
          congrArg (·.2.unread) hread.symm
        have hpos : 0 < b.unread.length := by
          refine List.length_pos_iff.mpr fun hnil => ?_
          rw [hnil, List.take_nil] at hchunk
          exact hsome hchunk
        cases h
        show b₁.unread.length < _
        rw [hrest, List.length_drop]
        omega

/-- `Body::read_all`. -/
def readAll (b : Body) : Except Error Bytes × Body :=
  match _h : b.fill with
  | (.error e, b') => (.error e, b')
  | (.ok true, b') => b'.readAll
  | (.ok false, b') => (.ok b'.buf, { b' with buf := [] })
termination_by b.unread.length
decreasing_by exact shorter_fill _h

/-- The text of a line: `String::from_utf8_lossy(&line).trim_end()`. -/
def lineText (line : Bytes) : List Char := Utf8.trimEnd (Utf8.lossy line)

/-- `Body::next_line`. -/
def nextLine (b : Body) : Except Error (Option (List Char)) × Body :=
  match b.buf.findIdx? (· = 10) with
  | some at_ =>
      (.ok (some (lineText (b.buf.take (at_ + 1)))), { b with buf := b.buf.drop (at_ + 1) })
  | none =>
      match _h : b.fill with
      | (.error e, b') => (.error e, b')
      | (.ok true, b') => b'.nextLine
      | (.ok false, b') => (.ok none, b')
termination_by b.unread.length
decreasing_by exact shorter_fill _h

/-- What the call of `next_line` number `k` returns, counted from 0. -/
def nthLine : ℕ → Body → Except Error (Option (List Char))
  | 0, b => b.nextLine.1
  | k + 1, b => nthLine k b.nextLine.2

theorem readAll_error {b b' : Body} {e : Error} (h : b.fill = (.error e, b')) :
    b.readAll = (.error e, b') := by
  rw [readAll]
  split <;> simp_all

theorem readAll_more {b b' : Body} (h : b.fill = (.ok true, b')) : b.readAll = b'.readAll := by
  rw [readAll]
  split <;> simp_all

theorem readAll_end {b b' : Body} (h : b.fill = (.ok false, b')) :
    b.readAll = (.ok b'.buf, { b' with buf := [] }) := by
  rw [readAll]
  split <;> simp_all

theorem nextLine_line {b : Body} {line rest : Bytes} (hline : 10 ∉ line)
    (h : b.buf = line ++ 10 :: rest) :
    b.nextLine = (.ok (some (lineText (line ++ [10]))), { b with buf := rest }) := by
  have hat : b.buf.findIdx? (· = 10) = some line.length := by
    have hnone : line.findIdx? (· = 10) = none :=
      List.findIdx?_eq_none_iff.mpr fun x hx => decide_eq_false fun heq => hline (heq ▸ hx)
    have hten : (10 :: rest).findIdx? (· = (10 : UInt8)) = some 0 := by
      rw [List.findIdx?_cons]
      rfl
    rw [h, List.findIdx?_append, hnone, hten]
    simp
  have hsplit : b.buf = (line ++ [10]) ++ rest := by rw [h, List.append_assoc]; rfl
  have hlength : line.length + 1 = (line ++ [10]).length := by simp
  rw [nextLine, hat]
  dsimp only
  rw [hsplit, hlength, List.take_left, List.drop_left]

section

variable {b b' : Body} (hbuf : 10 ∉ b.buf)

include hbuf

theorem findIdx_buf : b.buf.findIdx? (· = 10) = none :=
  List.findIdx?_eq_none_iff.mpr fun _ hx => decide_eq_false fun heq => hbuf (heq ▸ hx)

theorem nextLine_more (h : b.fill = (.ok true, b')) : b.nextLine = b'.nextLine := by
  rw [nextLine, findIdx_buf hbuf]
  dsimp only
  split <;> simp_all

theorem nextLine_end (h : b.fill = (.ok false, b')) : b.nextLine = (.ok none, b') := by
  rw [nextLine, findIdx_buf hbuf]
  dsimp only
  split <;> simp_all

end

end Body

end Lug.Client.Decoding
