import Lug.Lib.Utf8
import Lug.Proto.Framed

/-!
`http.ts`: the parser of an event stream. Bytes become text, text becomes lines, and lines
become events, each with a remainder that waits for the next chunk.
-/

namespace Lug.Ts

open Proto

/-- What makes `push` or `finish` throw. -/
inductive SseError
  | encoding
  | eventTooLong
  | responseTooLong
  | malformed (e : String)
  deriving DecidableEq, Repr

/-- `length` of a string, which counts in UTF-16. -/
def units (text : List Char) : ℕ := (text.map fun c => if c.toNat < 0x10000 then 1 else 2).sum

/-! ### The text of a stream -/

/-- The mark that a `TextDecoder` drops from the front. -/
def bom : Char := '\uFEFF'

/-- `TextDecoder`, with a fatal error mode. -/
structure TextDecoder where
  pending : Bytes
  bomSeen : Bool

namespace TextDecoder

def new : TextDecoder := ⟨[], false⟩

/-- `decode` of a chunk, with more to come. -/
def decode (d : TextDecoder) (chunk : Bytes) : Except SseError (List Char × TextDecoder) :=
  let drained := Utf8.chars.drain (d.pending ++ chunk)
  match drained.failure with
  | some _ => .error .encoding
  | none =>
      match drained.items with
      | [] => .ok ([], ⟨drained.rest, d.bomSeen⟩)
      | c :: cs => .ok (if !d.bomSeen && c = bom then cs else c :: cs, ⟨drained.rest, true⟩)

/-- `decode` at the end, when nothing may be missing. -/
def flush (d : TextDecoder) : Except SseError Unit :=
  if d.pending = [] then .ok () else .error .encoding

end TextDecoder

/-! ### The parser -/

/-- The text up to the first line feed, and what is behind it. -/
def splitLine (text : List Char) : Option (List Char × List Char) :=
  match text.dropWhile (· ≠ '\n') with
  | [] => none
  | _ :: rest => some (text.takeWhile (· ≠ '\n'), rest)

theorem splitLine_nil : splitLine [] = none := rfl

theorem splitLine_newline (rest : List Char) : splitLine ('\n' :: rest) = some ([], rest) := by
  simp [splitLine]

theorem splitLine_cons {c : Char} (h : c ≠ '\n') (text : List Char) :
    splitLine (c :: text) = (splitLine text).map fun (line, rest) => (c :: line, rest) := by
  rw [splitLine, List.dropWhile_cons_of_pos (by simpa using h),
    List.takeWhile_cons_of_pos (by simpa using h), splitLine]
  cases text.dropWhile (· ≠ '\n') with
  | nil => rfl
  | cons c rest => rfl

/-- The first line feed ends the line, whatever follows. -/
theorem splitLine_line {line : List Char} (h : '\n' ∉ line) (rest : List Char) :
    splitLine (line ++ '\n' :: rest) = some (line, rest) := by
  induction line with
  | nil => exact splitLine_newline rest
  | cons c line ih =>
      rw [List.mem_cons, not_or] at h
      rw [List.cons_append, splitLine_cons (Ne.symm h.1), ih h.2]
      rfl

theorem splitLine_none {text : List Char} (h : '\n' ∉ text) : splitLine text = none := by
  induction text with
  | nil => rfl
  | cons c text ih =>
      rw [List.mem_cons, not_or] at h
      rw [splitLine_cons (Ne.symm h.1), ih h.2]
      rfl

theorem splitLine_some {text line rest : List Char} (h : splitLine text = some (line, rest)) :
    text = line ++ '\n' :: rest ∧ '\n' ∉ line := by
  induction text generalizing line with
  | nil => cases h
  | cons c text ih =>
      by_cases hc : c = '\n'
      · rw [hc, splitLine_newline] at h
        cases h
        exact ⟨by rw [hc]; rfl, List.not_mem_nil⟩
      · rw [splitLine_cons hc, Option.map_eq_some_iff] at h
        obtain ⟨⟨line', rest'⟩, hsplit, heq⟩ := h
        cases heq
        obtain ⟨rfl, hline⟩ := ih hsplit
        refine ⟨rfl, ?_⟩
        rw [List.mem_cons, not_or]
        exact ⟨Ne.symm hc, hline⟩

/-- A line without the carriage return of its ending. -/
def trimmed (line : List Char) : List Char :=
  if line.getLast? = some '\r' then line.dropLast else line

/-- `SseParser`. -/
structure SseParser where
  decoder : TextDecoder
  text : List Char
  data : List (List Char)

section

variable {R : Type} (parse : Bytes → Except String R)

/-- `decodeJsonResponse`; `parse` is what it asks of `TextDecoder`, `JSON.parse` and
`isResponse`. -/
def decodeJsonResponse (bytes : Bytes) : Except SseError R :=
  if maxFrame < bytes.length then .error .responseTooLong
  else (parse bytes).mapError .malformed

/-- `#event`, of the data that was collected. -/
def event (data : List (List Char)) : Except SseError R :=
  decodeJsonResponse parse (Utf8.encode (['\n'].intercalate data))

/-- `#line`: the data collected behind it and the responses it completes. -/
def line (data : List (List Char)) (text : List Char) :
    Except SseError (List (List Char) × List R) :=
  if text = [] then
    if data ≠ [] then (event parse data).map fun response => ([], [response])
    else .ok (data, [])
  else if text.head? = some ':' then .ok (data, [])
  else if text = "data".toList ∨ "data:".toList <+: text then
    let value := if text = "data".toList then [] else text.drop 5
    let value := if value.head? = some ' ' then value.drop 1 else value
    .ok (data ++ [value], [])
  else .ok (data, [])

/-- `#lines`, with the responses of the lines before. -/
def lines (final : Bool) (p : SseParser) (responses : List R) :
    Except SseError (List R × SseParser) :=
  match _h : splitLine p.text with
  | none =>
      if final = true ∧ p.text ≠ [] then do
        let (data, out) ← line parse p.data p.text
        return (responses ++ out, { p with text := [], data })
      else return (responses, p)
  | some (text, rest) =>
      match line parse p.data (trimmed text) with
      | .error e => .error e
      | .ok (data, out) => lines final { p with text := rest, data } (responses ++ out)
termination_by p.text.length
decreasing_by
  obtain ⟨heq, -⟩ := splitLine_some _h
  rw [heq, List.length_append, List.length_cons]
  omega

namespace SseParser

def new : SseParser := ⟨.new, [], []⟩

/-- `push`. -/
def push (p : SseParser) (chunk : Bytes) : Except SseError (List R × SseParser) := do
  let (chars, decoder) ← p.decoder.decode chunk
  let text := p.text ++ chars
  if maxFrame * 2 < units text then .error .eventTooLong
  else lines parse false { p with decoder, text } []

/-- `finish`. -/
def finish (p : SseParser) : Except SseError (List R) := do
  p.decoder.flush
  let (responses, p) ← lines parse true p []
  if p.data ≠ [] then return responses ++ [← event parse p.data] else return responses

/-- Every chunk of a stream and its end. -/
def run (p : SseParser) : List Bytes → Except SseError (List R)
  | [] => p.finish parse
  | chunk :: chunks => do
      let (responses, p) ← p.push parse chunk
      return responses ++ (← p.run chunks)

end SseParser

end

/-! ### Lines, as they become complete -/

/-- Lines, one after the other. -/
def lineReader : Reader Char (List Char) Empty where
  read text :=
    match splitLine text with
    | none => .wait
    | some (line, rest) => .item line rest
  shorter {text line rest} h := by
    split at h
    · cases h
    · rename_i hsplit
      cases h
      rw [(splitLine_some hsplit).1, List.length_append, List.length_cons]
      omega
  item_append {text line rest} more h := by
    split at h
    · cases h
    · rename_i hsplit
      cases h
      obtain ⟨rfl, hline⟩ := splitLine_some hsplit
      rw [List.append_assoc, List.cons_append, splitLine_line hline]
  fail_append {text e} more h := e.elim

theorem lineReader_wait {text : List Char} (h : splitLine text = none) :
    lineReader.read text = .wait := by
  show (match splitLine text with | none => _ | some (line, rest) => _) = _
  rw [h]

theorem lineReader_item {text line rest : List Char} (h : splitLine text = some (line, rest)) :
    lineReader.read text = .item line rest := by
  show (match splitLine text with | none => _ | some (line, rest) => _) = _
  rw [h]

/-- Reading lines never fails. -/
theorem lineReader_failure (text : List Char) : (lineReader.drain text).failure = none := by
  cases h : (lineReader.drain text).failure with
  | none => rfl
  | some e => exact e.elim

section

variable {R : Type} (parse : Bytes → Except String R)

/-- What lines make of the data collected before them. -/
def absorb (data : List (List Char)) :
    List (List Char) → Except SseError (List (List Char) × List R)
  | [] => .ok (data, [])
  | text :: texts => do
      let (data, out) ← line parse data text
      let (data, later) ← absorb data texts
      return (data, out ++ later)

variable {parse} {data : List (List Char)}

theorem absorb_cons {text : List Char} {texts : List (List Char)}
    {data' : List (List Char)} {out : List R} (h : line parse data text = .ok (data', out)) :
    absorb parse data (text :: texts) =
      (absorb parse data' texts).map fun (data, later) => (data, out ++ later) := by
  rw [absorb, h]
  show (absorb parse data' texts >>= fun (data, later) => pure (data, out ++ later)) = _
  cases absorb parse data' texts <;> rfl

/-- What more lines make of it. -/
theorem absorb_append {texts texts' : List (List Char)} {result : List (List Char) × List R}
    (h : absorb parse data (texts ++ texts') = .ok result) :
    ∃ data' out later, absorb parse data texts = .ok (data', out) ∧
      absorb parse data' texts' = .ok (result.1, later) ∧ result.2 = out ++ later := by
  induction texts generalizing data result with
  | nil => exact ⟨data, [], result.2, rfl, h, rfl⟩
  | cons text texts ih =>
      cases hline : line parse data text with
      | error e =>
          rw [List.cons_append, absorb, hline] at h
          cases h
      | ok made =>
          obtain ⟨data', out⟩ := made
          rw [List.cons_append, absorb_cons hline] at h
          cases hrest : absorb parse data' (texts ++ texts') with
          | error e =>
              rw [hrest] at h
              cases h
          | ok result' =>
              rw [hrest] at h
              cases h
              obtain ⟨data'', out', later, hleft, hright, heq⟩ := ih hrest
              refine ⟨data'', out ++ out', later, ?_, hright, ?_⟩
              · rw [absorb_cons hline, hleft]
                rfl
              · rw [List.append_assoc, ← heq]

/-- `#lines` absorbs the lines that are complete and keeps the rest, which nobody asks for
at the end. -/
theorem lines_eq {final : Bool} {p : SseParser} (responses : List R)
    (hfinal : final = true → (lineReader.drain p.text).rest = [])
    {data : List (List Char)} {out : List R}
    (h : absorb parse p.data ((lineReader.drain p.text).items.map trimmed) = .ok (data, out)) :
    lines parse final p responses =
      .ok (responses ++ out, { p with text := (lineReader.drain p.text).rest, data }) := by
  obtain ⟨decoder, text, before⟩ := p
  dsimp only at hfinal h ⊢
  induction hn : text.length using Nat.strongRecOn generalizing text before responses out with
  | _ n ih =>
      rw [lines]
      split
      · rename_i hsplit
        dsimp only at hsplit
        rw [Reader.drain_wait (lineReader_wait hsplit)] at hfinal h ⊢
        cases h
        rw [List.append_nil, if_neg fun hboth => hboth.2 (hfinal hboth.1)]
        rfl
      · rename_i text' rest hsplit
        dsimp only at hsplit ⊢
        rw [Reader.drain_item (lineReader_item hsplit)] at hfinal h ⊢
        rw [Drained.items_after, List.singleton_append, List.map_cons] at h
        cases hline : line parse before (trimmed text') with
        | error e =>
            rw [absorb, hline] at h
            cases h
        | ok made =>
            obtain ⟨data', out'⟩ := made
            rw [absorb_cons hline] at h
            cases hrest : absorb parse data' ((lineReader.drain rest).items.map trimmed) with
            | error e =>
                rw [hrest] at h
                cases h
            | ok result =>
                rw [hrest] at h
                cases h
                have hless : rest.length < n := by
                  rw [← hn, (splitLine_some hsplit).1, List.length_append, List.length_cons]
                  omega
                refine (ih _ hless (responses ++ out') rest data' hfinal hrest rfl).trans ?_
                rw [List.append_assoc]
                rfl

end

end Lug.Ts
