import Lug.Ts.FrameDecoder
import Lug.Ts.SseParser

/-!
What an event stream says, line by line, and that the parser takes it out of every way to
cut the bytes, as long as no push leaves too much text to look at: the bound on an event is
asked of all the text that is buffered.
-/

namespace Lug.Ts

open Proto

/-! ### Streams -/

/-- A line of a stream, with how it ends. -/
structure Line where
  content : List Char
  crlf : Bool
  plain : '\n' ∉ content ∧ '\r' ∉ content

/-- An event stream. It starts with a byte order mark or not, which no text of it is taken
for. -/
structure EventStream where
  marked : Bool
  lines : List Line
  unmarked : marked = false → (lines.head?.bind (·.content.head?)) ≠ some bom

/-- The value of a `data` field. -/
def dataOf (content : List Char) : Option (List Char) :=
  let value := (content.dropWhile (· ≠ ':')).tail
  if content.takeWhile (· ≠ ':') = "data".toList then
    some (if value.head? = some ' ' then value.tail else value)
  else none

/-- The data of an event, which has some. -/
def joined (values : List (List Char)) : Option (List Char) :=
  if values = [] then none else some (['\n'].intercalate values)

/-- The data of the events among lines. Blank lines lie between events, and the end of the
stream ends the last one. -/
def eventsOf (contents : List (List Char)) : List (List Char) :=
  ((contents.splitOnP List.isEmpty).map (·.filterMap dataOf)).filterMap joined

namespace Line

/-- A line as it is written. -/
def text (l : Line) : List Char := l.content ++ if l.crlf then ['\r', '\n'] else ['\n']

end Line

namespace EventStream

def text (s : EventStream) : List Char := s.lines.flatMap Line.text

def bytes (s : EventStream) : Bytes := Utf8.encode (if s.marked then bom :: s.text else s.text)

def events (s : EventStream) : List (List Char) := eventsOf (s.lines.map Line.content)

end EventStream

/-- Data, and the response it is. -/
def Valid {R : Type} (parse : Bytes → Except String R) (data : List Char) (r : R) : Prop :=
  (Utf8.encode data).length ≤ maxFrame ∧ parse (Utf8.encode data) = .ok r

/-- The events of a stream are these responses. -/
def Carries {R : Type} (parse : Bytes → Except String R) (s : EventStream)
    (responses : List R) : Prop :=
  List.Forall₂ (Valid parse) s.events responses

/-! ### What arrived so far -/

/-- A text without the mark in front of it. -/
def withoutMark : List Char → List Char
  | [] => []
  | c :: cs => if c = bom then cs else c :: cs

/-- The text of what arrived, as far as its characters are complete. -/
def heard (bytes : Bytes) : List Char := withoutMark (Utf8.chars.drain bytes).items

/-- What stands behind the last line feed. -/
def unfinished (text : List Char) : List Char := text.rtakeWhile (· ≠ '\n')

/-- The text a push has buffered: the line that is not complete yet, and all that the chunk
adds. -/
def buffered (seen chunk : Bytes) : List Char :=
  unfinished (heard seen) ++ (heard (seen ++ chunk)).drop (heard seen).length

/-- No push buffers more than the bound on an event. -/
def Fits (seen : Bytes) : List Bytes → Prop
  | [] => True
  | chunk :: chunks =>
      units (buffered seen chunk) ≤ maxFrame * 2 ∧ Fits (seen ++ chunk) chunks

theorem takeWhile_newline (cs tail : List Char) :
    (cs ++ '\n' :: tail).takeWhile (· ≠ '\n') = cs.takeWhile (· ≠ '\n') := by
  induction cs with
  | nil => rfl
  | cons c cs ih => rw [List.cons_append, List.takeWhile_cons, List.takeWhile_cons, ih]

theorem unfinished_line (line rest : List Char) :
    unfinished (line ++ '\n' :: rest) = unfinished rest := by
  rw [unfinished, unfinished, List.rtakeWhile, List.rtakeWhile, List.reverse_append,
    List.reverse_cons, List.append_assoc]
  exact congrArg List.reverse (takeWhile_newline _ _)

theorem unfinished_of_splitLine {text : List Char} (h : splitLine text = none) :
    unfinished text = text := by
  rw [unfinished, List.rtakeWhile_eq_self_iff]
  intro c hc
  rw [splitLine] at h
  split at h
  · rename_i hdrop
    exact List.dropWhile_eq_nil_iff.mp hdrop c hc
  · cases h

/-- Reading lines leaves the one that is not complete. -/
theorem rest_lineReader (text : List Char) : (lineReader.drain text).rest = unfinished text := by
  induction hn : text.length using Nat.strongRecOn generalizing text with
  | _ n ih =>
      cases h : splitLine text with
      | none => rw [Reader.drain_wait (lineReader_wait h), unfinished_of_splitLine h]
      | some split =>
          obtain ⟨line, rest⟩ := split
          obtain ⟨heq, -⟩ := splitLine_some h
          have hless : rest.length < n := by
            rw [← hn, heq, List.length_append, List.length_cons]
            omega
          rw [Reader.drain_item (lineReader_item h), Drained.rest_after, ih _ hless rest rfl, heq,
            unfinished_line]

/-! ### The decoder and the text behind it -/

/-- A decoder behind these bytes. -/
def decoderAt (bytes : Bytes) : TextDecoder :=
  ⟨(Utf8.chars.drain bytes).rest, !(Utf8.chars.drain bytes).items.isEmpty⟩

/-- A chunk shows what the text of the stream goes on with. -/
theorem decode_eq {seen : Bytes} (hseen : (Utf8.chars.drain seen).failure = none) (chunk : Bytes)
    (h : (Utf8.chars.drain (seen ++ chunk)).failure = none) :
    ∃ chars, (decoderAt seen).decode chunk = .ok (chars, decoderAt (seen ++ chunk)) ∧
      heard (seen ++ chunk) = heard seen ++ chars := by
  have hdrain := Reader.drain_append hseen chunk
  rw [hdrain, Drained.failure_after] at h
  rw [TextDecoder.decode, decoderAt, decoderAt, heard, heard, hdrain]
  generalize Utf8.chars.drain ((Utf8.chars.drain seen).rest ++ chunk) = next at h
  obtain ⟨more, rest, failure⟩ := next
  cases h
  obtain ⟨before, -, -⟩ := Utf8.chars.drain seen
  cases more with
  | nil =>
      refine ⟨[], ?_, ?_⟩
      · simp
      · simp
  | cons c cs =>
      cases before with
      | nil =>
          refine ⟨if c = bom then cs else c :: cs, ?_, ?_⟩
          · simp
          · rfl
      | cons b bs =>
          refine ⟨c :: cs, ?_, ?_⟩
          · simp
          · show withoutMark (b :: (bs ++ c :: cs)) = withoutMark (b :: bs) ++ c :: cs
            rw [withoutMark, withoutMark]
            split_ifs
            · rfl
            · rfl

section

variable {R : Type} {parse : Bytes → Except String R}

variable (parse) in
/-- What the lines that are complete come to. -/
def absorbed (bytes : Bytes) : Except SseError (List (List Char) × List R) :=
  absorb parse [] ((lineReader.drain (heard bytes)).items.map trimmed)

variable (parse) in
/-- A parser behind these bytes, with the responses it has handed out. -/
structure Fed (p : SseParser) (bytes : Bytes) (responses : List R) : Prop where
  whole : (Utf8.chars.drain bytes).failure = none
  decoder : p.decoder = decoderAt bytes
  text : p.text = unfinished (heard bytes)
  made : absorbed parse bytes = .ok (p.data, responses)

theorem fed_new : Fed parse .new [] [] := by
  have hchars : Utf8.chars.drain [] = ⟨[], [], none⟩ := Utf8.drain_encode []
  have hlines : lineReader.drain [] = ⟨[], [], none⟩ := Reader.drain_wait (lineReader_wait rfl)
  refine ⟨by rw [hchars], by rw [decoderAt, hchars]; rfl, by rw [heard, hchars]; rfl, ?_⟩
  rw [absorbed, heard, hchars]
  show absorb parse [] ((lineReader.drain []).items.map trimmed) = _
  rw [hlines]
  rfl

/-- Lines that are complete stay so, and what they come to is a part of what all come to. -/
theorem absorbed_append {seen chunk : Bytes} {chars : List Char}
    (hheard : heard (seen ++ chunk) = heard seen ++ chars)
    {data : List (List Char)} {responses : List R}
    (hmade : absorbed parse seen = .ok (data, responses))
    {result : List (List Char) × List R} (h : absorbed parse (seen ++ chunk) = .ok result) :
    ∃ later, absorb parse data
        ((lineReader.drain (unfinished (heard seen) ++ chars)).items.map trimmed) =
          .ok (result.1, later) ∧ result.2 = responses ++ later := by
  rw [absorbed, hheard, Reader.drain_append (lineReader_failure _), Drained.items_after,
    List.map_append, rest_lineReader] at h
  obtain ⟨data', out, later, hleft, hright, heq⟩ := absorb_append h
  rw [absorbed, hleft] at hmade
  cases hmade
  exact ⟨later, hright, heq⟩

/-- One push: it fails when it has to buffer too much, and otherwise hands out what has become
complete. -/
theorem push_fed {p : SseParser} {seen : Bytes} {responses : List R}
    (h : Fed parse p seen responses) {chunk : Bytes}
    (hwhole : (Utf8.chars.drain (seen ++ chunk)).failure = none)
    {result : List (List Char) × List R} (hmade : absorbed parse (seen ++ chunk) = .ok result) :
    if units (buffered seen chunk) ≤ maxFrame * 2 then
      ∃ p' later, p.push parse chunk = .ok (later, p') ∧
        Fed parse p' (seen ++ chunk) (responses ++ later)
    else p.push parse chunk = .error .eventTooLong := by
  obtain ⟨chars, hdecode, hheard⟩ := decode_eq h.whole chunk hwhole
  obtain ⟨later, hlater, heq⟩ := absorbed_append hheard h.made hmade
  have hbuffered : buffered seen chunk = p.text ++ chars := by
    rw [buffered, hheard, List.drop_left, h.text]
  have hrest : (lineReader.drain (p.text ++ chars)).rest = unfinished (heard (seen ++ chunk)) := by
    rw [hheard, ← rest_lineReader (heard seen ++ chars),
      Reader.drain_append (lineReader_failure (heard seen)), Drained.rest_after,
      rest_lineReader (heard seen), h.text]
  have hpush : p.push parse chunk =
      if maxFrame * 2 < units (p.text ++ chars) then .error .eventTooLong
      else lines parse false ⟨decoderAt (seen ++ chunk), p.text ++ chars, p.data⟩ [] := by
    rw [SseParser.push, h.decoder, hdecode]
    rfl
  rw [hbuffered, hpush]
  by_cases hfits : units (p.text ++ chars) ≤ maxFrame * 2
  · rw [if_pos hfits, if_neg (not_lt.mpr hfits)]
    rw [← h.text] at hlater
    refine ⟨⟨decoderAt (seen ++ chunk), (lineReader.drain (p.text ++ chars)).rest, result.1⟩,
      later, lines_eq [] (fun hfinal => by cases hfinal) hlater, hwhole, rfl, hrest, ?_⟩
    rw [hmade, ← heq]
  · rw [if_neg hfits, if_pos (not_le.mp hfits)]

/-- Where no character and no line is left open, a stream ends with the event that is. -/
structure Closed (parse : Bytes → Except String R) (bytes : Bytes) (responses : List R) :
    Prop where
  chars : ∃ cs, Utf8.chars.drain bytes = ⟨cs, [], none⟩
  lines : unfinished (heard bytes) = []
  made : ∃ data total, absorbed parse bytes = .ok (data, total) ∧
    if data = [] then responses = total
    else ∃ r, event parse data = .ok r ∧ responses = total ++ [r]

theorem finish_fed {p : SseParser} {bytes : Bytes} {before responses : List R}
    (h : Fed parse p bytes before) (hclosed : Closed parse bytes responses) :
    ∃ later, p.finish parse = .ok later ∧ before ++ later = responses := by
  obtain ⟨cs, hchars⟩ := hclosed.chars
  obtain ⟨data, total, hmade, hlast⟩ := hclosed.made
  rw [h.made] at hmade
  cases hmade
  have htext : p.text = [] := h.text.trans hclosed.lines
  have hflush : p.decoder.flush = .ok () := by
    rw [h.decoder, decoderAt, hchars]
    rfl
  have hnone : lineReader.drain p.text = ⟨[], [], none⟩ := by
    rw [htext]
    exact Reader.drain_wait (lineReader_wait rfl)
  have hlines : lines parse true p [] = .ok ([], { p with text := [] }) := by
    have hempty : absorb parse p.data ((lineReader.drain p.text).items.map trimmed) =
        .ok (p.data, []) := by
      rw [hnone]
      rfl
    rw [lines_eq [] (fun _ => by rw [hnone]) hempty, hnone]
    rfl
  have hfinish : p.finish parse =
      if p.data ≠ [] then (do return [] ++ [← event parse p.data]) else return [] := by
    rw [SseParser.finish, hflush]
    show (lines parse true p [] >>= _) = _
    rw [hlines]
    rfl
  by_cases hdata : p.data = []
  · rw [if_pos hdata] at hlast
    rw [hfinish, if_neg (not_not.mpr hdata)]
    exact ⟨[], rfl, by rw [List.append_nil, hlast]⟩
  · rw [if_neg hdata] at hlast
    obtain ⟨r, hevent, rfl⟩ := hlast
    rw [hfinish, if_pos hdata, hevent]
    exact ⟨[r], rfl, rfl⟩

theorem closed_prefix {bytes more : Bytes} {responses : List R}
    (h : Closed parse (bytes ++ more) responses) :
    (Utf8.chars.drain bytes).failure = none ∧ ∃ result, absorbed parse bytes = .ok result := by
  obtain ⟨cs, hchars⟩ := h.chars
  have hwhole : (Utf8.chars.drain bytes).failure = none := by
    cases hfailure : (Utf8.chars.drain bytes).failure with
    | none => rfl
    | some e =>
        rw [Reader.drain_append_of_failure hfailure, hfailure] at hchars
        have hsome := congrArg Drained.failure hchars
        cases hsome
  refine ⟨hwhole, ?_⟩
  obtain ⟨data, total, hmade, -⟩ := h.made
  obtain ⟨chars, -, hheard⟩ := decode_eq hwhole more (by rw [hchars])
  rw [absorbed, hheard, Reader.drain_append (lineReader_failure _), Drained.items_after,
    List.map_append] at hmade
  obtain ⟨data', out, later, hleft, -⟩ := absorb_append hmade
  exact ⟨_, hleft⟩

/-- A whole run: it hands out the responses if every push fits, and otherwise fails. -/
theorem run_fed {p : SseParser} {seen : Bytes} {before responses : List R}
    (h : Fed parse p seen before) (chunks : List Bytes)
    (hclosed : Closed parse (seen ++ chunks.flatten) responses) :
    (Fits seen chunks → ∃ later, p.run parse chunks = .ok later ∧ before ++ later = responses) ∧
      (¬ Fits seen chunks → p.run parse chunks = .error .eventTooLong) := by
  induction chunks generalizing p seen before with
  | nil =>
      rw [List.flatten_nil, List.append_nil] at hclosed
      exact ⟨fun _ => finish_fed h hclosed, fun hnot => absurd trivial hnot⟩
  | cons chunk chunks ih =>
      rw [List.flatten_cons, ← List.append_assoc] at hclosed
      obtain ⟨hwhole, result, hmade⟩ := closed_prefix hclosed
      have hpush := push_fed h hwhole hmade
      by_cases hfits : units (buffered seen chunk) ≤ maxFrame * 2
      · rw [if_pos hfits] at hpush
        obtain ⟨p', later, hresult, hfed⟩ := hpush
        obtain ⟨hgood, hbad⟩ := ih hfed hclosed
        have hrun : p.run parse (chunk :: chunks) =
            (do return later ++ (← p'.run parse chunks)) := by
          rw [SseParser.run, hresult]
          rfl
        rw [hrun]
        refine ⟨fun hall => ?_, fun hnot => ?_⟩
        · obtain ⟨rest, hrest, heq⟩ := hgood hall.2
          rw [hrest]
          exact ⟨later ++ rest, rfl, by rw [← List.append_assoc, heq]⟩
        · rw [hbad fun hlater => hnot ⟨hfits, hlater⟩]
          rfl
      · rw [if_neg hfits] at hpush
        refine ⟨fun hall => absurd hall.1 hfits, fun _ => ?_⟩
        rw [SseParser.run, hpush]
        rfl

/-! ### What the lines of a stream come to -/

theorem line_data (data : List (List Char)) {content : List Char} (h : content ≠ []) :
    line parse data content = .ok (data ++ (dataOf content).toList, []) := by
  have hsplit : content.takeWhile (· ≠ ':') ++ content.dropWhile (· ≠ ':') = content :=
    List.takeWhile_append_dropWhile
  have hhead : ∀ v : List Char, ("data:".toList ++ v).takeWhile (· ≠ ':') = "data".toList ∧
      (("data:".toList ++ v).dropWhile (· ≠ ':')).tail = v := by
    intro v
    exact ⟨by simp, by simp⟩
  rw [line, if_neg h, dataOf]
  by_cases hcomment : content.head? = some ':'
  · obtain ⟨c, cs, rfl⟩ := List.exists_cons_of_ne_nil h
    cases hcomment
    simp
  rw [if_neg hcomment]
  by_cases hdata : content = "data".toList
  · rw [hdata]
    simp
  by_cases hfield : "data:".toList <+: content
  · obtain ⟨v, rfl⟩ := hfield
    rw [if_pos (.inr (List.prefix_append _ _)), (hhead v).1, (hhead v).2, if_pos rfl]
    simp
  · rw [if_neg (not_or.mpr ⟨hdata, hfield⟩), if_neg]
    · simp
    · intro hname
      rw [hname] at hsplit
      cases hrest : content.dropWhile (· ≠ ':') with
      | nil =>
          rw [hrest, List.append_nil] at hsplit
          exact hdata hsplit.symm
      | cons c v =>
          have hc := List.head?_dropWhile_not (· ≠ ':') content
          rw [hrest, List.head?_cons] at hc
          have hcolon : c = ':' := by simpa using hc
          rw [hrest, hcolon] at hsplit
          exact hfield ⟨v, hsplit⟩

/-- The data of the events, where some is collected already. -/
def eventsBehind (data contents : List (List Char)) : List (List Char) :=
  (((contents.splitOnP List.isEmpty).map (·.filterMap dataOf)).modifyHead (data ++ ·)).filterMap
    joined

theorem eventsBehind_nil (contents : List (List Char)) :
    eventsBehind [] contents = eventsOf contents := by
  rw [eventsBehind, eventsOf]
  congr 1
  exact congrFun List.modifyHead_id _

theorem eventsBehind_blank (data contents : List (List Char)) :
    eventsBehind data ([] :: contents) = (joined data).toList ++ eventsOf contents := by
  rw [eventsBehind, List.splitOnP_cons_eq_if_modifyHead, if_pos List.isEmpty_nil, List.map_cons,
    List.filterMap_nil, List.modifyHead_cons, List.append_nil, List.filterMap_cons, eventsOf]
  cases joined data with
  | none => rfl
  | some text => rfl

theorem eventsBehind_content (data contents : List (List Char)) {content : List Char}
    (h : content ≠ []) :
    eventsBehind data (content :: contents) =
      eventsBehind (data ++ (dataOf content).toList) contents := by
  have hnot : ¬ content.isEmpty = true := by rwa [List.isEmpty_iff]
  rw [eventsBehind, eventsBehind, List.splitOnP_cons_eq_if_modifyHead, if_neg hnot]
  cases contents.splitOnP List.isEmpty with
  | nil => rfl
  | cons block blocks =>
      have hblock : (content :: block).filterMap dataOf =
          (dataOf content).toList ++ block.filterMap dataOf := by
        rw [List.filterMap_cons]
        cases dataOf content with
        | none => rfl
        | some value => rfl
      rw [List.modifyHead_cons, List.map_cons, List.map_cons, List.modifyHead_cons,
        List.modifyHead_cons, hblock, List.append_assoc]

theorem event_joined {data : List (List Char)} {text : List Char} {r : R}
    (htext : joined data = some text) (h : Valid parse text r) : event parse data = .ok r := by
  rw [joined] at htext
  split_ifs at htext with hdata
  cases htext
  rw [event, decodeJsonResponse, if_neg (not_lt.mpr h.1), h.2]
  rfl

/-- Lines whose events are valid come to the responses, but for an event that is still open. -/
theorem absorb_events {data contents : List (List Char)} {responses : List R}
    (h : List.Forall₂ (Valid parse) (eventsBehind data contents) responses) :
    ∃ data' total, absorb parse data contents = .ok (data', total) ∧
      if data' = [] then responses = total
      else ∃ r, event parse data' = .ok r ∧ responses = total ++ [r] := by
  induction contents generalizing data responses with
  | nil =>
      refine ⟨data, [], rfl, ?_⟩
      have hlast : eventsBehind data [] = (joined data).toList := by
        rw [eventsBehind, List.splitOnP_nil, List.map_singleton, List.filterMap_nil,
          List.modifyHead_cons, List.append_nil, List.filterMap_cons]
        cases joined data with
        | none => rfl
        | some text => rfl
      rw [hlast] at h
      by_cases hdata : data = []
      · rw [joined, if_pos hdata] at h
        rw [if_pos hdata]
        exact List.forall₂_nil_left_iff.mp h
      · have htext : joined data = some (['\n'].intercalate data) := if_neg hdata
        rw [htext] at h
        obtain ⟨r, rs, hvalid, hnil, rfl⟩ := List.forall₂_cons_left_iff.mp h
        rw [if_neg hdata]
        exact ⟨r, event_joined htext hvalid, by rw [List.forall₂_nil_left_iff.mp hnil]; rfl⟩
  | cons content contents ih =>
      by_cases hblank : content = []
      · rw [hblank, eventsBehind_blank] at h
        rw [hblank]
        by_cases hdata : data = []
        · have hline : line parse data [] = .ok ([], []) := by
            rw [line, if_pos rfl, if_neg (not_not.mpr hdata), hdata]
          rw [joined, if_pos hdata, ← eventsBehind_nil] at h
          obtain ⟨data', total, hmade, hlast⟩ := ih h
          refine ⟨data', total, ?_, hlast⟩
          rw [absorb_cons hline, hmade]
          rfl
        · have htext : joined data = some (['\n'].intercalate data) := if_neg hdata
          rw [htext, ← eventsBehind_nil] at h
          obtain ⟨r, rs, hvalid, hrest, rfl⟩ := List.forall₂_cons_left_iff.mp h
          have hline : line parse data [] = .ok ([], [r]) := by
            rw [line, if_pos rfl, if_pos hdata, event_joined htext hvalid]
            rfl
          obtain ⟨data', total, hmade, hlast⟩ := ih hrest
          refine ⟨data', r :: total, ?_, ?_⟩
          · rw [absorb_cons hline, hmade]
            rfl
          · split_ifs at hlast ⊢
            · rw [hlast]
            · obtain ⟨r', hevent, rfl⟩ := hlast
              exact ⟨r', hevent, rfl⟩
      · rw [eventsBehind_content _ _ hblank] at h
        obtain ⟨data', total, hmade, hlast⟩ := ih h
        refine ⟨data', total, ?_, hlast⟩
        rw [absorb_cons (line_data data hblank), hmade]
        rfl

/-- The lines of a stream, read. -/
theorem drain_text (lines : List Line) :
    lineReader.drain (lines.flatMap Line.text) =
      ⟨lines.map fun l => l.content ++ if l.crlf then ['\r'] else [], [], none⟩ := by
  induction lines with
  | nil => exact Reader.drain_wait (lineReader_wait rfl)
  | cons l lines ih =>
      have htext : l.text = (l.content ++ if l.crlf then ['\r'] else []) ++ ['\n'] := by
        rw [Line.text]
        cases l.crlf <;> simp
      have hplain : '\n' ∉ l.content ++ if l.crlf then ['\r'] else [] := by
        rw [List.mem_append, not_or]
        refine ⟨l.plain.1, ?_⟩
        cases l.crlf <;> decide
      rw [List.flatMap_cons, htext, List.append_assoc, List.singleton_append,
        Reader.drain_item (lineReader_item (splitLine_line hplain _)), ih]
      rfl

theorem trimmed_line (l : Line) :
    trimmed (l.content ++ if l.crlf then ['\r'] else []) = l.content := by
  cases hcrlf : l.crlf with
  | true => simp [trimmed]
  | false =>
      have hlast : l.content.getLast? ≠ some '\r' := fun hlast =>
        l.plain.2 (List.mem_of_getLast? hlast)
      simp [trimmed, hlast]

theorem heard_bytes (s : EventStream) : heard s.bytes = s.text := by
  rw [heard, EventStream.bytes, Utf8.drain_encode]
  cases hmarked : s.marked with
  | true => simp [withoutMark]
  | false =>
      show withoutMark s.text = s.text
      have hfirst := s.unmarked hmarked
      rw [EventStream.text]
      cases hlines : s.lines with
      | nil => rfl
      | cons l lines =>
          rw [hlines] at hfirst
          obtain ⟨content, crlf, plain⟩ := l
          cases content with
          | nil => cases crlf <;> rfl
          | cons c cs =>
              show (if c = bom then _ else _) = _
              rw [if_neg fun hc => hfirst (congrArg some hc)]
              rfl

theorem closed_bytes {s : EventStream} {responses : List R} (h : Carries parse s responses) :
    Closed parse s.bytes responses := by
  have hlines := drain_text s.lines
  refine ⟨⟨_, Utf8.drain_encode _⟩, ?_, ?_⟩
  · rw [← rest_lineReader, heard_bytes, EventStream.text, hlines]
  · rw [absorbed, heard_bytes, EventStream.text, hlines]
    have hcontents : (s.lines.map fun l => l.content ++ if l.crlf then ['\r'] else []).map trimmed =
        s.lines.map Line.content := by
      rw [List.map_map]
      exact List.map_congr_left fun l _ => trimmed_line l
    rw [hcontents]
    rw [Carries, EventStream.events, ← eventsBehind_nil] at h
    exact absorb_events h

theorem run_carries {s : EventStream} {responses : List R} (h : Carries parse s responses)
    {chunks : List Bytes} (hcut : chunks.flatten = s.bytes) :
    (Fits [] chunks → SseParser.new.run parse chunks = .ok responses) ∧
      (¬ Fits [] chunks → SseParser.new.run parse chunks = .error .eventTooLong) := by
  have hclosed : Closed parse ([] ++ chunks.flatten) responses := by
    rw [List.nil_append, hcut]
    exact closed_bytes h
  obtain ⟨hgood, hbad⟩ := run_fed fed_new chunks hclosed
  refine ⟨fun hfits => ?_, hbad⟩
  obtain ⟨later, hrun, heq⟩ := hgood hfits
  rw [hrun, ← heq]
  rfl

/-- However a stream was cut, the parser hands out exactly its events if no push buffers more
than the bound on one event, and fails otherwise. -/
theorem carries_iff_fits (parse : Bytes → Except String R) {s : EventStream} {responses : List R}
    (h : Carries parse s responses) {chunks : List Bytes} (hcut : chunks.flatten = s.bytes) :
    SseParser.new.run parse chunks = .ok responses ↔ Fits [] chunks := by
  obtain ⟨hgood, hbad⟩ := run_carries h hcut
  refine ⟨fun hrun => ?_, hgood⟩
  by_contra hnot
  rw [hbad hnot] at hrun
  cases hrun

end

/-! ### Many small events -/

section Sample

open FrameDecoder

def pongLine : Line := ⟨"data: \x7b\"t\":\"pong\",\"id\":1\x7d".toList, false, by decide⟩

def blankLine : Line := ⟨[], false, by decide⟩

def pongLines (n : ℕ) : List Line := (List.replicate n [pongLine, blankLine]).flatten

theorem pongLines_succ (n : ℕ) : pongLines (n + 1) = pongLine :: blankLine :: pongLines n := by
  rw [pongLines, List.replicate_succ, List.flatten_cons]
  rfl

/-- That many times the same event. -/
def pongs (n : ℕ) : EventStream where
  marked := false
  lines := pongLines n
  unmarked _ := by
    cases n with
    | zero => exact nofun
    | succ n =>
        rw [pongLines_succ]
        show some 'd' ≠ some bom
        decide

theorem carries_pongs (n : ℕ) : Carries parsePong (pongs n) (List.replicate n pong) := by
  have htext : dataOf pongLine.content = some "\x7b\"t\":\"pong\",\"id\":1\x7d".toList := by
    decide
  have hbytes : Utf8.encode "\x7b\"t\":\"pong\",\"id\":1\x7d".toList = pong := by decide
  show List.Forall₂ _ (eventsOf ((pongLines n).map Line.content)) _
  induction n with
  | zero => exact .nil
  | succ n ih =>
      rw [pongLines_succ, List.replicate_succ, ← eventsBehind_nil]
      show List.Forall₂ _ (eventsBehind [] (pongLine.content :: [] :: _)) _
      rw [eventsBehind_content _ _ (by decide), eventsBehind_blank, htext]
      refine .cons ?_ ih
      show (Utf8.encode "\x7b\"t\":\"pong\",\"id\":1\x7d".toList).length ≤ maxFrame ∧ _ = _
      rw [hbytes]
      exact ⟨by decide, if_pos rfl⟩

theorem units_append (text text' : List Char) :
    units (text ++ text') = units text + units text' := by
  rw [units, List.map_append, List.sum_append]
  rfl

theorem units_pongs (n : ℕ) : units (pongs n).text = n * 27 := by
  have hblock : units (pongLine.text ++ blankLine.text) = 27 := by decide
  show units ((pongLines n).flatMap Line.text) = _
  induction n with
  | zero => rfl
  | succ n ih =>
      rw [pongLines_succ, List.flatMap_cons, List.flatMap_cons, ← List.append_assoc,
        units_append, hblock, ih]
      omega

/-- The first push buffers the text of its chunk. -/
theorem buffered_nil (s : EventStream) : buffered [] s.bytes = s.text := by
  have hheard : heard [] = [] := by
    rw [heard, show Utf8.chars.drain [] = _ from Utf8.drain_encode []]
    rfl
  rw [buffered, hheard, List.nil_append, heard_bytes]
  rfl

/-- One event, in one piece. -/
theorem pong_carried : SseParser.new.run parsePong [(pongs 1).bytes] = .ok [pong] := by
  refine (carries_iff_fits parsePong (carries_pongs 1) (List.append_nil _)).mpr ⟨?_, trivial⟩
  rw [buffered_nil, units_pongs]
  decide

/-- A chunk of many events, each far below the bound, is refused. -/
theorem pongs_refused :
    Carries parsePong (pongs 1300000) (List.replicate 1300000 pong) ∧
      ¬ ∀ chunks, chunks.flatten = (pongs 1300000).bytes →
        SseParser.new.run parsePong chunks = .ok (List.replicate 1300000 pong) := by
  refine ⟨carries_pongs 1300000, fun hall => ?_⟩
  have hlong : ¬ Fits [] [(pongs 1300000).bytes] := fun hfits => by
    have hunits := hfits.1
    rw [buffered_nil, units_pongs, maxFrame] at hunits
    omega
  have hrun := (run_carries (carries_pongs 1300000) (List.append_nil _)).2 hlong
  rw [hall _ (List.append_nil _)] at hrun
  cases hrun

end Sample

end Lug.Ts
