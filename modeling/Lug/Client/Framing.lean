import Lug.Client.Body

/-!
What comes out of a body does not depend on how it was framed: in chunks, by its length,
or by the end of the connection. Where it came in chunks, the lines that announce them
must be UTF-8.
-/

namespace Lug.Client.Decoding

/-- The line that announces a chunk of a size: a numeral, perhaps some blanks, perhaps an
extension, which is any bytes behind a semicolon. -/
structure Announcement (size : ℕ) where
  digits : List Char
  reads : Radix.hexNumber digits = some size
  blanks : List Char
  blank : ∀ c ∈ blanks, c = ' ' ∨ c = '\t'
  extension : Bytes
  marked : extension = [] ∨ extension.head? = some 59
  whole : 10 ∉ extension

/-- A chunk is not empty, and its size is a `usize`. -/
structure Chunk where
  data : Bytes
  filled : data ≠ []
  fits : data.length < 2 ^ 64
  announcement : Announcement data.length

namespace Announcement

variable {size : ℕ} (a : Announcement size)

/-- The line without its line feed. -/
def text : Bytes := Utf8.encode (a.digits ++ a.blanks) ++ (a.extension ++ [13])

def line : Bytes := a.text ++ [10]

theorem not_whitespace_digits : ∀ c ∈ a.digits, Utf8.isWhitespace c = false := by
  intro c hc
  have hdigit := Radix.toNat_of_hexDigit (Radix.isSome_of_hexNumber a.reads c hc)
  simp [Utf8.isWhitespace]
  omega

theorem whitespace_blanks : ∀ c ∈ a.blanks, Utf8.isWhitespace c = true := by
  intro c hc
  obtain rfl | rfl := a.blank c hc <;> rfl

theorem front {c : Char} (hc : c ∈ a.digits ++ a.blanks) :
    c.toNat < 0x80 ∧ c.toNat ≠ 10 ∧ c ≠ ';' := by
  obtain hdigit | hblank := List.mem_append.mp hc
  · have hvalue := Radix.toNat_of_hexDigit (Radix.isSome_of_hexNumber a.reads c hdigit)
    refine ⟨by omega, by omega, ?_⟩
    rintro rfl
    revert hvalue
    decide
  · obtain rfl | rfl := a.blank c hblank <;> decide

/-- There is one line feed, at the end of the line. -/
theorem not_mem_text : 10 ∉ a.text := by
  intro hmem
  obtain hfront | hback := List.mem_append.mp hmem
  · rw [Utf8.encode_ascii fun c hc => (a.front hc).1] at hfront
    obtain ⟨c, hc, hten⟩ := List.mem_map.mp hfront
    obtain ⟨hascii, hnot, -⟩ := a.front hc
    have hnat := congrArg UInt8.toNat hten
    rw [Utf8.toNat_toUInt8 (by omega)] at hnat
    exact hnot hnat
  · obtain hext | hcr := List.mem_append.mp hback
    · exact a.whole hext
    · cases List.mem_singleton.mp hcr

/-- What is behind the numeral and the blanks is white space, or starts with a semicolon. -/
theorem back {cs : List Char} (h : Utf8.text (a.extension ++ [13, 10]) = some cs) :
    (∀ c ∈ cs, Utf8.isWhitespace c = true ∧ c ≠ ';') ∨ cs.head? = some ';' := by
  cases hext : a.extension with
  | nil =>
      left
      rw [hext] at h
      cases (Utf8.text_encode ['\r', '\n']).symm.trans h
      exact List.forall_mem_cons.mpr ⟨by decide, List.forall_mem_singleton.mpr (by decide)⟩
  | cons b rest =>
      right
      have hhead := a.marked
      rw [hext] at hhead
      obtain hnil | hsome := hhead
      · cases hnil
      · cases hsome
        rw [hext] at h
        have happend := Utf8.text_encode_append [';'] (rest ++ [13, 10])
        obtain ⟨cs', -, hcs⟩ := Option.map_eq_some_iff.mp (happend.symm.trans h)
        rw [← hcs]
        rfl

/-- The size is read from the line, whatever extension it has. -/
theorem chunkSize_line {cs : List Char} (h : Utf8.text a.line = some cs) (hfits : size < 2 ^ 64) :
    chunkSize cs = some size := by
  have hline : a.line = Utf8.encode (a.digits ++ a.blanks) ++ (a.extension ++ [13, 10]) := by
    simp [line, text]
  rw [hline, Utf8.text_encode_append] at h
  obtain ⟨tail, htail, hcs⟩ := Option.map_eq_some_iff.mp h
  have hdigits := Radix.ne_nil_of_hexNumber a.reads
  have hword : Utf8.trim ((Utf8.trim cs).takeWhile (· ≠ ';')) = a.digits := by
    have hnot : ∀ c ∈ a.digits ++ a.blanks, decide (c ≠ ';') = true := fun c hc =>
      decide_eq_true (a.front hc).2.2
    obtain hwhite | hsemicolon := a.back htail
    · have htrim : Utf8.trim cs = a.digits := by
        rw [← hcs, List.append_assoc]
        refine Utf8.trim_word a.not_whitespace_digits hdigits fun c hc => ?_
        obtain hblank | hend := List.mem_append.mp hc
        · exact a.whitespace_blanks c hblank
        · exact (hwhite c hend).1
      have htake : a.digits.takeWhile (· ≠ ';') = a.digits :=
        List.takeWhile_eq_self_iff.mpr fun c hc => hnot c (List.mem_append_left _ hc)
      have hself := Utf8.trim_word a.not_whitespace_digits hdigits (List.forall_mem_nil _)
      rw [List.append_nil] at hself
      rw [htrim, htake, hself]
    · obtain ⟨tail, rfl⟩ := List.head?_eq_some_iff.mp hsemicolon
      have htrim : Utf8.trim cs = a.digits ++ a.blanks ++ ';' :: Utf8.trimEnd tail := by
        rw [← hcs, List.append_assoc, Utf8.trim_append a.not_whitespace_digits hdigits,
          ← List.append_assoc, Utf8.trimEnd_append rfl]
      have htake : (a.digits ++ a.blanks ++ ';' :: Utf8.trimEnd tail).takeWhile (· ≠ ';') =
          a.digits ++ a.blanks := by
        rw [List.takeWhile_append_of_pos hnot, List.takeWhile_cons_of_neg (by decide),
          List.append_nil]
      rw [htrim, htake]
      exact Utf8.trim_word a.not_whitespace_digits hdigits a.whitespace_blanks
  rw [chunkSize, hword]
  exact Radix.fromStrRadix_of_hexNumber a.reads hfits

end Announcement

/-- The bytes of a chunk on the connection. -/
def Chunk.sent (c : Chunk) : Bytes := c.announcement.line ++ (c.data ++ [13, 10])

/-- How a body is framed, and the bytes that may follow it on the connection: in chunks,
whatever length is declared with them; by its length; by the end of the connection. -/
inductive Framing
  | chunked (declared : Option ℕ) (chunks : List Chunk) (last : Announcement 0) (rest : Bytes)
  | length (content rest : Bytes)
  | closed (content : Bytes)

namespace Framing

def body : Framing → Bytes
  | .chunked _ chunks _ _ => chunks.flatMap Chunk.data
  | .length content _ => content
  | .closed content => content

def sent : Framing → Bytes
  | .chunked _ chunks last rest => chunks.flatMap Chunk.sent ++ (last.line ++ rest)
  | .length content rest => content ++ rest
  | .closed content => content

def isChunked : Framing → Bool
  | .chunked _ _ _ _ => true
  | .length _ _ | .closed _ => false

/-- The length the head declares. -/
def declared : Framing → Option ℕ
  | .chunked declared _ _ _ => declared
  | .length content _ => some content.length
  | .closed _ => none

/-- The lines that announce chunks. -/
def lines : Framing → List Bytes
  | .chunked _ chunks last _ => chunks.map (·.announcement.line) ++ [last.line]
  | .length _ _ | .closed _ => []

/-- All of them are UTF-8. -/
def Legible (f : Framing) : Prop := ∀ line ∈ f.lines, (Utf8.text line).isSome = true

/-- The body as it is read, with its bytes arriving in any way. -/
def start (f : Framing) (arrivals : ℕ → ℕ) : Body :=
  .new f.sent arrivals f.isChunked f.declared

end Framing

/-! ### What a body has still to give -/

namespace Body

/-- A body whose reader stands in front of a framing. -/
structure Serves (b : Body) (f : Framing) : Prop where
  done : b.done = false
  unread : b.unread = f.sent
  chunked : b.chunked = f.isChunked
  remaining : b.remaining = f.declared

/-- A body that has still to append `more` to its buffer: it is done, or its reader stands
in front of what is left of a framing. -/
inductive Feeds : Body → Bytes → Prop
  | done {b : Body} (h : b.done = true) : Feeds b []
  | framed {b : Body} {f : Framing} (serves : b.Serves f) (legible : f.Legible) : Feeds b f.body

theorem Feeds.congr {b b' : Body} {more : Bytes} (h : b.Feeds more) (hdone : b'.done = b.done)
    (hunread : b'.unread = b.unread) (hchunked : b'.chunked = b.chunked)
    (hremaining : b'.remaining = b.remaining) : b'.Feeds more := by
  cases h with
  | done h => exact .done (hdone.trans h)
  | framed hserves hlegible =>
      exact .framed ⟨hdone.trans hserves.done, hunread.trans hserves.unread,
        hchunked.trans hserves.chunked, hremaining.trans hserves.remaining⟩ hlegible

theorem readLine_line {b : Body} {text more : Bytes} (htext : 10 ∉ text)
    (h : b.unread = text ++ 10 :: more) :
    b.readLine = match Utf8.text (text ++ [10]) with
      | none => (.error .invalidData, { b with unread := more })
      | some header => (.ok header, { b with unread := more }) := by
  have hnot : ∀ x ∈ text, decide (x ≠ 10) = true := fun x hx =>
    decide_eq_true fun heq => htext (heq ▸ hx)
  have htake : b.unread.takeWhile (· ≠ 10) = text := by
    rw [h, List.takeWhile_append_of_pos hnot, List.takeWhile_cons_of_neg (by decide),
      List.append_nil]
  have hdrop : b.unread.dropWhile (· ≠ 10) = 10 :: more := by
    rw [h, List.dropWhile_append_of_pos hnot, List.dropWhile_cons_of_neg (by decide)]
  rw [readLine, htake, hdrop]
  rfl

theorem readExact_append {b : Body} {data more : Bytes} (h : b.unread = data ++ more) :
    b.readExact data.length = (.ok (), { b with unread := more, buf := b.buf ++ data }) := by
  have hlength : ¬b.unread.length < data.length := by
    rw [h, List.length_append]
    omega
  rw [readExact, if_neg hlength, h, List.take_left, List.drop_left]

section

variable {b : Body} {size : ℕ} {a : Announcement size} {more : Bytes}

/-- A line that is no UTF-8 is not read, whatever it announces. -/
theorem fill_illegible (hdone : b.done = false) (hchunked : b.chunked = true)
    (hunread : b.unread = a.line ++ more) (h : Utf8.text a.line = none) :
    b.fill = (.error .invalidData, { b with unread := more }) := by
  have hsplit : b.unread = a.text ++ 10 :: more := by
    rw [hunread, Announcement.line, List.append_assoc]
    rfl
  have hread := readLine_line a.not_mem_text hsplit
  rw [show a.text ++ [10] = a.line from rfl, h] at hread
  have hsome : b.unread ≠ [] := by
    rw [hsplit]
    simp
  rw [fill, if_neg (by simp [hdone]), if_pos hchunked, if_neg hsome, hread]

/-- What a `fill` does behind a line that was read. -/
theorem fill_line (hdone : b.done = false) (hchunked : b.chunked = true)
    (hunread : b.unread = a.line ++ more) (h : (Utf8.text a.line).isSome = true)
    (hfits : size < 2 ^ 64) :
    b.fill = match size with
      | 0 => (.ok false, { b with unread := more, done := true })
      | size =>
          match ({ b with unread := more } : Body).readExact size with
          | (.error e, b) => (.error e, b)
          | (.ok (), b) => b.skipCrlf := by
  obtain ⟨header, hheader⟩ := Option.isSome_iff_exists.mp h
  have hsplit : b.unread = a.text ++ 10 :: more := by
    rw [hunread, Announcement.line, List.append_assoc]
    rfl
  have hread := readLine_line a.not_mem_text hsplit
  rw [show a.text ++ [10] = a.line from rfl, hheader] at hread
  have hsome : b.unread ≠ [] := by
    rw [hsplit]
    simp
  rw [fill, if_neg (by simp [hdone]), if_pos hchunked, if_neg hsome, hread]
  simp only [a.chunkSize_line hheader hfits]
  cases size <;> rfl

end

/-- A chunk is appended, and the reader stands behind it. -/
theorem fill_chunk {b : Body} {c : Chunk} {more : Bytes} (hdone : b.done = false)
    (hchunked : b.chunked = true) (hunread : b.unread = c.sent ++ more)
    (h : (Utf8.text c.announcement.line).isSome = true) :
    b.fill = (.ok true, { b with unread := more, buf := b.buf ++ c.data }) := by
  have hline : b.unread = c.announcement.line ++ (c.data ++ (13 :: 10 :: more)) := by
    rw [hunread, Chunk.sent, List.append_assoc, List.append_assoc]
    rfl
  have hfill := fill_line hdone hchunked hline h c.fits
  have hexact := readExact_append
    (show ({ b with unread := c.data ++ (13 :: 10 :: more) } : Body).unread = _ from rfl)
  have hpos : c.data.length ≠ 0 := fun hzero => c.filled (List.length_eq_zero_iff.mp hzero)
  rw [hfill]
  split
  · contradiction
  · rw [hexact]
    rfl

/-- The last chunk ends the body. -/
theorem fill_last {b : Body} {a : Announcement 0} {more : Bytes} (hdone : b.done = false)
    (hchunked : b.chunked = true) (hunread : b.unread = a.line ++ more)
    (h : (Utf8.text a.line).isSome = true) :
    b.fill = (.ok false, { b with unread := more, done := true }) :=
  fill_line hdone hchunked hunread h (by decide)

section

variable {b : Body} (hdone : b.done = false) (hchunked : b.chunked = false)

include hdone hchunked

theorem fill_zero (hremaining : b.remaining = some 0) :
    b.fill = (.ok false, { b with done := true }) := by
  rw [fill, if_neg (by simp [hdone]), if_neg (by simp [hchunked])]
  simp only [hremaining]

/-- A body of a known length is appended whole. -/
theorem fill_length {content rest : Bytes} (hremaining : b.remaining = some content.length)
    (hunread : b.unread = content ++ rest) (hsome : content ≠ []) : b.fill =
      (.ok true, { b with unread := rest, buf := b.buf ++ content, remaining := some 0 }) := by
  have hexact := readExact_append hunread
  have hpos : content.length ≠ 0 := fun hzero => hsome (List.length_eq_zero_iff.mp hzero)
  rw [fill, if_neg (by simp [hdone]), if_neg (by simp [hchunked])]
  split
  · rename_i heq
    exact absurd (Option.some.inj (hremaining.symm.trans heq)) hpos
  · rename_i left _ heq
    cases hremaining.symm.trans heq
    rw [hexact]
  · rename_i heq
    cases hremaining.symm.trans heq

/-- What arrived is appended. -/
theorem fill_closed (hremaining : b.remaining = none) (hsome : b.unread ≠ []) :
    b.read.1 ≠ [] ∧ b.fill = (.ok true, { b.read.2 with buf := b.buf ++ b.read.1 }) := by
  have hread : b.read.1 ≠ [] := by
    intro hnil
    have hlength := congrArg List.length hnil
    have hpos := List.length_pos_iff.mpr hsome
    rw [read, List.length_take, List.length_nil] at hlength
    omega
  refine ⟨hread, ?_⟩
  rw [fill, if_neg (by simp [hdone]), if_neg (by simp [hchunked])]
  simp only [hremaining]
  rfl

theorem fill_eof (hremaining : b.remaining = none) (hnil : b.unread = []) :
    b.fill = (.ok false, { b.read.2 with done := true }) := by
  have hread : b.read = ([], b.read.2) := by
    rw [read, hnil, List.take_nil]
  rw [fill, if_neg (by simp [hdone]), if_neg (by simp [hchunked])]
  simp only [hremaining]
  rw [hread]

end

/-- What a `fill` does to a body that has `more` to append: it appends a piece of it, or
there was nothing. -/
inductive Filled (b : Body) (more : Bytes) : Prop
  | last {b' : Body} (fill : b.fill = (.ok false, b')) (nothing : more = [])
      (buf : b'.buf = b.buf) (feeds : b'.Feeds [])
  | more {b' : Body} {piece rest : Bytes} (fill : b.fill = (.ok true, b'))
      (split : more = piece ++ rest) (buf : b'.buf = b.buf ++ piece) (feeds : b'.Feeds rest)

theorem Feeds.filled {b : Body} {more : Bytes} (h : b.Feeds more) : b.Filled more := by
  cases h with
  | done hdone => exact .last (by rw [fill, if_pos hdone]) rfl rfl (.done hdone)
  | @framed f hserves hlegible =>
      obtain ⟨hdone, hunread, hchunked, hremaining⟩ := hserves
      have hopen : ¬b.done = true := by simp [hdone]
      cases f with
      | chunked declared chunks last rest =>
          cases chunks with
          | nil =>
              have hlast := hlegible last.line (by simp [Framing.lines])
              have hfill := fill_last hdone hchunked hunread hlast
              exact .last hfill rfl rfl (.done rfl)
          | cons c chunks =>
              have hsent : b.unread =
                  c.sent ++ (Framing.chunked declared chunks last rest).sent := by
                rw [hunread]
                simp [Framing.sent]
              have hfirst := hlegible c.announcement.line (by simp [Framing.lines])
              have hrest : (Framing.chunked declared chunks last rest).Legible :=
                fun line hline => hlegible line (List.mem_cons_of_mem _ hline)
              have hfill := fill_chunk hdone hchunked hsent hfirst
              exact .more hfill List.flatMap_cons rfl
                (.framed (f := .chunked declared chunks last rest)
                  ⟨hdone, rfl, hchunked, hremaining⟩ hrest)
      | length content rest =>
          cases content with
          | nil => exact .last (fill_zero hdone hchunked hremaining) rfl rfl (.done rfl)
          | cons x content =>
              have hfill := fill_length hdone hchunked hremaining hunread (List.cons_ne_nil _ _)
              exact .more hfill (List.append_nil _).symm rfl
                (.framed (f := .length [] rest) ⟨hdone, rfl, hchunked, rfl⟩ (fun _ hx => absurd hx List.not_mem_nil))
      | closed content =>
          cases content with
          | nil => exact .last (fill_eof hdone hchunked hremaining hunread) rfl rfl (.done rfl)
          | cons x content =>
              have hsome : b.unread ≠ [] := by
                rw [hunread]
                exact List.cons_ne_nil _ _
              obtain ⟨-, hfill⟩ := fill_closed hdone hchunked hremaining hsome
              have hsplit : x :: content = b.read.1 ++ b.read.2.unread := by
                rw [read, List.take_append_drop]
                exact hunread.symm
              exact .more hfill hsplit rfl (.framed (f := .closed b.read.2.unread)
                ⟨hdone, rfl, hchunked, hremaining⟩ (fun _ hx => absurd hx List.not_mem_nil))

/-- Reading it whole appends all of it. -/
theorem Feeds.readAll {b : Body} {more : Bytes} (h : b.Feeds more) :
    b.readAll.1 = .ok (b.buf ++ more) := by
  induction hn : b.unread.length using Nat.strongRecOn generalizing b more with
  | _ n ih =>
      cases h.filled with
      | last hfill hnothing hbuf _ =>
          rw [readAll_end hfill, hnothing, List.append_nil]
          exact congrArg Except.ok hbuf
      | @more b' piece rest hfill hsplit hbuf hfeeds =>
          rw [readAll_more hfill, ih _ (hn ▸ shorter_fill hfill) hfeeds rfl, hbuf, hsplit,
            List.append_assoc]

/-- A line feed that is still to come ends the next line. -/
theorem Feeds.nextLine_line {b : Body} {more line rest : Bytes} (h : b.Feeds more)
    (hline : 10 ∉ line) (hsplit : b.buf ++ more = line ++ 10 :: rest) :
    b.nextLine.1 = .ok (some (lineText (line ++ [10]))) ∧
      ∃ more', b.nextLine.2.Feeds more' ∧ b.nextLine.2.buf ++ more' = rest := by
  induction hn : b.unread.length using Nat.strongRecOn generalizing b more with
  | _ n ih =>
      by_cases hbuf : 10 ∈ b.buf
      · obtain ⟨back, hfront, -⟩ | ⟨back, hfront, hback⟩ := List.append_eq_append_iff.mp hsplit
        · rw [hfront] at hline
          exact absurd (List.mem_append_left _ hbuf) hline
        · cases back with
          | nil =>
              rw [hfront, List.append_nil] at hbuf
              exact absurd hbuf hline
          | cons x back =>
              obtain ⟨rfl, hrest⟩ := List.cons.inj hback
              rw [Body.nextLine_line hline hfront]
              exact ⟨rfl, more, h.congr rfl rfl rfl rfl, hrest.symm⟩
      · cases h.filled with
        | last hfill hnothing _ _ =>
            rw [hnothing, List.append_nil] at hsplit
            rw [hsplit] at hbuf
            exact absurd (List.mem_append_right _ List.mem_cons_self) hbuf
        | @more b' piece rest' hfill hpiece hbuf' hfeeds =>
            rw [nextLine_more hbuf hfill]
            refine ih _ (hn ▸ shorter_fill hfill) hfeeds ?_ rfl
            rw [hbuf', List.append_assoc, ← hpiece, hsplit]

/-- Without one there is no line. -/
theorem Feeds.nextLine_none {b : Body} {more : Bytes} (h : b.Feeds more)
    (hnone : 10 ∉ b.buf ++ more) :
    b.nextLine.1 = .ok none ∧ b.nextLine.2.Feeds [] ∧ b.nextLine.2.buf = b.buf ++ more := by
  induction hn : b.unread.length using Nat.strongRecOn generalizing b more with
  | _ n ih =>
      have hbuf : 10 ∉ b.buf := fun hmem => hnone (List.mem_append_left _ hmem)
      cases h.filled with
      | last hfill hnothing hbuf' hfeeds =>
          rw [nextLine_end hbuf hfill, hnothing, List.append_nil]
          exact ⟨rfl, hfeeds, hbuf'⟩
      | @more b' piece rest hfill hpiece hbuf' hfeeds =>
          have hsame : b'.buf ++ rest = b.buf ++ more := by
            rw [hbuf', List.append_assoc, ← hpiece]
          rw [nextLine_more hbuf hfill, ← hsame]
          exact ih _ (hn ▸ shorter_fill hfill) hfeeds (hsame ▸ hnone) rfl

end Body

/-! ### The lines of a body -/

/-- The lines of a body that a line feed ends, each with its own. -/
def terminated (body : Bytes) : List Bytes := (body.splitOn 10).dropLast.map (· ++ [10])

theorem terminated_line {line : Bytes} (h : 10 ∉ line) (rest : Bytes) :
    terminated (line ++ 10 :: rest) = (line ++ [10]) :: terminated rest := by
  rw [terminated, List.splitOn_append_cons_self_of_not_mem h,
    List.dropLast_cons_of_ne_nil (List.splitOn_ne_nil _ _), List.map_cons]
  rfl

theorem terminated_none {bs : Bytes} (h : 10 ∉ bs) : terminated bs = [] := by
  rw [terminated, List.splitOn_eq_singleton h]
  rfl

namespace Body

theorem Feeds.nthLine {b : Body} {more : Bytes} (h : b.Feeds more) (k : ℕ) :
    b.nthLine k = .ok ((terminated (b.buf ++ more))[k]?.map lineText) := by
  induction k generalizing b more with
  | zero =>
      show b.nextLine.1 = _
      by_cases hmem : 10 ∈ b.buf ++ more
      · obtain ⟨line, rest, hsplit, hline⟩ := List.eq_append_cons_of_mem hmem
        rw [(h.nextLine_line hline hsplit).1, hsplit, terminated_line hline]
        rfl
      · rw [(h.nextLine_none hmem).1, terminated_none hmem]
        rfl
  | succ k ih =>
      show b.nextLine.2.nthLine k = _
      by_cases hmem : 10 ∈ b.buf ++ more
      · obtain ⟨line, rest, hsplit, hline⟩ := List.eq_append_cons_of_mem hmem
        obtain ⟨-, more', hfeeds, hrest⟩ := h.nextLine_line hline hsplit
        rw [ih hfeeds, hrest, hsplit, terminated_line hline, List.getElem?_cons_succ]
      · obtain ⟨-, hfeeds, hbuf⟩ := h.nextLine_none hmem
        rw [ih hfeeds, List.append_nil, hbuf, terminated_none hmem, List.getElem?_nil,
          List.getElem?_nil]

/-- A line that is no UTF-8 ends the reading. -/
theorem readAll_illegible {b : Body} {declared : Option ℕ} {chunks : List Chunk}
    {last : Announcement 0} {rest : Bytes} (hdone : b.done = false) (hchunked : b.chunked = true)
    (hunread : b.unread = (Framing.chunked declared chunks last rest).sent)
    (hnot : ¬(Framing.chunked declared chunks last rest).Legible) :
    b.readAll.1 = .error .invalidData := by
  induction chunks generalizing b with
  | nil =>
      have hnone : Utf8.text last.line = none := by
        by_contra hsome
        refine hnot fun line hline => ?_
        cases List.mem_singleton.mp hline
        exact Option.isSome_iff_ne_none.mpr hsome
      rw [readAll_error (fill_illegible hdone hchunked hunread hnone)]
  | cons c chunks ih =>
      have hsent : b.unread = c.sent ++ (Framing.chunked declared chunks last rest).sent := by
        rw [hunread]
        simp [Framing.sent]
      cases hline : Utf8.text c.announcement.line with
      | none =>
          rw [Chunk.sent, List.append_assoc] at hsent
          rw [readAll_error (fill_illegible hdone hchunked hsent hline)]
      | some cs =>
          have hsome := Option.isSome_of_eq_some hline
          rw [readAll_more (fill_chunk hdone hchunked hsent hsome)]
          refine ih hdone hchunked rfl fun hlegible => hnot fun line hmem => ?_
          obtain rfl | hrest := List.mem_cons.mp hmem
          · exact hsome
          · exact hlegible line hrest

end Body

theorem Framing.serves_start (f : Framing) (arrivals : ℕ → ℕ) :
    (f.start arrivals).Serves f := ⟨rfl, rfl, rfl, rfl⟩

/-- The body and its lines are read as they are, however they were framed and however the
bytes arrived, if and only if the lines that announce chunks are UTF-8. -/
theorem decoded_iff (f : Framing) (arrivals : ℕ → ℕ) :
    ((f.start arrivals).readAll.1 = .ok f.body ∧ ∀ k, (f.start arrivals).nthLine k =
      .ok ((terminated f.body)[k]?.map Body.lineText)) ↔ f.Legible := by
  have hserves := f.serves_start arrivals
  constructor
  · intro hboth
    by_contra hnot
    cases f with
    | chunked declared chunks last rest =>
        have herror := Body.readAll_illegible hserves.done hserves.chunked hserves.unread hnot
        cases herror.symm.trans hboth.1
    | length content rest => exact hnot nofun
    | closed content => exact hnot nofun
  · intro hlegible
    have hfeeds := Body.Feeds.framed hserves hlegible
    exact ⟨hfeeds.readAll, hfeeds.nthLine⟩

/-- `5;a="..."`, where the quoted byte is no UTF-8. -/
def obsText : Announcement 5 where
  digits := ['5']
  reads := by decide
  blanks := []
  blank := nofun
  extension := [59, 97, 61, 34, 255, 34]
  marked := .inr rfl
  whole := by decide

def lastChunk : Announcement 0 where
  digits := ['0']
  reads := by decide
  blanks := []
  blank := nofun
  extension := []
  marked := .inl rfl
  whole := nofun

/-- `hello` in one chunk with that extension. -/
def quoted : Framing :=
  .chunked none [⟨[104, 101, 108, 108, 111], nofun, by decide, obsText⟩] lastChunk [13, 10]

/-- The extension would be thrown away, and fails the body. -/
theorem quoted_not_decoded : ¬ ∀ (f : Framing) (arrivals : ℕ → ℕ),
    (f.start arrivals).readAll.1 = .ok f.body ∧ ∀ k, (f.start arrivals).nthLine k =
      .ok ((terminated f.body)[k]?.map Body.lineText) := by
  intro h
  have hfail : Utf8.text [255, 34, 13, 10] = none := by
    have hread : Utf8.chars.read [255, 34, 13, 10] = .fail () := rfl
    rw [Utf8.text, Reader.drain_fail hread]
    rfl
  have hnone : Utf8.text obsText.line = none := by
    have hsplit := Utf8.text_encode_append ['5', ';', 'a', '=', '"'] [255, 34, 13, 10]
    rw [hfail] at hsplit
    exact hsplit
  have hfill := Body.fill_illegible (b := quoted.start fun _ => 0) rfl rfl
    (show _ = obsText.line ++ _ by rfl) hnone
  have hok := (h quoted fun _ => 0).1
  rw [Body.readAll_error hfill] at hok
  cases hok

end Lug.Client.Decoding
