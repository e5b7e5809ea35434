import Lug.Lib.Faulty
import Lug.Lib.SortedMap
import Lug.Wal.Segment

/-!
`lug_wal::sys`: the system calls of the segment store. A call does what it is
for, fails without an effect, or never returns because the process was killed
first; a write may also stop short.
-/

namespace Lug.Wal

open Octets Faulty

/-- A log directory. Segment files stand in the order of the versions they are
named for. -/
@[ext] structure Dir where
  segments : List (ℕ × Bytes)
  sorted : SortedMap.Sorted segments
  header : Option Bytes
  headerTmp : Option Bytes

namespace Dir

def empty : Dir := ⟨[], SortedMap.sorted_nil, none, none⟩

def bytes (d : Dir) : Path → Option Bytes
  | .segment first => d.segments.lookup first
  | .header => d.header
  | .headerTmp => d.headerTmp
  | .dir => none

def put (path : Path) (content : Bytes) (d : Dir) : Dir :=
  match path with
  | .segment first =>
      { d with
        segments := SortedMap.insert first content d.segments
        sorted := SortedMap.sorted_insert d.sorted }
  | .header => { d with header := some content }
  | .headerTmp => { d with headerTmp := some content }
  | .dir => d

/-- A change to a file that is there. -/
def edit (path : Path) (f : Bytes → Bytes) (d : Dir) : Dir :=
  match d.bytes path with
  | some content => d.put path (f content)
  | none => d

/-- `open` with `create` and without `truncate`. -/
def touch (path : Path) (d : Dir) : Dir :=
  match d.bytes path with
  | some _ => d
  | none => d.put path []

def unlink (first : ℕ) (d : Dir) : Dir :=
  { d with
    segments := SortedMap.erase first d.segments
    sorted := SortedMap.sorted_erase d.sorted }

/-- `rename` of the header's temporary file over the header. -/
def publish (d : Dir) : Dir :=
  match d.headerTmp with
  | some content => { d with header := some content, headerTmp := none }
  | none => d

end Dir

/-- The calls, by what they are for. Over one operation of the store each is made
at most once. -/
inductive Site
  | makeDir | openDir | lockDir
  | listDir | readHeader
  | scan (first : ℕ)
  | cutOpen (first : ℕ) | cutLen (first : ℕ) | cutSync (first : ℕ)
  | openLast | reserveLast
  | closeLen | closeSync | create | reserve | stamp | stampSync | stampDirSync
  | grow | write | erase (chunk : ℕ) | eraseSync
  | tmpCreate | tmpWrite | tmpSync | rename | publishSync
  | unlink (first : ℕ) | reclaimSync
  | flush
  deriving DecidableEq

/-- What becomes of a call. -/
inductive Reply
  | ok
  | fail
  | die
  deriving DecidableEq

/-- What becomes of one `pwritev` or `write`. -/
inductive Written
  | count (n : ℕ)
  | interrupted
  | fail
  | die

/-- What the operating system does during one operation. A write gets through
whole once `written` has no more to say about it. `fallocate` tells whether the
file system reserves blocks, `locked` whether another store holds the directory. -/
structure Env where
  fallocate : Bool
  locked : Bool
  reply : Site → Reply
  written : Site → List Written

/-- Nothing fails. -/
structure Env.Calm (env : Env) : Prop where
  unlocked : env.locked = false
  reply : ∀ site, env.reply site = .ok
  written : ∀ site, env.written site = []

/-- Programs of system calls. What the system says of a failure is left out. -/
abbrev Sys (α : Type) : Type := Act Dir Unit α

def call (env : Env) (site : Site) (effect : Dir → Dir) : Sys Unit := fun d =>
  match env.reply site with
  | .ok => (.ok (), effect d)
  | .fail => (.error (), d)
  | .die => (.died, d)

/-- `IOV_MAX`. -/
def iovMax : ℕ := 1024

/-- `IoSlice::advance_slices`. -/
def advanceSlices : ℕ → List Bytes → List Bytes
  | _, [] => []
  | n, buf :: bufs =>
      if buf.length ≤ n then advanceSlices (n - buf.length) bufs else buf.drop n :: bufs

/-- The loop of `pwritev_all`. Every round uses up a result of the kernel or
writes a byte. -/
def pwritevLoop (path : Path) : ℕ → List Written → List Bytes → ℕ → Sys Unit
  | 0, _, _, _ => Act.throw ()
  | fuel + 1, results, bufs, offset =>
      if bufs.isEmpty then pure ()
      else
        let chunk := (bufs.take iovMax).flatten
        match results.headD (.count chunk.length) with
        | .fail => Act.throw ()
        | .die => Act.die
        | .interrupted => pwritevLoop path fuel results.tail bufs offset
        | .count n =>
            let written := min n chunk.length
            if written = 0 then Act.throw ()
            else do
              Act.modify (Dir.edit path (overwrite offset (chunk.take written)))
              pwritevLoop path fuel results.tail (advanceSlices written bufs) (offset + written)

def pwritevAll (env : Env) (site : Site) (path : Path) (bufs : List Bytes) (offset : ℕ) :
    Sys Unit :=
  pwritevLoop path ((env.written site).length + bufs.flatten.length + 1) (env.written site) bufs
    offset

/-- `preallocate`, which falls back on the length where blocks cannot be
reserved. -/
def preallocate (env : Env) (site : Site) (path : Path) (len : ℕ) : Sys Unit :=
  call env site (Dir.edit path (if env.fallocate then extend len else setLen len))

/-- `CHUNK` of `zero_range`. -/
def zeroChunk : ℕ := 64 * 1024

/-- The loop of `zero_range`, `chunk` rounds in. -/
def zeroLoop (env : Env) (path : Path) (offset len : ℕ) : ℕ → ℕ → Sys Unit
  | 0, _ => pure ()
  | fuel + 1, chunk =>
      let done := chunk * zeroChunk
      if len ≤ done then pure ()
      else do
        let span := min (len - done) zeroChunk
        pwritevAll env (.erase chunk) path [zeroes span] (offset + done)
        zeroLoop env path offset len fuel (chunk + 1)

def zeroRange (env : Env) (path : Path) (offset len : ℕ) : Sys Unit :=
  zeroLoop env path offset len (len + 1) 0

/-! ### What they leave -/

namespace Dir

variable {d : Dir} {path : Path}

theorem bytes_put (h : path ≠ .dir) (content : Bytes) : (d.put path content).bytes path =
    some content := by
  cases path with
  | dir => exact absurd rfl h
  | header => rfl
  | headerTmp => rfl
  | segment first => exact SortedMap.lookup_insert_self

theorem put_put (content content' : Bytes) :
    (d.put path content').put path content = d.put path content := by
  cases path with
  | dir => rfl
  | header => rfl
  | headerTmp => rfl
  | segment first => simp [put, SortedMap.insert_insert]

/-- Changes to one file are one change. -/
theorem edit_edit (f g : Bytes → Bytes) : (d.edit path f).edit path g = d.edit path (g ∘ f) := by
  by_cases hdir : path = .dir
  · subst hdir
    rfl
  · cases hbytes : d.bytes path with
    | none => simp [edit, hbytes]
    | some content => simp [edit, hbytes, bytes_put hdir, put_put]

theorem put_of_bytes {content : Bytes} (h : d.bytes path = some content) :
    d.put path content = d := by
  cases path with
  | dir => rfl
  | header => exact Dir.ext rfl h.symm rfl
  | headerTmp => exact Dir.ext rfl rfl h.symm
  | segment first => exact Dir.ext (SortedMap.insert_of_lookup d.sorted h) rfl rfl

theorem edit_of_bytes {content : Bytes} (f : Bytes → Bytes) (h : d.bytes path = some content) :
    d.edit path f = d.put path (f content) := by
  rw [edit, h]

section Segments

variable {first : ℕ} {content : Bytes} {pre post : List (ℕ × Bytes)}

theorem bytes_segment (h : d.segments = pre ++ (first, content) :: post) :
    d.bytes (.segment first) = some content := by
  have hsorted := d.sorted
  rw [h] at hsorted
  show d.segments.lookup first = some content
  rw [h]
  exact SortedMap.lookup_middle hsorted

theorem segments_edit (f : Bytes → Bytes) (h : d.segments = pre ++ (first, content) :: post) :
    (d.edit (.segment first) f).segments = pre ++ (first, f content) :: post := by
  have hsorted := d.sorted
  rw [h] at hsorted
  rw [edit_of_bytes f (bytes_segment h)]
  show SortedMap.insert first (f content) d.segments = _
  rw [h]
  exact SortedMap.insert_middle hsorted

theorem touch_segment (h : d.segments = pre ++ (first, content) :: post) :
    d.touch (.segment first) = d := by
  rw [touch, bytes_segment h]

/-- A new segment file comes after those named for earlier versions. -/
theorem segments_touch_new (h : ∀ f ∈ d.segments, f.1 < first) :
    (d.touch (.segment first)).segments = d.segments ++ [(first, [])] := by
  have hnone : d.bytes (.segment first) = none :=
    SortedMap.lookup_eq_none_iff.mpr fun f hf => (h f hf).ne
  rw [touch, hnone]
  exact SortedMap.insert_of_forall_lt h

theorem segments_unlink (h : d.segments = pre ++ (first, content) :: post) :
    (d.unlink first).segments = pre ++ post := by
  have hsorted := d.sorted
  rw [h] at hsorted
  show SortedMap.erase first d.segments = _
  rw [h]
  exact SortedMap.erase_middle hsorted

@[simp] theorem header_edit (f : Bytes → Bytes) : (d.edit (.segment first) f).header = d.header := by
  unfold edit
  split <;> rfl

@[simp] theorem headerTmp_edit (f : Bytes → Bytes) :
    (d.edit (.segment first) f).headerTmp = d.headerTmp := by
  unfold edit
  split <;> rfl

@[simp] theorem header_touch : (d.touch (.segment first)).header = d.header := by
  unfold touch
  split <;> rfl

@[simp] theorem headerTmp_touch : (d.touch (.segment first)).headerTmp = d.headerTmp := by
  unfold touch
  split <;> rfl

@[simp] theorem header_unlink : (d.unlink first).header = d.header := rfl

@[simp] theorem headerTmp_unlink : (d.unlink first).headerTmp = d.headerTmp := rfl

end Segments

/-- The directory after the segment files became others. -/
def Becomes (d : Dir) (files : List (ℕ × Bytes)) (d' : Dir) : Prop :=
  d'.segments = files ∧ d'.header = d.header ∧ d'.headerTmp = d.headerTmp

theorem Becomes.refl (d : Dir) : d.Becomes d.segments d := ⟨rfl, rfl, rfl⟩

theorem Becomes.trans {d' d'' : Dir} {files files' : List (ℕ × Bytes)} (h : d.Becomes files d')
    (h' : d'.Becomes files' d'') : d.Becomes files' d'' :=
  ⟨h'.1, h'.2.1.trans h.2.1, h'.2.2.trans h.2.2⟩

theorem becomes_edit {first : ℕ} {content : Bytes} {pre post : List (ℕ × Bytes)}
    (f : Bytes → Bytes) (h : d.segments = pre ++ (first, content) :: post) :
    d.Becomes (pre ++ (first, f content) :: post) (d.edit (.segment first) f) :=
  ⟨segments_edit f h, header_edit f, headerTmp_edit f⟩

/-- A change that changes nothing. -/
theorem edit_eq_self {f : Bytes → Bytes} (h : ∀ content, d.bytes path = some content →
    f content = content) : d.edit path f = d := by
  cases hbytes : d.bytes path with
  | none => rw [edit, hbytes]
  | some content => rw [edit_of_bytes f hbytes, h content hbytes, put_of_bytes hbytes]

end Dir

section Calls

variable {env : Env} {site : Site} {d : Dir} {Q : Exit Unit Unit → Dir → Prop}

theorem ends_call {effect : Dir → Dir} (ok : env.reply site = .ok → Q (.ok ()) (effect d))
    (fail : env.reply site = .fail → Q (.error ()) d) (die : env.reply site = .die → Q .died d) :
    Ends (call env site effect) Q d := by
  unfold Ends call
  cases h : env.reply site with
  | ok => exact ok h
  | fail => exact fail h
  | die => exact die h

end Calls

theorem flatten_advanceSlices (n : ℕ) (bufs : List Bytes) :
    (advanceSlices n bufs).flatten = bufs.flatten.drop n := by
  induction bufs generalizing n with
  | nil => simp [advanceSlices]
  | cons buf bufs ih =>
      rw [advanceSlices]
      split_ifs with h
      · rw [ih, List.flatten_cons, List.drop_append, List.drop_of_length_le h, List.nil_append]
      · have hzero : n - buf.length = 0 := by omega
        rw [List.flatten_cons, List.flatten_cons, List.drop_append, hzero, List.drop_zero]

theorem advanceSlices_nonempty {n : ℕ} {bufs : List Bytes} (h : ∀ b ∈ bufs, b ≠ []) :
    ∀ b ∈ advanceSlices n bufs, b ≠ [] := by
  induction bufs generalizing n with
  | nil => simp [advanceSlices]
  | cons buf bufs ih =>
      have hrest : ∀ b ∈ bufs, b ≠ [] := fun b hb => h b (List.mem_cons_of_mem _ hb)
      rw [advanceSlices]
      split_ifs with hle
      · exact ih hrest
      · rintro b (_ | ⟨_, hb⟩)
        · rw [Ne, List.drop_eq_nil_iff]
          omega
        · exact hrest b hb

/-- What is written to a file below its end leaves it longer still. -/
theorem Dir.le_length_edit {d : Dir} {path : Path} {offset : ℕ} (data : Bytes)
    (hoffset : ∀ content, d.bytes path = some content → offset ≤ content.length) :
    ∀ content, (d.edit path (overwrite offset data)).bytes path = some content →
      offset + data.length ≤ content.length := by
  intro content hcontent
  cases hbytes : d.bytes path with
  | none =>
      rw [Dir.edit, hbytes, hbytes] at hcontent
      cases hcontent
  | some old =>
      have hdir : path ≠ .dir := by
        rintro rfl
        cases hbytes
      rw [Dir.edit_of_bytes _ hbytes, Dir.bytes_put hdir, Option.some.injEq] at hcontent
      rw [← hcontent, length_overwrite]
      exact le_max_left _ _

/-- A write continued where it stopped. -/
theorem edit_overwrite_take (path : Path) (offset n n' : ℕ) {data : Bytes} (h : n ≤ data.length)
    (d : Dir) :
    (d.edit path (overwrite offset (data.take n))).edit path
        (overwrite (offset + n) ((data.drop n).take n')) =
      d.edit path (overwrite offset (data.take (n + n'))) := by
  have htaken : (data.take n).length = n := by
    rw [List.length_take]
    omega
  have htwo : overwrite (offset + n) ((data.drop n).take n') ∘ overwrite offset (data.take n) =
      overwrite offset (data.take (n + n')) := by
    funext content
    have h := overwrite_overwrite offset (data.take n) ((data.drop n).take n') content
    rw [htaken, ← List.take_add] at h
    exact h
  rw [Dir.edit_edit, htwo]

/-- The same, wherever the file ends. -/
theorem edit_putAt_take (path : Path) (offset n n' : ℕ) {data : Bytes} (h : n ≤ data.length)
    (d : Dir) :
    (d.edit path (putAt offset (data.take n))).edit path
        (putAt (offset + n) ((data.drop n).take n')) =
      d.edit path (putAt offset (data.take (n + n'))) := by
  have htaken : (data.take n).length = n := by
    rw [List.length_take]
    omega
  have htwo : putAt (offset + n) ((data.drop n).take n') ∘ putAt offset (data.take n) =
      putAt offset (data.take (n + n')) := by
    ext1 content
    have h := putAt_putAt offset (data.take n) ((data.drop n).take n') content
    rw [htaken, ← List.take_add] at h
    exact h
  rw [Dir.edit_edit, htwo]

theorem edit_putAt_nil (path : Path) (offset : ℕ) (d : Dir) :
    d.edit path (putAt offset []) = d :=
  Dir.edit_eq_self fun content _ => putAt_nil offset content

/-- The effect of `pwritev_all`: the head of its bytes stands at the offset, all
of them when it returns `Ok`, and it fails only with the kernel. -/
theorem ends_pwritevLoop {path : Path} {fuel : ℕ} {results : List Written} {bufs : List Bytes}
    {offset : ℕ} {d : Dir} {Q : Exit Unit Unit → Dir → Prop} (hbufs : ∀ b ∈ bufs, b ≠ [])
    (hfuel : results.length + bufs.flatten.length < fuel)
    (h : ∀ x n, n ≤ bufs.flatten.length → (x = .ok () → n = bufs.flatten.length) →
      (x ≠ .ok () → results ≠ []) →
        Q x (d.edit path (putAt offset (bufs.flatten.take n)))) :
    Ends (pwritevLoop path fuel results bufs offset) Q d := by
  induction fuel generalizing results bufs offset d with
  | zero => omega
  | succ fuel ih =>
      have hstopped : ∀ x : Exit Unit Unit, x ≠ .ok () → results ≠ [] → Q x d := by
        intro x hx hresults
        have hq := h x 0 (Nat.zero_le _) (fun hok => absurd hok hx) (fun _ => hresults)
        rwa [List.take_zero, edit_putAt_nil] at hq
      rw [pwritevLoop]
      by_cases hempty : bufs = []
      · subst hempty
        have hok := h (.ok ()) 0 (Nat.zero_le _) (fun _ => rfl) (fun hne => absurd rfl hne)
        rw [List.take_zero, edit_putAt_nil] at hok
        simpa using hok
      · have hne : bufs.isEmpty = false := by simpa using hempty
        have hhead : 0 < (bufs.take iovMax).flatten.length := by
          cases bufs with
          | nil => exact absurd rfl hempty
          | cons buf bufs =>
              have hbuf := List.length_pos_of_ne_nil (hbufs buf List.mem_cons_self)
              rw [iovMax, List.take_succ_cons, List.flatten_cons, List.length_append]
              omega
        have hsplit : bufs.flatten = (bufs.take iovMax).flatten ++ (bufs.drop iovMax).flatten := by
          rw [← List.flatten_append, List.take_append_drop]
        have hchunk : (bufs.take iovMax).flatten.length ≤ bufs.flatten.length := by
          rw [hsplit, List.length_append]
          omega
        -- a round that writes `n` bytes and leaves the results `later`
        have hround : ∀ n, 0 < n → n ≤ (bufs.take iovMax).flatten.length →
            Ends (pwritevLoop path fuel results.tail (advanceSlices n bufs) (offset + n)) Q
              (d.edit path (overwrite offset ((bufs.take iovMax).flatten.take n))) := by
          intro n hpos hn
          have htake : (bufs.take iovMax).flatten.take n = bufs.flatten.take n := by
            rw [hsplit, List.take_append_of_le_length hn]
          have hrest : (advanceSlices n bufs).flatten = bufs.flatten.drop n :=
            flatten_advanceSlices n bufs
          have hsome : bufs.flatten.take n ≠ [] := by
            rw [← List.length_pos_iff, List.length_take]
            omega
          have hput : overwrite offset (bufs.flatten.take n) = putAt offset (bufs.flatten.take n) :=
            funext fun content => (putAt_of_ne_nil hsome offset content).symm
          rw [htake, hput]
          refine ih (advanceSlices_nonempty hbufs) ?_ ?_
          · rw [hrest, List.length_drop, List.length_tail]
            omega
          · intro x n' hn' hok hfail
            rw [hrest, List.length_drop] at hn' hok
            rw [hrest, edit_putAt_take path offset n n' (by omega)]
            refine h x (n + n') (by omega) (fun hx => ?_) (fun hx hnil => ?_)
            · have hfull := hok hx
              omega
            · exact hfail hx (by rw [hnil]; rfl)
        simp only [hne, Bool.false_eq_true, if_false]
        cases hresult : results.headD (.count (bufs.take iovMax).flatten.length) with
        | fail =>
            refine hstopped (.error ()) nofun ?_
            rintro rfl
            cases hresult
        | die =>
            refine hstopped .died nofun ?_
            rintro rfl
            cases hresult
        | interrupted =>
            cases results with
            | nil => cases hresult
            | cons result results =>
                refine ih hbufs (by rw [List.length_cons] at hfuel; rw [List.tail_cons]; omega) ?_
                intro x n hn hok _
                exact h x n hn hok (fun _ => by simp)
        | count n =>
            dsimp only
            by_cases hzero : min n (bufs.take iovMax).flatten.length = 0
            · rw [if_pos hzero]
              refine hstopped (.error ()) nofun ?_
              rintro rfl
              simp only [List.headD_nil, Written.count.injEq] at hresult
              omega
            · rw [if_neg hzero, ends_bind]
              exact hround _ (by omega) (by omega)

/-- How many of `len` bytes in one buffer get written before the kernel fails. -/
def landed : List Written → ℕ → ℕ
  | [], len => len
  | .count n :: results, len =>
      if min n len = 0 then 0 else min n len + landed results (len - min n len)
  | .interrupted :: results, len => landed results len
  | .fail :: _, _ => 0
  | .die :: _, _ => 0

theorem landed_le (results : List Written) (len : ℕ) : landed results len ≤ len := by
  induction results generalizing len with
  | nil => exact le_rfl
  | cons result results ih =>
      cases result with
      | count n =>
          rw [landed]
          split_ifs with hzero
          · exact Nat.zero_le _
          · have hrest := ih (len - min n len)
            omega
      | interrupted => exact ih len
      | fail => exact Nat.zero_le _
      | die => exact Nat.zero_le _

/-- With one buffer it is known how much of it gets written. -/
theorem ends_pwritevLoop_single {path : Path} {fuel : ℕ} {results : List Written} {buf : Bytes}
    {offset : ℕ} {d : Dir} {Q : Exit Unit Unit → Dir → Prop} (hbuf : buf ≠ [])
    (hfuel : results.length + buf.length < fuel)
    (hoffset : ∀ content, d.bytes path = some content → offset ≤ content.length)
    (h : ∀ x, (x = .ok () ↔ landed results buf.length = buf.length) →
      (x ≠ .ok () → results ≠ []) →
        Q x (d.edit path (overwrite offset (buf.take (landed results buf.length))))) :
    Ends (pwritevLoop path fuel results [buf] offset) Q d := by
  have hpos := List.length_pos_of_ne_nil hbuf
  induction fuel generalizing results buf offset d with
  | zero => omega
  | succ fuel ih =>
      have hnothing : d.edit path (overwrite offset (buf.take 0)) = d :=
        Dir.edit_eq_self fun content hcontent => overwrite_nil (hoffset content hcontent)
      have hstopped : ∀ x : Exit Unit Unit, x ≠ .ok () → results ≠ [] →
          landed results buf.length = 0 → Q x d := by
        intro x hx hresults hlanded
        have hq := h x (by rw [hlanded]; exact ⟨fun hok => absurd hok hx, fun hz => by omega⟩)
          (fun _ => hresults)
        rwa [hlanded, hnothing] at hq
      have hchunk : (([buf].take iovMax).flatten : Bytes) = buf := by
        simp [iovMax]
      rw [pwritevLoop]
      simp only [List.isEmpty_cons, Bool.false_eq_true, if_false, hchunk]
      cases results with
      | nil =>
          have hwritten : min buf.length buf.length = buf.length := min_self _
          rw [List.headD_nil]
          dsimp only
          rw [hwritten, if_neg hpos.ne', ends_bind, ends_modify, after_ok, advanceSlices,
            if_pos le_rfl, advanceSlices]
          have hq := h (.ok ()) ⟨fun _ => rfl, fun _ => rfl⟩ (fun hne => absurd rfl hne)
          cases fuel with
          | zero =>
              rw [List.length_nil] at hfuel
              omega
          | succ fuel => exact hq
      | cons result results =>
          rw [List.headD_cons, List.tail_cons]
          rw [List.length_cons] at hfuel
          cases result with
          | fail => exact hstopped (.error ()) nofun (List.cons_ne_nil _ _) rfl
          | die => exact hstopped .died nofun (List.cons_ne_nil _ _) rfl
          | interrupted =>
              refine ih hbuf (by omega) hoffset (fun x hx _ => ?_) hpos
              exact h x hx (fun _ => List.cons_ne_nil _ _)
          | count n =>
              dsimp only
              by_cases hzero : min n buf.length = 0
              · rw [if_pos hzero]
                exact hstopped (.error ()) nofun (List.cons_ne_nil _ _) (if_pos hzero)
              · have hlanded : landed (.count n :: results) buf.length =
                    min n buf.length + landed results (buf.length - min n buf.length) := if_neg hzero
                rw [if_neg hzero, ends_bind, ends_modify, after_ok, advanceSlices]
                by_cases hall : buf.length ≤ min n buf.length
                · have hmin : min n buf.length = buf.length := by omega
                  have hfull : landed (.count n :: results) buf.length = buf.length := by
                    have hrest := landed_le results (buf.length - min n buf.length)
                    omega
                  rw [if_pos hall, advanceSlices, hmin]
                  have hq := h (.ok ()) ⟨fun _ => hfull, fun _ => rfl⟩ (fun hne => absurd rfl hne)
                  rw [hfull] at hq
                  cases fuel with
                  | zero => omega
                  | succ fuel => exact hq
                · rw [if_neg hall]
                  have hlonger := Dir.le_length_edit (buf.take (min n buf.length)) hoffset
                  rw [List.length_take, min_eq_left (min_le_right n buf.length)] at hlonger
                  refine ih ?_ ?_ hlonger (fun x hx _ => ?_) ?_
                  · rw [Ne, List.drop_eq_nil_iff]
                    exact hall
                  · rw [List.length_drop]
                    omega
                  · rw [List.length_drop, edit_overwrite_take path offset _ _ (min_le_right n buf.length),
                      ← hlanded]
                    refine h x ?_ (fun _ => List.cons_ne_nil _ _)
                    rw [hx, List.length_drop, hlanded]
                    omega
                  · rw [List.length_drop]
                    omega

theorem ends_pwritevAll_single {env : Env} {site : Site} {path : Path} {buf : Bytes} {offset : ℕ}
    {d : Dir} {Q : Exit Unit Unit → Dir → Prop} (hbuf : buf ≠ [])
    (hoffset : ∀ content, d.bytes path = some content → offset ≤ content.length)
    (h : ∀ x, (x = .ok () ↔ landed (env.written site) buf.length = buf.length) →
      (x ≠ .ok () → ¬env.Calm) →
        Q x (d.edit path (overwrite offset (buf.take (landed (env.written site) buf.length))))) :
    Ends (pwritevAll env site path [buf] offset) Q d :=
  ends_pwritevLoop_single hbuf (by rw [List.flatten_singleton]; exact Nat.lt_succ_self _) hoffset
    fun x hx hfail => h x hx fun hne hcalm => hfail hne (hcalm.written site)

/-- The effect of `pwritev_all` on any file, at any offset. -/
theorem ends_pwritevAll_at {env : Env} {site : Site} {path : Path} {bufs : List Bytes} {offset : ℕ}
    {d : Dir} {Q : Exit Unit Unit → Dir → Prop} (hbufs : ∀ b ∈ bufs, b ≠ [])
    (h : ∀ x n, n ≤ bufs.flatten.length → (x = .ok () → n = bufs.flatten.length) →
      (x ≠ .ok () → ¬env.Calm) →
        Q x (d.edit path (putAt offset (bufs.flatten.take n)))) :
    Ends (pwritevAll env site path bufs offset) Q d :=
  ends_pwritevLoop hbufs (Nat.lt_succ_self _) fun x n hn hok hfail =>
    h x n hn hok fun hx hcalm => hfail hx (hcalm.written site)

/-- Where the offset is in the file a write of nothing is one. -/
theorem edit_putAt {d : Dir} {path : Path} {offset : ℕ}
    (hoffset : ∀ content, d.bytes path = some content → offset ≤ content.length) (data : Bytes) :
    d.edit path (putAt offset data) = d.edit path (overwrite offset data) := by
  cases hbytes : d.bytes path with
  | none => rw [Dir.edit, Dir.edit, hbytes]
  | some content =>
      rw [Dir.edit_of_bytes _ hbytes, Dir.edit_of_bytes _ hbytes, putAt_of_le (hoffset _ hbytes)]

theorem ends_pwritevAll {env : Env} {site : Site} {path : Path} {bufs : List Bytes} {offset : ℕ}
    {d : Dir} {Q : Exit Unit Unit → Dir → Prop} (hbufs : ∀ b ∈ bufs, b ≠ [])
    (hoffset : ∀ content, d.bytes path = some content → offset ≤ content.length)
    (h : ∀ x n, n ≤ bufs.flatten.length → (x = .ok () → n = bufs.flatten.length) →
      (x ≠ .ok () → ¬env.Calm) →
        Q x (d.edit path (overwrite offset (bufs.flatten.take n)))) :
    Ends (pwritevAll env site path bufs offset) Q d := by
  refine ends_pwritevAll_at hbufs fun x n hn hok hfail => ?_
  rw [edit_putAt hoffset]
  exact h x n hn hok hfail

/-- The loop of `zero_range`, from where it got to. -/
theorem ends_zeroLoop {env : Env} {path : Path} {offset len fuel chunk : ℕ} {d : Dir}
    {Q : Exit Unit Unit → Dir → Prop} (hfuel : len < chunk * zeroChunk + fuel)
    (h : ∀ x n, n ≤ len → (x = .ok () → n = len) → (x ≠ .ok () → ¬env.Calm) →
        Q x (d.edit path (putAt offset (zeroes n)))) :
    Ends (zeroLoop env path offset len fuel chunk) Q
      (d.edit path (putAt offset (zeroes (min (chunk * zeroChunk) len)))) := by
  induction fuel generalizing chunk with
  | zero =>
      rw [min_eq_right (by omega)]
      exact h _ len le_rfl (fun _ => rfl) (fun hne => absurd rfl hne)
  | succ fuel ih =>
      rw [zeroLoop]
      by_cases hdone : len ≤ chunk * zeroChunk
      · rw [if_pos hdone, min_eq_right hdone]
        exact h _ len le_rfl (fun _ => rfl) (fun hne => absurd rfl hne)
      · have hchunk : (chunk + 1) * zeroChunk = chunk * zeroChunk + zeroChunk := Nat.succ_mul ..
        have hpos : 0 < zeroChunk := by decide
        rw [if_neg hdone, min_eq_left (not_le.mp hdone).le, ends_bind]
        refine ends_pwritevAll_at ?_ fun x n hn hok hfail => ?_
        · intro b hb hnil
          rw [List.mem_singleton] at hb
          have hlength : b.length = min (len - chunk * zeroChunk) zeroChunk := by
            rw [hb, length_zeroes]
          rw [hnil, List.length_nil] at hlength
          omega
        · rw [List.flatten_singleton, length_zeroes] at hn hok
          have hedit : (d.edit path (putAt offset (zeroes (chunk * zeroChunk)))).edit path
              (putAt (offset + chunk * zeroChunk)
                ((zeroes (min (len - chunk * zeroChunk) zeroChunk)).take n)) =
              d.edit path (putAt offset (zeroes (chunk * zeroChunk + n))) := by
            rw [take_zeroes hn, Dir.edit_edit]
            congr 1
            ext1 content
            have htwo := putAt_putAt offset (zeroes (chunk * zeroChunk)) (zeroes n) content
            rwa [length_zeroes, zeroes_append] at htwo
          rw [List.flatten_singleton, hedit]
          cases x with
          | ok =>
              have hspan := hok rfl
              have hnext := @ih (chunk + 1) (by omega)
              rwa [show min ((chunk + 1) * zeroChunk) len = chunk * zeroChunk + n by omega] at hnext
          | error e => exact h _ _ (by omega) nofun hfail
          | died => exact h _ _ (by omega) nofun hfail

/-- The effect of `zero_range` on any file, at any offset. -/
theorem ends_zeroRange_at {env : Env} {path : Path} {offset len : ℕ} {d : Dir}
    {Q : Exit Unit Unit → Dir → Prop}
    (h : ∀ x n, n ≤ len → (x = .ok () → n = len) → (x ≠ .ok () → ¬env.Calm) →
        Q x (d.edit path (putAt offset (zeroes n)))) :
    Ends (zeroRange env path offset len) Q d := by
  have hfuel : len < 0 * zeroChunk + (len + 1) := by omega
  have hloop := ends_zeroLoop hfuel h
  have hnothing : d.edit path (putAt offset (zeroes 0)) = d := edit_putAt_nil path offset d
  rwa [Nat.zero_mul, Nat.zero_min, hnothing] at hloop

/-- The effect of `zero_range`: the range is zeroed from its start, all of it when
the call returns `Ok`. -/
theorem ends_zeroRange {env : Env} {path : Path} {offset len : ℕ} {d : Dir}
    {Q : Exit Unit Unit → Dir → Prop}
    (hoffset : ∀ content, d.bytes path = some content → offset ≤ content.length)
    (h : ∀ x n, n ≤ len → (x = .ok () → n = len) → (x ≠ .ok () → ¬env.Calm) →
        Q x (d.edit path (overwrite offset (zeroes n)))) :
    Ends (zeroRange env path offset len) Q d := by
  refine ends_zeroRange_at fun x n hn hok hfail => ?_
  rw [edit_putAt hoffset]
  exact h x n hn hok hfail

end Lug.Wal
