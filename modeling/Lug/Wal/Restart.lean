import Lug.Cavlc.Reopen
import Lug.Core.Recall
import Lug.Wal.Disk

/-!
A log on the segment store, from process to process. Each of them opens the store and the
log on the directory that it finds, works on it, and may be killed in any call that it
makes of the system; another one then tries. What was appended is never lost or changed.
-/

namespace Lug.Wal

open Octets Faulty Runs Reducible Resumable

section

variable [Crc32] {D P V : Type} [Versioned V] [HeaderSerde V] [Serde P] [Reducible D P V]

/-! ### Processes -/

/-- A process opens its log on the directory `d`. With it, or with what stopped it, comes
the directory as it leaves it. -/
def launch (zero : D) (p : Launch) (d : Dir) :
    Except (LogError (Reducible.Err D) (Storage.Err (Disk V))) (Log D (Disk V)) × Dir :=
  match Disk.start V p d with
  | (.error e, d) => (.error (.storage e), d)
  | (.ok s, _) =>
      match Log.open zero s with
      | .ok l => (.ok l, l.storage.dir)
      | .error e => (.error e, (Storage.load s).2.dir)

/-- What processes leave of a directory that do not get their log open. -/
inductive Attempts (zero : D) (d : Dir) : Dir → Prop
  | none : Attempts zero d d
  | failed {d' p e} : Attempts zero d d' → (launch zero p d').1 = .error e →
      Attempts zero d (launch zero p d').2

/-- The logs there are: that of the first process that gets it open where nothing was, what
becomes of a log, and that of the next process. The version counter has room above each. -/
inductive Lives (zero : D) : Log D (Disk V) → Prop
  | first {d p l} : Attempts zero Dir.empty d → (launch zero p d).1 = .ok l →
      l.watermark < versionMax → Lives zero l
  | step {l} (op : Operation P) : Lives zero l → Lives zero (l.step op)
  | next {l d p l'} : Lives zero l → Attempts zero l.storage.dir d →
      (launch zero p d).1 = .ok l' → l'.watermark < versionMax → Lives zero l'

/-- The logs that come after `l`, in its process and in all that follow. -/
inductive Later (zero : D) (l : Log D (Disk V)) : Log D (Disk V) → Prop
  | refl : Later zero l l
  | step {l'} (op : Operation P) : Later zero l l' → Later zero l (l'.step op)
  | next {l' d p l''} : Later zero l l' → Attempts zero l'.storage.dir d →
      (launch zero p d).1 = .ok l'' → l''.watermark < versionMax → Later zero l l''

theorem Later.lives {zero : D} {l l' : Log D (Disk V)} (hl : Lives zero l)
    (h : Later zero l l') : Lives zero l' := by
  induction h with
  | refl => exact hl
  | step op _ ih => exact .step op ih
  | next _ hattempts hlaunch hlow ih => exact .next ih hattempts hlaunch hlow

/-! ### Opening the store -/

namespace Disk

variable {p : Launch} {d : Dir} {s : Disk V} {H : Ledger V}

theorem start_dir (p : Launch) (d : Dir) : (Disk.start V p d).2 = d := by
  have hopen : Ends (openWith V p.opening p.rotateBytes) _ _ :=
    ends_openWith V (m := ⟨⟨[], none, 0, 0, 0, false, none⟩, d⟩) p.rotateBytes
  obtain ⟨hdir, -⟩ := hopen
  unfold Disk.start
  split
  all_goals
    rename_i heq
    rw [heq] at hdir
    exact hdir

theorem start_ok (h : (Disk.start V p d).1 = .ok s) : s.standing = .opened ∧
    s.machine.dir = d ∧ segPrologue + recPrefix ≤ s.machine.store.rotateBytes := by
  have hopen : Ends (openWith V p.opening p.rotateBytes) _ _ :=
    ends_openWith V (m := ⟨⟨[], none, 0, 0, 0, false, none⟩, d⟩) p.rotateBytes
  obtain ⟨hdir, hstore⟩ := hopen
  unfold Disk.start at h
  split at h
  · rename_i heq
    cases h
    rw [heq] at hdir hstore
    obtain ⟨header, -, hstore⟩ := hstore rfl
    refine ⟨rfl, hdir, ?_⟩
    rw [hstore]
    exact le_max_right ..
  · cases h
  · cases h

/-- What the load of a store that was just opened does to the history. -/
def Found (H : Ledger V) (d : Dir) : Except Fault (Recovered V) → Disk V → Prop
  | .ok found, s => found.Resumes (extended H d) ∧ Rests (extended H d) s.dir ∧
      (journal (extended H d)).beyond s.dir = [] ∧
        ((extended H d).taken.length < versionMax → s.Holds (extended H d))
  | .error _, s => Rests H s.dir ∧ (journal H).beyond s.dir = (journal H).beyond d

theorem load_opened (hopened : s.standing = .opened) (h : Rests H s.machine.dir)
    (hroom : segPrologue + recPrefix ≤ s.machine.store.rotateBytes) :
    Found H s.machine.dir s.load.1 s.load.2 := by
  have hload : Ends (Wal.load V (s.env 0)) _ _ := h.ends_load hroom
  change Reloaded _ _ _ _ at hload
  have hissue : s.load = s.issue (Wal.load V) := by
    rw [load, hopened]
  rw [hissue, issue]
  generalize (Wal.load V (s.env 0) s.machine).1 = x at hload ⊢
  generalize (Wal.load V (s.env 0) s.machine).2 = m' at hload ⊢
  cases x with
  | ok found => exact hload
  | died => exact hload
  | error e =>
      have hdir : (s.returned (.error e : Exit Err (Recovered V)) m').2.dir = m'.dir := by
        simp only [returned, dir, hopened]
      obtain ⟨hrests, hbeyond⟩ := hload
      rw [← hdir] at hrests hbeyond
      exact ⟨hrests, hbeyond⟩

end Disk

/-! ### Opening the log -/

theorem launch_ok {zero : D} {p : Launch} {d : Dir} {l : Log D (Disk V)}
    (h : (launch zero p d).1 = .ok l) : ∃ s, (Disk.start V p d).1 = .ok s ∧
      Log.open zero s = .ok l ∧ ∃ found, (Storage.load s).1 = .ok found := by
  unfold launch at h
  split at h
  · cases h
  · rename_i s d' hstart
    split at h
    · rename_i l' hopen
      cases h
      refine ⟨s, by rw [hstart], hopen, ?_⟩
      cases hload : (Storage.load s).1 with
      | ok found => exact ⟨found, rfl⟩
      | error e =>
          rw [Log.open, ← Prod.mk.eta (p := Storage.load s), hload] at hopen
          cases hopen
    · cases h

theorem launch_error {zero : D} {p : Launch} {d : Dir} {e} (h : (launch zero p d).1 = .error e) :
    (launch zero p d).2 = d ∨ ∃ s, (Disk.start V p d).1 = .ok s ∧
      (launch zero p d).2 = (Storage.load s).2.dir := by
  unfold launch at h ⊢
  have hdir := Disk.start_dir (V := V) p d
  split at h
  · rename_i hstart
    rw [hstart] at hdir
    exact Or.inl hdir
  · rename_i s d' hstart
    rw [hstart]
    cases hopen : Log.open zero s with
    | ok l =>
        rw [hopen] at h
        cases h
    | error e => exact Or.inr ⟨s, rfl, rfl⟩

/-- A directory goes on standing for its history, whoever tries to open it. What they find
behind it they take up; where nothing is behind it, nothing is after them. -/
theorem Attempts.rests {zero : D} {d d' : Dir} {H : Ledger V} (h : Attempts zero d d')
    (hrests : Rests H d) : ∃ rs, Rests (H.push rs) d' ∧
      ((journal H).beyond d = [] → rs = [] ∧ (journal H).beyond d' = []) := by
  induction h with
  | none => exact ⟨[], by rwa [Ledger.push_nil], fun hnil => ⟨rfl, hnil⟩⟩
  | @failed d' p e _ hfailed ih =>
      obtain ⟨rs, hrests, hquiet⟩ := ih
      rcases launch_error hfailed with hsame | ⟨s, hstart, hleft⟩
      · rw [hsame]
        exact ⟨rs, hrests, hquiet⟩
      · rw [hleft]
        obtain ⟨hopened, hdir, hroom⟩ := Disk.start_ok hstart
        have hload := Disk.load_opened hopened (by rwa [hdir]) hroom
        rw [hdir] at hload
        have hfound : Disk.Found (H.push rs) d' (Storage.load s).1 (Storage.load s).2 := hload
        cases hloaded : (Storage.load s).1 with
        | error e =>
            rw [hloaded] at hfound
            obtain ⟨hrests', hbeyond⟩ := hfound
            refine ⟨rs, hrests', fun hnil => ?_⟩
            obtain ⟨rfl, hnil'⟩ := hquiet hnil
            rw [Ledger.push_nil] at hbeyond
            exact ⟨rfl, hbeyond.trans hnil'⟩
        | ok found =>
            rw [hloaded] at hfound
            obtain ⟨-, hrests', hbeyond, -⟩ := hfound
            rw [extended, Ledger.push_push] at hrests' hbeyond
            refine ⟨_, hrests', fun hnil => ?_⟩
            obtain ⟨rfl, hnil'⟩ := hquiet hnil
            rw [Ledger.push_nil, hnil', List.append_nil] at hbeyond ⊢
            rw [Ledger.push_nil] at hbeyond
            exact ⟨rfl, hbeyond⟩

/-! ### From process to process -/

variable [LawfulHeaderSerde V] [ReducibleContract D] [Resumable D]

open Log

/-- What a process shows that gets its log open. -/
structure Reopened (zero d : D) (H : Ledger V) (l : Log D (Disk V)) (rs : List Record) : Prop where
  leads : Leads (Disk V) d rs l.data
  run : Consecutive Record.version (version d + 1) rs
  watermark : l.watermark = version d + rs.length
  recalled : l.watermark < versionMax → Recalled zero l (H.push rs)

/-- It shows what was there, and with it what was found behind. -/
theorem Rests.launched {zero d : D} {H : Ledger V} {dir dir' : Dir} {p : Launch}
    {l : Log D (Disk V)} (hrests : Rests H dir) (hrecalls : Recalls (Disk V) zero H d)
    (hversion : version d = H.taken.length) (hattempts : Attempts zero dir dir')
    (hlaunch : (launch zero p dir').1 = .ok l) :
    ∃ rs, Reopened zero d H l rs ∧ ((journal H).beyond dir = [] → rs = []) := by
  obtain ⟨rs, hrests', hquiet⟩ := hattempts.rests hrests
  obtain ⟨s, hstart, hopen, found, hload⟩ := launch_ok hlaunch
  obtain ⟨hopened, hdir, hroom⟩ := Disk.start_ok hstart
  have hfound : Disk.Found _ _ (Storage.load s).1 (Storage.load s).2 :=
    Disk.load_opened hopened (H := H.push rs) (by rwa [hdir]) hroom
  rw [hdir, hload] at hfound
  obtain ⟨hresumes, hleft, -, hholds⟩ := hfound
  rw [extended, Ledger.push_push] at hresumes hleft hholds
  have hrun := (consecutive_append.mp hleft.numbered).2
  rw [← hversion, Nat.add_comm] at hrun
  obtain ⟨hleads, hwatermark, hrecalled⟩ := hrecalls.opens hversion hrun hload hresumes hopen
  refine ⟨_, ⟨hleads, hrun, hwatermark, fun hlow => hrecalled (hholds ?_)⟩, fun hnil => ?_⟩
  · rwa [Ledger.push_taken, List.length_append, ← hversion, ← hwatermark]
  · obtain ⟨rfl, hnil'⟩ := hquiet hnil
    rw [Ledger.push_nil, hnil', List.append_nil]

/-- What stands for the history of a log is there for the next process. -/
theorem recalled_next {zero : D} {H : Ledger V} {d : Dir} {p : Launch} {l l' : Log D (Disk V)}
    (h : Recalled zero l H) (hattempts : Attempts zero l.storage.dir d)
    (hlaunch : (launch zero p d).1 = .ok l') :
    ∃ rs, Reopened zero l.data H l' rs ∧ ((journal H).beyond l.storage.dir = [] → rs = []) :=
  Disk.Holds.rests h.holds |>.launched h.recalls (h.version.trans h.length.symm) hattempts hlaunch

theorem Reopened.onwards {zero : D} {H : Ledger V} {l l' : Log D (Disk V)} {rs : List Record}
    (h : Reopened zero l.data H l' rs) (hrecalled : Recalled zero l H)
    (hlow : l'.watermark < versionMax) : Onwards zero l H l' := by
  have hrun := h.run
  have hwatermark := h.watermark
  rw [hrecalled.version] at hrun hwatermark
  exact ⟨_, h.recalled hlow, List.prefix_append .., rs, hrun, hwatermark, h.leads⟩

omit [Serde P] [Reducible D P V] [LawfulHeaderSerde V] [ReducibleContract D] [Resumable D] in
theorem rests_empty : Rests (V := V) ⟨[], none⟩ Dir.empty where
  left := ⟨_, left_empty⟩
  heads g hg := by
    cases hg
    rfl
  covers v hv := by cases hv

/-- Every log that there is can be recalled. -/
theorem Lives.recalled (hd : Decodes D) {zero : D} (hzero : version zero = 0)
    {l : Log D (Disk V)} (h : Lives zero l) : ∃ H, Recalled zero l H := by
  induction h with
  | first hattempts hlaunch hlow =>
      obtain ⟨rs, hreopened, -⟩ := rests_empty.launched (.start zero) hzero hattempts hlaunch
      exact ⟨_, hreopened.recalled hlow⟩
  | step op _ ih =>
      obtain ⟨H, hrecalled⟩ := ih
      obtain ⟨H', hrecalled', -⟩ := hrecalled.step hd op
      exact ⟨H', hrecalled'⟩
  | next _ hattempts hlaunch hlow ih =>
      obtain ⟨H, hrecalled⟩ := ih
      obtain ⟨rs, hreopened, -⟩ := recalled_next hrecalled hattempts hlaunch
      exact ⟨_, hreopened.recalled hlow⟩

/-- What comes later goes on, log and history. -/
theorem Later.onwards (hd : Decodes D) {zero : D} {l l' : Log D (Disk V)} {H : Ledger V}
    (hrecalled : Recalled zero l H) (h : Later zero l l') : Onwards zero l H l' := by
  induction h with
  | refl => exact ⟨H, hrecalled, List.prefix_rfl, .of_alike rfl (alike_refl l.data)⟩
  | step op _ ih =>
      obtain ⟨H₁, hrecalled₁, hprefix₁, hgrown₁⟩ := ih
      obtain ⟨H₂, hrecalled₂, hprefix₂, hgrown₂⟩ := hrecalled₁.step hd op
      exact ⟨H₂, hrecalled₂, hprefix₁.trans hprefix₂, hgrown₁.trans hgrown₂⟩
  | next _ hattempts hlaunch hlow ih =>
      obtain ⟨H₁, hrecalled₁, hprefix₁, hgrown₁⟩ := ih
      obtain ⟨rs, hreopened, -⟩ := recalled_next hrecalled₁ hattempts hlaunch
      obtain ⟨H₂, hrecalled₂, hprefix₂, hgrown₂⟩ := hreopened.onwards hrecalled₁ hlow
      exact ⟨H₂, hrecalled₂, hprefix₁.trans hprefix₂, hgrown₁.trans hgrown₂⟩

/-- No log loses what an earlier one showed, however many processes lie between them. -/
theorem Later.grown (hd : Decodes D) {zero : D} (hzero : version zero = 0)
    {l l' : Log D (Disk V)} (hl : Lives zero l) (h : Later zero l l') : Grown l l' := by
  obtain ⟨H, hrecalled⟩ := hl.recalled hd hzero
  obtain ⟨-, -, -, hgrown⟩ := h.onwards hd hrecalled
  exact hgrown

namespace Disk

variable {s : Disk V} {H : Ledger V}

end Disk

end

/-! ### A counter on the store -/

section Sample

open Log

attribute [local instance] ieee

/-- The header of a `Tick`. -/
def tickText (version tick : ℕ) : Bytes :=
  versionKey ++ (decimal version ++ (viewKey ++ (versionKey ++ (decimal tick ++ [125, 125]))))

def readTickText (text : Bytes) : ℕ × ℕ :=
  let rest := text.drop versionKey.length
  (number (rest.takeWhile isDigit), number ((((rest.dropWhile isDigit).drop viewKey.length).drop
    versionKey.length).takeWhile isDigit))

theorem readTickText_tickText (version tick : ℕ) :
    readTickText (tickText version tick) = (version, tick) := by
  have hcomma : viewKey ++ (versionKey ++ (decimal tick ++ [125, 125])) =
      44 :: (viewKey.tail ++ (versionKey ++ (decimal tick ++ [125, 125]))) := rfl
  rw [readTickText, tickText, List.drop_left, hcomma, takeWhile_decimal version (by decide),
    dropWhile_decimal version (by decide), ← hcomma, List.drop_left, List.drop_left,
    takeWhile_decimal tick (by decide), number_decimal, number_decimal]

instance : HeaderSerde Tick where
  toVec h := .ok (tickText h.version h.view.version)
  fromSlice text :=
    let read := readTickText text
    if tickText read.1 read.2 = text then .ok ⟨read.1, ⟨read.2⟩⟩ else .error "not a header"

/-- Two braces close a header. -/
theorem count_tickText (version tick : ℕ) : (tickText version tick).count 125 = 2 := by
  have hopen : ∀ k, (decimal k).count 125 = 0 := fun k =>
    List.count_eq_zero.mpr fun hmem => absurd (isDigit_decimal k 125 hmem) (by decide)
  rw [tickText, List.count_append, List.count_append, List.count_append, List.count_append,
    List.count_append, hopen, hopen]
  rfl

instance : LawfulHeaderSerde Tick where
  fromSlice_toVec := by
    rintro ⟨version, ⟨tick⟩⟩ json hjson
    cases hjson
    show (if _ then _ else _) = _
    rw [readTickText_tickText, if_pos rfl]
  fromSlice_take := by
    rintro ⟨version, ⟨tick⟩⟩ json n hjson hn
    cases hjson
    refine ⟨"not a header", if_neg fun hsame => ?_⟩
    -- a part of a header misses the brace that it ends with
    have htwo := count_tickText version tick
    have hsplit : tickText version tick = (versionKey ++ (decimal version ++ (viewKey ++
        (versionKey ++ (decimal tick ++ [125]))))) ++ [125] := by
      simp [tickText]
    have hn' : n < (tickText version tick).length := hn
    rw [hsplit, List.length_append, List.length_singleton] at hn'
    have hpart : ((tickText version tick).take n).count 125 = 2 := by
      show ((tickText version tick).take n).count 125 = 2
      rw [← hsame]
      exact count_tickText _ _
    rw [hsplit, List.count_append] at htwo
    rw [hsplit, List.take_append_of_le_length (by omega)] at hpart
    have hle := (List.take_sublist n (versionKey ++ (decimal version ++ (viewKey ++
      (versionKey ++ (decimal tick ++ [125])))))).count_le (125 : UInt8)
    have hone : ([125] : Bytes).count 125 = 1 := rfl
    omega

/-- A patch of one byte. -/
structure Ping where
  byte : UInt8

instance : Serde Ping where
  toVec p := .ok [p.byte]
  fromSlice
    | [b] => .ok ⟨b⟩
    | _ => .error "not one byte"
  fromValue _ := .error "not a value"

theorem Ping.decodes : Decodes (Counting Ping) where
  encodes p := ⟨[p.byte], rfl⟩
  decodes {d p b v} hb happly := by
    cases hb
    exact ⟨p, rfl, alike_apply (alike_refl d) p, alike_apply_state (alike_refl d) p⟩

/-- A process that is killed behind the first record of a batch. -/
def kills : Env := { calm with
  written := fun site => if site = .write then [.count 17, .die] else [] }

theorem kills_mends : kills.Mends where
  erase chunk w hw := by cases hw
  eraseSync := by decide

/-- Its second append is the last thing that the first process does. -/
def doomed : Launch where
  rotateBytes := 64
  opening := calm
  env n := if n = 2 then kills else calm
  mends n := by
    split_ifs
    · exact kills_mends
    · exact calm_calm.mends

def revived : Launch := ⟨64, calm, fun _ => calm, fun _ => calm_calm.mends⟩

theorem ok_of_toOption {ε α : Type} {o : Except ε α} {a : α} (h : o.toOption = some a) :
    o = .ok a := by
  cases o with
  | error e => cases h
  | ok b =>
      cases h
      rfl

theorem ok_of_get {ε α : Type} {o : Except ε α} (h : o.toOption.isSome) :
    o = .ok (o.toOption.get h) := ok_of_toOption (Option.some_get h).symm

/-- The log of the first process, as it opens it. -/
def firstLog : Log (Counting Ping) (Disk Tick) :=
  (launch ⟨0⟩ doomed Dir.empty).1.toOption.get (by decide +kernel)

/-- What the first process does with it, as long as it is there. -/
def oneLog : Log (Counting Ping) (Disk Tick) := firstLog.step (.append [⟨1⟩] .written)

def lastLog : Log (Counting Ping) (Disk Tick) := oneLog.step (.append [⟨2⟩, ⟨3⟩] .written)

/-- The log of the next process, where it was killed. -/
def nextLog : Log (Counting Ping) (Disk Tick) :=
  (launch ⟨0⟩ revived lastLog.storage.dir).1.toOption.get (by decide +kernel)

theorem lives_firstLog : Lives ⟨0⟩ firstLog :=
  .first .none (ok_of_get _) (by decide +kernel)

/-- The first process was killed over its second batch. The next one finds one record more
than it acknowledged. -/
theorem firstLog_grown : Grown firstLog nextLog ∧ lastLog.watermark = 1 ∧
    nextLog.watermark = 2 := by
  have hlater : Later ⟨0⟩ firstLog nextLog :=
    .next (.step _ (.step _ .refl)) .none (ok_of_get _) (by decide +kernel)
  exact ⟨Later.grown Ping.decodes rfl lives_firstLog hlater, by decide +kernel, by decide +kernel⟩

end Sample

end Lug.Wal
