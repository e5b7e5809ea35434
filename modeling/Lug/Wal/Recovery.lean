import Lug.Lib.Consecutive
import Lug.Wal.Store

/-!
What a recovery makes of a directory when nothing fails, as a function of the
files, and that `recover` and `load` follow it.
-/

namespace Lug.Wal

open Octets Faulty Runs

abbrev File : Type := ℕ × Bytes

/-- The file starts as a segment does. -/
def HasMagic (f : File) : Prop :=
  (f.2.take segPrologue).length = segPrologue ∧ (f.2.take segPrologue).take 8 = segMagic

instance (f : File) : Decidable (HasMagic f) := inferInstanceAs (Decidable (_ ∧ _))

theorem HasMagic.le_length {f : File} (h : HasMagic f) : segPrologue ≤ f.2.length := by
  have hlength := h.1
  rw [List.length_take] at hlength
  omega

theorem visitAll_total {β : Type} (visit : β → Record → Except Err β) (b : β)
    (records : List Record) :
    visitAll (fun b r => (visit b r).map (·, false)) b records =
      (records.foldlM visit b).map (·, false) := by
  induction records generalizing b with
  | nil => rfl
  | cons r records ih =>
      rw [visitAll, List.foldlM_cons]
      cases h : visit b r with
      | error e => rfl
      | ok b' => exact ih b'

/-- What visiting consecutive records does, and that nothing else passes. -/
theorem foldlM_visitRecord (headerVersion : ℕ) (collect : Bool) (first : ℕ)
    (acc acc' : Option ℕ × List Record) (records : List Record) :
    records.foldlM (visitRecord headerVersion collect first) acc = .ok acc' ↔
      Consecutive Record.version (acc.1.getD first) records ∧
        acc' = (if records = [] then acc.1 else some (acc.1.getD first + records.length),
          acc.2 ++ records.filter fun r => collect && decide (headerVersion < r.version)) := by
  induction records generalizing acc with
  | nil =>
      rw [List.foldlM_nil, if_pos rfl, List.filter_nil, List.append_nil]
      simp [Pure.pure, Except.pure, eq_comm]
  | cons r records ih =>
      have hvisit : visitRecord headerVersion collect first acc r =
          if r.version = acc.1.getD first then
            .ok (some (r.version + 1), if collect && decide (headerVersion < r.version)
              then acc.2 ++ [r] else acc.2)
          else .error (acc.1.elim (.misnamed (.segment first) first r.version)
            fun e => .gap (.segment first) e r.version) := by
        obtain ⟨expect, tail⟩ := acc
        cases expect with
        | none => simp [visitRecord, ite_not]
        | some e => simp [visitRecord, ite_not]
      rw [List.foldlM_cons, hvisit, consecutive_cons]
      by_cases hr : r.version = acc.1.getD first
      · have hrest := ih (some (r.version + 1), if collect && decide (headerVersion < r.version)
          then acc.2 ++ [r] else acc.2)
        have hnext : (if records = [] then some (r.version + 1)
            else some (r.version + 1 + records.length)) =
            some (acc.1.getD first + (records.length + 1)) := by
          cases records with
          | nil => rw [if_pos rfl, hr, List.length_nil]
          | cons => rw [if_neg (by simp), hr, Option.some.injEq]; omega
        rw [Option.getD_some] at hrest
        rw [if_pos hr, if_neg (List.cons_ne_nil _ _), List.length_cons, ← hnext, ← hr,
          List.filter_cons]
        refine hrest.trans ?_
        rw [and_iff_right rfl]
        split_ifs <;> simp
      · rw [if_neg hr]
        constructor
        · intro h
          cases h
        · intro h
          exact absurd h.1.1 hr

variable [Crc32]

def contents (f : File) : Found := found (f.2.drop segPrologue)

/-- Where the last intact record of a file ends. -/
def stopOf (f : File) : ℕ := segPrologue + (encodeRecords (contents f).records).length

/-- A file without what stands above its last intact record. -/
def cut (f : File) : File := (f.1, f.2.take (stopOf f))

/-- The version that is due after a file. -/
def due (expect : Option ℕ) (f : File) : Option ℕ :=
  if (contents f).records = [] then expect
  else some (expect.getD f.1 + (contents f).records.length)

theorem scan_of_not_magic {β : Type} {f : File} (h : ¬HasMagic f) (path : Path)
    (visit : β → Record → Except Err (β × Bool)) (b : β) :
    scan path f.2 visit b = .error (.notASegment path) := by
  rw [HasMagic, not_and_or] at h
  rw [scan]
  exact if_pos h

theorem scan_of_magic {β : Type} {f : File} (h : HasMagic f) (path : Path)
    (visit : β → Record → Except Err (β × Bool)) (b : β) :
    scan path f.2 visit b =
      walk visit f.2.length f.2.length b segPrologue (f.2.drop segPrologue) := by
  have hpass : ¬((f.2.take segPrologue).length ≠ segPrologue ∨
      (f.2.take segPrologue).take 8 ≠ segMagic) := by
    rw [not_or, not_not, not_not]
    exact h
  rw [scan]
  exact if_neg hpass

/-- A scan that is never broken off. -/
theorem scan_total {β : Type} {f : File} (h : HasMagic f) (path : Path)
    (visit : β → Record → Except Err β) (b : β) :
    scan path f.2 (fun b r => (visit b r).map (·, false)) b =
      ((contents f).records.foldlM visit b).map
        fun b' => (b', ⟨stopOf f, f.2.length, (contents f).torn⟩) := by
  have hlen : f.2.length = segPrologue + (f.2.drop segPrologue).length := by
    have hle := h.le_length
    rw [List.length_drop]
    omega
  have hfuel : (f.2.drop segPrologue).length ≤ f.2.length := by
    rw [List.length_drop]
    omega
  have hwalk := walk_visitAll (fun b r => (visit b r).map (·, false)) b hlen hfuel
  rw [visitAll_total] at hwalk
  rw [scan_of_magic h, contents]
  cases hfold : (found (f.2.drop segPrologue)).records.foldlM visit b with
  | error e =>
      rw [hfold] at hwalk
      exact hwalk
  | ok b' =>
      rw [hfold] at hwalk
      exact hwalk

/-- What the loop of `recover` computes. -/
def survey (headerVersion : ℕ) (collect : Bool) :
    List File → Option ℕ × List Record → Except Err (Option ℕ × List Record)
  | [], acc => .ok acc
  | f :: rest, acc =>
      if ¬HasMagic f then .error (.notASegment (.segment f.1))
      else
        match (contents f).records.foldlM (visitRecord headerVersion collect f.1) acc with
        | .error e => .error e
        | .ok acc =>
            if (contents f).torn ∧ rest ≠ [] then .error (.tornMidLog (.segment f.1))
            else survey headerVersion collect rest acc

/-- The files make one run of records, starting with the version that is due, and
only the last of them may be torn. -/
def Adoptable : Option ℕ → List File → Prop
  | _, [] => True
  | expect, f :: rest =>
      HasMagic f ∧ Consecutive Record.version (expect.getD f.1) (contents f).records ∧
        (rest ≠ [] → (contents f).torn = false) ∧ Adoptable (due expect f) rest

def dueAfter (expect : Option ℕ) (files : List File) : Option ℕ := files.foldl due expect

def recordsOf (files : List File) : List Record := files.flatMap fun f => (contents f).records

@[simp] theorem recordsOf_cons (f : File) (files : List File) :
    recordsOf (f :: files) = (contents f).records ++ recordsOf files := rfl

@[simp] theorem recordsOf_nil : recordsOf [] = [] := rfl

@[simp] theorem recordsOf_append (xs ys : List File) :
    recordsOf (xs ++ ys) = recordsOf xs ++ recordsOf ys :=
  List.flatMap_append

@[simp] theorem dueAfter_cons (expect : Option ℕ) (f : File) (files : List File) :
    dueAfter expect (f :: files) = dueAfter (due expect f) files := rfl

theorem survey_ok_iff {headerVersion : ℕ} {collect : Bool} {files : List File}
    {acc acc' : Option ℕ × List Record} :
    survey headerVersion collect files acc = .ok acc' ↔ Adoptable acc.1 files ∧
      acc' = (dueAfter acc.1 files, acc.2 ++
        (recordsOf files).filter fun r => collect && decide (headerVersion < r.version)) := by
  induction files generalizing acc with
  | nil => simp [survey, Adoptable, dueAfter, recordsOf, eq_comm]
  | cons f rest ih =>
      rw [survey, Adoptable]
      by_cases hmagic : HasMagic f
      · rw [if_neg (not_not.mpr hmagic)]
        cases hfold : (contents f).records.foldlM (visitRecord headerVersion collect f.1) acc with
        | error e =>
            constructor
            · intro h
              cases h
            · rintro ⟨⟨-, hrun, -⟩, -⟩
              have hok := (foldlM_visitRecord headerVersion collect f.1 acc _ _).mpr ⟨hrun, rfl⟩
              rw [hfold] at hok
              cases hok
        | ok next =>
            obtain ⟨hrun, rfl⟩ := (foldlM_visitRecord ..).mp hfold
            dsimp only
            by_cases htorn : (contents f).torn = true ∧ rest ≠ []
            · rw [if_pos htorn]
              constructor
              · intro h
                cases h
              · rintro ⟨⟨-, -, hclean, -⟩, -⟩
                rw [hclean htorn.2] at htorn
                cases htorn.1
            · rw [if_neg htorn, ih]
              have hclean : rest ≠ [] → (contents f).torn = false := by
                intro hrest
                cases hflag : (contents f).torn with
                | true => exact absurd ⟨hflag, hrest⟩ htorn
                | false => rfl
              have hdue : (if (contents f).records = [] then acc.1
                  else some (acc.1.getD f.1 + (contents f).records.length)) = due acc.1 f := rfl
              rw [hdue, recordsOf_cons, List.filter_append, dueAfter_cons, ← List.append_assoc]
              exact ⟨fun ⟨hrest, heq⟩ => ⟨⟨hmagic, hrun, hclean, hrest⟩, heq⟩,
                fun ⟨⟨_, _, _, hrest⟩, heq⟩ => ⟨hrest, heq⟩⟩
      · rw [if_pos hmagic]
        constructor
        · intro h
          cases h
        · intro h
          exact absurd h.1.1 hmagic

/-- The check of `recover` on the first record it hands back. -/
def checkTail (headerVersion : ℕ) (tail : List Record) : Except Err (List Record) :=
  match tail.head? with
  | some first =>
      if first.version ≠ headerVersion + 1 then
        .error (.gap .header (headerVersion + 1) first.version)
      else .ok tail
  | none => .ok tail

/-- What `recover` returns where nothing fails. -/
def recovery (headerVersion : ℕ) (collect : Bool) (files : List File) : Except Err (List Record) :=
  match survey headerVersion collect files (none, []) with
  | .error e => .error e
  | .ok (expect, tail) =>
      match files.getLast? with
      | some f =>
          if lastVersion f.1 expect < headerVersion then
            .error (.headerAhead headerVersion (lastVersion f.1 expect))
          else checkTail headerVersion tail
      | none => checkTail headerVersion tail

/-- The records above a version. -/
def above (version : ℕ) (records : List Record) : List Record :=
  records.filter fun r => decide (version < r.version)

omit [Crc32] in
theorem checkTail_ok_iff {headerVersion : ℕ} {tail tail' : List Record} :
    checkTail headerVersion tail = .ok tail' ↔
      (∀ r, tail.head? = some r → r.version = headerVersion + 1) ∧ tail' = tail := by
  rw [checkTail]
  cases htail : tail.head? with
  | none => simp [eq_comm]
  | some first =>
      dsimp only
      by_cases hfirst : first.version = headerVersion + 1
      · rw [if_neg (not_not.mpr hfirst)]
        simp [hfirst, eq_comm]
      · rw [if_pos hfirst]
        simp [hfirst]

/-- When a recovery succeeds, and what it returns. -/
theorem recovery_ok_iff {headerVersion : ℕ} {collect : Bool} {files : List File}
    {tail : List Record} :
    recovery headerVersion collect files = .ok tail ↔ Adoptable none files ∧
      (∀ f, files.getLast? = some f → headerVersion ≤ lastVersion f.1 (dueAfter none files)) ∧
        (∀ r, tail.head? = some r → r.version = headerVersion + 1) ∧
          tail = if collect then above headerVersion (recordsOf files) else [] := by
  rw [recovery]
  cases hsurvey : survey headerVersion collect files (none, []) with
  | error e =>
      constructor
      · intro h
        cases h
      · rintro ⟨hadopt, -⟩
        rw [survey_ok_iff.mpr ⟨hadopt, rfl⟩] at hsurvey
        cases hsurvey
  | ok acc =>
      obtain ⟨hadopt, rfl⟩ := survey_ok_iff.mp hsurvey
      have htail : [] ++ (recordsOf files).filter
          (fun r => collect && decide (headerVersion < r.version)) =
          if collect then above headerVersion (recordsOf files) else [] := by
        cases collect with
        | true => simp [above]
        | false => simp
      dsimp only
      rw [htail]
      cases hlast : files.getLast? with
      | none =>
          dsimp only
          rw [checkTail_ok_iff]
          constructor
          · rintro ⟨hhead, rfl⟩
            exact ⟨hadopt, nofun, hhead, rfl⟩
          · rintro ⟨-, -, hhead, rfl⟩
            exact ⟨hhead, rfl⟩
      | some f =>
          dsimp only
          by_cases hahead : lastVersion f.1 (dueAfter none files) < headerVersion
          · rw [if_pos hahead]
            refine iff_of_false nofun ?_
            rintro ⟨-, hle, -⟩
            exact absurd hahead (not_lt.mpr (hle f rfl))
          · rw [if_neg hahead, checkTail_ok_iff]
            constructor
            · rintro ⟨hhead, rfl⟩
              refine ⟨hadopt, ?_, hhead, rfl⟩
              rintro g hg
              cases hg
              exact not_lt.mp hahead
            · rintro ⟨-, -, hhead, rfl⟩
              exact ⟨hhead, rfl⟩

end Lug.Wal
