import Lug.Wal.Recovery

/-!
`recover`, `load` and `open` follow the recovery of the directory, whatever
fails in them, and what they do to the files.
-/

namespace Lug.Wal

open Octets Faulty Runs

/-- The last file with zeroes put behind it. -/
def padLast (z : Bytes) : List File → List File
  | [] => []
  | [f] => [(f.1, f.2 ++ z)]
  | f :: g :: rest => f :: padLast z (g :: rest)

theorem padLast_append (z : Bytes) (files : List File) (f : File) :
    padLast z (files ++ [f]) = files ++ [(f.1, f.2 ++ z)] := by
  induction files with
  | nil => rfl
  | cons g files ih =>
      cases files with
      | nil => rfl
      | cons h files =>
          rw [List.cons_append, List.cons_append, padLast, ← List.cons_append, ih]
          rfl

theorem padLast_nil (files : List File) : padLast [] files = files := by
  induction files using List.reverseRecOn with
  | nil => rfl
  | append_singleton files f _ => rw [padLast_append, List.append_nil]

variable [Crc32] {env : Env} {m : Machine}

/-- A segment as `list_segments` puts it down. -/
def listed (f : File) : Segment := ⟨f.1, 0, f.1 - 1⟩

/-- The segments as `recover` leaves them. -/
def settled : Option ℕ → List File → List Segment
  | _, [] => []
  | expect, f :: rest =>
      ⟨f.1, stopOf f, lastVersion f.1 (due expect f)⟩ :: settled (due expect f) rest

/-- The file as it was, or cut behind its last intact record. -/
def MaybeCut (f f' : File) : Prop := f' = f ∨ HasMagic f ∧ f' = cut f

theorem stopOf_le {f : File} (h : HasMagic f) : stopOf f ≤ f.2.length := by
  have hle := h.le_length
  have hbytes := congrArg List.length (found_spec (f.2.drop segPrologue)).1
  rw [List.length_append, List.length_drop] at hbytes
  rw [stopOf, contents]
  omega

theorem setLen_stopOf {f : File} (h : HasMagic f) : setLen (stopOf f) f.2 = (cut f).2 := by
  have hle := stopOf_le h
  have hfull : stopOf f - f.2.length = 0 := by omega
  rw [setLen, hfull]
  exact List.append_nil _

theorem cut_of_le {f : File} (h : f.2.length ≤ stopOf f) : cut f = f :=
  Prod.ext rfl (List.take_of_length_le h)

/-- `truncate` cuts the file or leaves it, and does nothing else. -/
theorem ends_truncate {f : File} {pre post : List File} (hmagic : HasMagic f)
    (hdir : m.dir.segments = pre ++ f :: post) :
    Ends (truncate env f.1 (stopOf f)) (fun x m' => ∃ f', MaybeCut f f' ∧
      m.dir.Becomes (pre ++ f' :: post) m'.dir ∧ m'.store = m.store ∧
        (x = .ok () → f' = cut f) ∧ (x ≠ .ok () → ¬env.Calm)) m := by
  have hkeep : m.dir.Becomes (pre ++ f :: post) m.dir := hdir ▸ Dir.Becomes.refl m.dir
  have hedit : m.dir.Becomes (pre ++ cut f :: post)
      (m.dir.edit (.segment f.1) (setLen (stopOf f))) := by
    have hbecomes := Dir.becomes_edit (setLen (stopOf f)) hdir
    rwa [setLen_stopOf hmagic] at hbecomes
  have hstopped : ∀ {x : Exit Err Unit}, x ≠ .ok () → ¬env.Calm →
      ∃ f', MaybeCut f f' ∧ m.dir.Becomes (pre ++ f' :: post) m.dir ∧ m.store = m.store ∧
        (x = .ok () → f' = cut f) ∧ (x ≠ .ok () → ¬env.Calm) := fun hx hcalm =>
    ⟨f, .inl rfl, hkeep, rfl, fun hok => absurd hok hx, fun _ => hcalm⟩
  rw [truncate, ends_bind]
  refine ends_sys_call (fun _ => ?_) (fun h => hstopped nofun (not_calm_of_reply h nofun))
    (fun h => hstopped nofun (not_calm_of_reply h nofun))
  rw [after_ok, Dir.touch_segment hdir, ends_bind]
  refine ends_sys_call (fun _ => ?_) (fun h => hstopped nofun (not_calm_of_reply h nofun))
    (fun h => hstopped nofun (not_calm_of_reply h nofun))
  rw [after_ok]
  refine ends_sys_call (fun _ => ?_) (fun h => ?_) (fun h => ?_)
  · exact ⟨cut f, .inr ⟨hmagic, rfl⟩, hedit, rfl, fun _ => rfl, fun hne => absurd rfl hne⟩
  · exact ⟨cut f, .inr ⟨hmagic, rfl⟩, hedit, rfl, nofun, fun _ => not_calm_of_reply h nofun⟩
  · exact ⟨cut f, .inr ⟨hmagic, rfl⟩, hedit, rfl, nofun, fun _ => not_calm_of_reply h nofun⟩

/-- What the loop of `recover` leaves behind the files and segments that it is done
with: the files that were left to it may be cut where their records end, and all of
them are once it is through. -/
structure Surveyed (env : Env) (headerVersion : ℕ) (collect : Bool) (done files : List File)
    (segs : List Segment) (acc : Option ℕ × List Record) (m : Machine)
    (x : Exit Err (Option ℕ × List Record)) (m' : Machine) : Prop where
  cuts : ∃ files', List.Forall₂ MaybeCut files files' ∧ m.dir.Becomes (done ++ files') m'.dir ∧
    ∀ acc', x = .ok acc' → files' = files.map cut
  store : ∃ segs', m'.store = { m.store with segments := segs' } ∧
    segs'.map Segment.first = m.store.segments.map Segment.first ∧
      ∀ acc', x = .ok acc' → segs' = segs ++ settled acc.1 files
  follows : Follows env.Calm x (survey headerVersion collect files acc)

section Loop

variable {headerVersion : ℕ} {collect : Bool} {done files : List File} {segs : List Segment}
  {acc acc' : Option ℕ × List Record} {f : File}

/-- The loop ends before it touches a file. -/
theorem Surveyed.stopped {x : Exit Err (Option ℕ × List Record)} (hdir : m.dir.segments = done ++ files)
    (hfollows : Follows env.Calm x (survey headerVersion collect files acc))
    (hx : ∀ acc', x ≠ .ok acc') :
    Surveyed env headerVersion collect done files segs acc m x m := by
  refine ⟨⟨files, ?_, ?_, fun acc' hok => absurd hok (hx acc')⟩,
    ⟨m.store.segments, rfl, rfl, fun acc' hok => absurd hok (hx acc')⟩, hfollows⟩
  · exact List.forall₂_same.mpr fun f _ => .inl rfl
  · rw [← hdir]
    exact Dir.Becomes.refl m.dir

/-- The loop goes on behind a file that was cut. -/
theorem Surveyed.cons {f' : File} {rest : List File} {s : Segment} {todo : List Segment} {d : Dir}
    {x : Exit Err (Option ℕ × List Record)} {m' : Machine}
    (hsegs : m.store.segments = segs ++ s :: todo) (hname : s.first = f.1) (hcut : MaybeCut f f')
    (hf' : f' = cut f) (hbecomes : m.dir.Becomes (done ++ f' :: rest) d) (hdue : acc'.1 = due acc.1 f)
    (hsurvey : survey headerVersion collect (f :: rest) acc = survey headerVersion collect rest acc')
    (hrest : Surveyed env headerVersion collect (done ++ [f']) rest
      (segs ++ [⟨f.1, stopOf f, lastVersion f.1 acc'.1⟩]) acc'
      ⟨{ m.store with segments := (segs ++ [⟨f.1, stopOf f, lastVersion f.1 acc'.1⟩]) ++ todo }, d⟩
      x m') :
    Surveyed env headerVersion collect done (f :: rest) segs acc m x m' := by
  obtain ⟨files', hcuts, hdir, hfiles⟩ := hrest.cuts
  obtain ⟨segs', hstore, hnames, hsettled⟩ := hrest.store
  refine ⟨⟨f' :: files', .cons hcut hcuts, ?_, ?_⟩, ⟨segs', hstore, ?_, ?_⟩, hsurvey ▸ hrest.follows⟩
  · have hboth := hbecomes.trans hdir
    rwa [List.append_assoc, List.singleton_append] at hboth
  · intro acc'' hx
    rw [hfiles acc'' hx, hf', List.map_cons]
  · rw [hnames, hsegs]
    simp [hname]
  · intro acc'' hx
    rw [hsettled acc'' hx, settled, hdue, List.append_assoc, List.singleton_append]

end Loop

/-- The loop of `recover` follows the survey of the files. -/
theorem ends_settle (headerVersion : ℕ) (collect : Bool) {files done : List File}
    {segs todo : List Segment} (acc : Option ℕ × List Record)
    (hdir : m.dir.segments = done ++ files) (hsegs : m.store.segments = segs ++ todo)
    (hnames : todo.map Segment.first = files.map Prod.fst) :
    Ends (settle env headerVersion collect segs.length todo acc)
      (Surveyed env headerVersion collect done files segs acc m) m := by
  induction files generalizing done segs todo acc m with
  | nil =>
      obtain rfl := List.map_eq_nil_iff.mp hnames
      refine ⟨⟨[], .nil, ?_, fun _ _ => rfl⟩, ⟨segs, ?_, ?_, fun _ _ => (List.append_nil _).symm⟩, rfl⟩
      · rw [← hdir]
        exact Dir.Becomes.refl m.dir
      · rw [List.append_nil] at hsegs
        rw [← hsegs]
        rfl
      · rw [hsegs, List.append_nil]
  | cons f rest ih =>
      cases todo with
      | nil => cases hnames
      | cons s todo =>
      obtain ⟨hname, hrest⟩ := List.cons.inj hnames
      have hbytes : m.dir.bytes s.path = some f.2 := by
        rw [Segment.path, show s.first = f.1 from hname]
        exact Dir.bytes_segment hdir
      rw [settle, ends_bind]
      refine ends_readFile hbytes ?_ (fun h => .stopped hdir (.inr h) fun _ h => by cases h)
        (fun h => .stopped hdir h fun _ h => by cases h)
      rw [after_ok, ends_bind]
      by_cases hmagic : HasMagic f
      case neg =>
        rw [scan_of_not_magic hmagic, ends_lift_error, after_error]
        refine .stopped hdir (.inl ?_) fun _ h => by cases h
        rw [survey, if_pos hmagic, Segment.path, show s.first = f.1 from hname]
      rw [scan_total hmagic, show s.first = f.1 from hname]
      cases hfold : (contents f).records.foldlM (visitRecord headerVersion collect f.1) acc with
      | error e =>
          refine .stopped (x := .error e) hdir (.inl ?_) fun _ h => by cases h
          rw [survey, if_neg (not_not.mpr hmagic), hfold]
      | ok acc' =>
          have hdue : acc'.1 = due acc.1 f := by
            obtain ⟨-, rfl⟩ := (foldlM_visitRecord ..).mp hfold
            rfl
          have hempty : todo = [] ↔ rest = [] := by
            rw [← List.map_eq_nil_iff (f := Segment.first), hrest, List.map_eq_nil_iff]
          rw [Except.map, ends_lift_ok, after_ok]
          dsimp only
          by_cases htorn : (contents f).torn = true ∧ todo ≠ []
          · rw [if_pos htorn]
            refine .stopped hdir (.inl ?_) fun _ h => by cases h
            rw [survey, if_neg (not_not.mpr hmagic), hfold, Segment.path, show s.first = f.1 from hname]
            exact if_pos ⟨htorn.1, fun hnil => htorn.2 (hempty.mpr hnil)⟩
          · have hsurvey : survey headerVersion collect (f :: rest) acc =
                survey headerVersion collect rest acc' := by
              rw [survey, if_neg (not_not.mpr hmagic), hfold]
              exact if_neg fun h => htorn ⟨h.1, fun hnil => h.2 (hempty.mp hnil)⟩
            rw [if_neg htorn]
            -- behind the cut the loop goes on with the files that are left
            have hlater : ∀ f' d, MaybeCut f f' → f' = cut f →
                m.dir.Becomes (done ++ f' :: rest) d →
                Ends (do
                  upd fun s => { s with
                    segments := s.segments.set segs.length
                      ⟨f.1, stopOf f, lastVersion f.1 acc'.1⟩ }
                  settle env headerVersion collect (segs.length + 1) todo acc')
                (Surveyed env headerVersion collect done (f :: rest) segs acc m) ⟨m.store, d⟩ := by
              intro f' d hcut hf' hbecomes
              rw [ends_bind, ends_upd, after_ok]
              have hset : m.store.segments.set segs.length
                  ⟨f.1, stopOf f, lastVersion f.1 acc'.1⟩ =
                  (segs ++ [⟨f.1, stopOf f, lastVersion f.1 acc'.1⟩]) ++ todo := by
                rw [hsegs, List.set_append_right _ _ le_rfl, Nat.sub_self]
                simp
              have hd : d.segments = (done ++ [f']) ++ rest := by
                rw [hbecomes.1]
                simp
              have hloop := @ih ⟨{ m.store with
                segments := (segs ++ [⟨f.1, stopOf f, lastVersion f.1 acc'.1⟩]) ++ todo }, d⟩
                _ _ _ acc' hd rfl hrest
              rw [List.length_append, List.length_singleton] at hloop
              rw [hset]
              exact hloop.mono fun x m' hsurveyed =>
                hsurveyed.cons hsegs hname hcut hf' hbecomes hdue hsurvey
            by_cases hlong : stopOf f < f.2.length
            · rw [if_pos hlong]
              refine (ends_truncate hmagic hdir).bind ?_
              rintro x m' ⟨f', hcut, hbecomes, hstore, hok, hfail⟩
              have hm' : m' = ⟨m.store, m'.dir⟩ := by rw [← hstore]
              have hcuts : List.Forall₂ MaybeCut (f :: rest) (f' :: rest) :=
                .cons hcut (List.forall₂_same.mpr fun f _ => .inl rfl)
              cases x with
              | ok u =>
                  rw [after_ok, hm']
                  exact hlater f' m'.dir hcut (hok rfl) hbecomes
              | error e =>
                  exact ⟨⟨_, hcuts, hbecomes, (fun _ h => by cases h)⟩, ⟨_, hstore, rfl, (fun _ h => by cases h)⟩, .inr (hfail (fun h => by cases h))⟩
              | died => exact ⟨⟨_, hcuts, hbecomes, (fun _ h => by cases h)⟩, ⟨_, hstore, rfl, (fun _ h => by cases h)⟩, hfail (fun h => by cases h)⟩
            · rw [if_neg hlong]
              refine hlater f m.dir (.inl rfl) (cut_of_le (not_lt.mp hlong)).symm ?_
              exact hdir ▸ Dir.Becomes.refl m.dir

theorem getLast?_settled (expect : Option ℕ) (files : List File) :
    (settled expect files).getLast? =
      files.getLast?.map fun f => ⟨f.1, stopOf f, lastVersion f.1 (dueAfter expect files)⟩ := by
  induction files generalizing expect with
  | nil => rfl
  | cons f rest ih =>
      rw [settled, dueAfter_cons]
      cases rest with
      | nil => rfl
      | cons g rest =>
          have hcons := ih (due expect f)
          rw [settled] at hcons ⊢
          rw [List.getLast?_cons_cons, hcons, List.getLast?_cons_cons]

/-- A log has to reach the header it is behind. -/
def checkHead (headerVersion : ℕ) : Option Segment → Except Err Unit
  | none => .ok ()
  | some segment =>
      if segment.last < headerVersion then .error (.headerAhead headerVersion segment.last)
      else .ok ()

omit [Crc32] in
/-- The end of `recover` opens the last segment and puts zeroes behind it, unless
the header is ahead of it. -/
theorem ends_openLast (headerVersion : ℕ) {done files : List File}
    (hfiles : m.dir.segments = done ++ files)
    (hlast : ∀ segment, m.store.last = some segment → ∃ pre content,
      files = pre ++ [(segment.first, content)] ∧ content.length = segment.stop) :
    Ends (openLast env headerVersion) (fun x m' => ∃ z active capacity,
      Blank z ∧ m.dir.Becomes (done ++ padLast z files) m'.dir ∧
      m'.store = { m.store with active := active, capacity := capacity } ∧
      Follows env.Calm x (checkHead headerVersion m.store.last) ∧
      (x = .ok () → active = (m.store.last.map Segment.first).or m.store.active) ∧
      (active = m.store.active ∨ x = .ok ())) m := by
  have hkeep : m.dir.Becomes (done ++ padLast [] files) m.dir := by
    rw [padLast_nil, ← hfiles]
    exact Dir.Becomes.refl m.dir
  rw [openLast, ends_bind, ends_get, after_ok]
  cases hsegment : m.store.last with
  | none =>
      exact ⟨[], m.store.active, m.store.capacity, blank_nil, hkeep, rfl, rfl, fun _ => rfl,
        .inl rfl⟩
  | some segment =>
      obtain ⟨pre, content, hpre, hlength⟩ := hlast segment hsegment
      have hdir : m.dir.segments = (done ++ pre) ++ [(segment.first, content)] := by
        rw [hfiles, hpre, List.append_assoc]
      dsimp only [checkHead]
      by_cases hahead : segment.last < headerVersion
      · rw [if_pos hahead, if_pos hahead, ends_throw]
        exact ⟨[], m.store.active, m.store.capacity, blank_nil, hkeep, rfl, .inl rfl, nofun,
          .inl rfl⟩
      · rw [if_neg hahead, if_neg hahead, ends_bind]
        refine ends_sys_call (fun _ => ?_) (fun h => ?_) (fun h => ?_)
        case refine_2 =>
          exact ⟨[], m.store.active, m.store.capacity, blank_nil, hkeep, rfl,
            .inr (not_calm_of_reply h nofun), nofun, .inl rfl⟩
        case refine_3 =>
          exact ⟨[], m.store.active, m.store.capacity, blank_nil, hkeep, rfl,
            not_calm_of_reply h nofun, nofun, .inl rfl⟩
        rw [after_ok, Segment.path, Dir.touch_segment hdir, ends_bind, ends_upd, after_ok, ends_bind]
        refine ends_sys_call (fun _ => ?_) (fun h => ?_) (fun h => ?_)
        case refine_2 =>
          exact ⟨[], m.store.active, _, blank_nil, hkeep, rfl, .inr (not_calm_of_reply h nofun),
            nofun, .inl rfl⟩
        case refine_3 =>
          exact ⟨[], m.store.active, _, blank_nil, hkeep, rfl, not_calm_of_reply h nofun, nofun,
            .inl rfl⟩
        have hroom : content.length ≤ max segment.stop m.store.rotateBytes := by omega
        have hreserve : (if env.fallocate = true
            then extend (max segment.stop m.store.rotateBytes)
            else setLen (max segment.stop m.store.rotateBytes)) content =
            content ++ zeroes (max segment.stop m.store.rotateBytes - content.length) := by
          split
          · rfl
          · exact setLen_of_le hroom
        have hedit := Dir.becomes_edit (if env.fallocate = true
            then extend (max segment.stop m.store.rotateBytes)
            else setLen (max segment.stop m.store.rotateBytes)) hdir
        rw [hreserve] at hedit
        rw [after_ok, ends_upd]
        refine ⟨zeroes (max segment.stop m.store.rotateBytes - content.length), some segment.first,
          _, blank_zeroes _, ?_, rfl, rfl, fun _ => rfl, .inr rfl⟩
        rw [hpre, padLast_append, ← List.append_assoc]
        exact hedit

theorem Adoptable.magic {expect : Option ℕ} {files : List File} (h : Adoptable expect files) :
    ∀ f ∈ files, HasMagic f := by
  induction files generalizing expect with
  | nil => simp
  | cons f rest ih =>
      obtain ⟨hmagic, -, -, hrest⟩ := h
      rintro g (_ | ⟨_, hg⟩)
      · exact hmagic
      · exact ih hrest g hg

/-- The file as it was, or cut behind its last intact record, with zeroes put
there. -/
def Trimmed (f f' : File) : Prop :=
  f' = f ∨ HasMagic f ∧ ∃ z, Blank z ∧ f' = (f.1, (cut f).2 ++ z)

theorem MaybeCut.trimmed {f f' : File} (h : MaybeCut f f') : Trimmed f f' := by
  cases h with
  | inl hsame => exact .inl hsame
  | inr hcut => exact .inr ⟨hcut.1, [], blank_nil, by rw [hcut.2, List.append_nil]; rfl⟩

theorem trimmed_padLast {files : List File} {z : Bytes} (hz : Blank z)
    (h : ∀ f ∈ files, HasMagic f) : List.Forall₂ Trimmed files (padLast z (files.map cut)) := by
  induction files using List.reverseRecOn with
  | nil => exact .nil
  | append_singleton files f _ =>
      rw [List.map_append, List.map_singleton, padLast_append]
      refine List.rel_append ?_ (.cons ?_ .nil)
      · rw [List.forall₂_map_right_iff, List.forall₂_same]
        exact fun g hg => (MaybeCut.trimmed (.inr ⟨h g (List.mem_append_left _ hg), rfl⟩))
      · exact .inr ⟨h f (List.mem_append_right _ List.mem_cons_self), z, hz, rfl⟩

/-- What `recover` leaves behind. It does no more to the files than cut them where
their records end and put zeroes behind; once it is through, all of them are cut
and the store knows where they end. -/
structure Recovering (env : Env) (collect : Bool) (done files : List File) (m : Machine)
    (x : Exit Err (List Record)) (m' : Machine) : Prop where
  trimmed : ∃ files', List.Forall₂ Trimmed files files' ∧ m.dir.Becomes (done ++ files') m'.dir
  follows : Follows env.Calm x (recovery m.store.headerVersion collect files)
  stopped : (∀ tail, x ≠ .ok tail) → ∃ segs active capacity,
    segs.map Segment.first = m.store.segments.map Segment.first ∧
      (files = [] → active = m.store.active) ∧
        m'.store = { m.store with segments := segs, active := active, capacity := capacity }
  through : ∀ tail, x = .ok tail → ∃ z capacity, Blank z ∧
    m'.dir.segments = done ++ padLast z (files.map cut) ∧
    m'.store = { m.store with
      segments := settled none files
      active := (files.getLast?.map Prod.fst).or m.store.active
      capacity := capacity
      recovered := true
      poison := none }

/-- `recover` follows the recovery of the directory's files. -/
theorem ends_recover (collect : Bool) {done files : List File}
    (hdir : m.dir.segments = done ++ files)
    (hnames : m.store.segments.map Segment.first = files.map Prod.fst) :
    Ends (recover env collect) (Recovering env collect done files m) m := by
  have hsettle : Ends (settle env _ collect _ _ _) _ m :=
    ends_settle m.store.headerVersion collect (none, []) hdir
      (show m.store.segments = [] ++ m.store.segments from rfl) hnames
  rw [recover, ends_bind, ends_get, after_ok, ends_bind]
  refine hsettle.mono ?_
  rintro x m₁ ⟨⟨files₁, hcuts, hbecomes, hcut⟩, ⟨segs₁, hstore, hfirsts, hsettled⟩, hfollows⟩
  have htrimmed : ∃ files', List.Forall₂ Trimmed files files' ∧
      m.dir.Becomes (done ++ files') m₁.dir :=
    ⟨files₁, hcuts.imp fun _ _ h => h.trimmed, hbecomes⟩
  have hstopped : ∃ segs active capacity,
      segs.map Segment.first = m.store.segments.map Segment.first ∧
        (files = [] → active = m.store.active) ∧
          m₁.store = { m.store with segments := segs, active := active, capacity := capacity } :=
    ⟨segs₁, m.store.active, m.store.capacity, hfirsts, fun _ => rfl, hstore⟩
  cases x with
  | error e =>
      refine ⟨htrimmed, hfollows.imp_left fun hsurvey => ?_, fun _ => hstopped, (fun _ h => by cases h)⟩
      rw [recovery, hsurvey]
  | died => exact ⟨htrimmed, hfollows, fun _ => hstopped, (fun _ h => by cases h)⟩
  | ok acc =>
      have hsurvey : survey m.store.headerVersion collect files (none, []) = .ok acc :=
        hfollows
      obtain rfl : files₁ = files.map cut := hcut acc rfl
      obtain rfl : segs₁ = settled none files := hsettled acc rfl
      have hmagic := (survey_ok_iff.mp hsurvey).1.magic
      have hdue : acc.1 = dueAfter none files := by
        rw [(survey_ok_iff.mp hsurvey).2]
      have hlast : m₁.store.last = files.getLast?.map
          fun f => ⟨f.1, stopOf f, lastVersion f.1 acc.1⟩ := by
        rw [hstore, hdue]
        exact getLast?_settled none files
      have hrecovery : recovery m.store.headerVersion collect files =
          (checkHead m.store.headerVersion m₁.store.last).bind
            fun _ => checkTail m.store.headerVersion acc.2 := by
        rw [recovery, hsurvey, hlast]
        cases files.getLast? with
        | none => rfl
        | some f =>
            dsimp only [Option.map_some, checkHead]
            split_ifs <;> rfl
      obtain ⟨expect, tail⟩ := acc
      rw [after_ok, ends_bind]
      refine (ends_openLast m.store.headerVersion hbecomes.1 ?_).mono ?_
      · intro segment hsegment
        rw [hlast, Option.map_eq_some_iff] at hsegment
        obtain ⟨f, hf, rfl⟩ := hsegment
        obtain ⟨pre, hpre⟩ := List.getLast?_eq_some_iff.mp hf
        refine ⟨pre.map cut, (cut f).2, ?_, ?_⟩
        · rw [hpre]
          simp [cut]
        · have hle := stopOf_le (hmagic f (by rw [hpre]; simp))
          show (f.2.take (stopOf f)).length = stopOf f
          rw [List.length_take]
          omega
      · rintro x m₂ ⟨z, active, capacity, hz, hpad, hstore₂, hopen, hactive, hkept⟩
        have hpadded : ∃ files', List.Forall₂ Trimmed files files' ∧
            m.dir.Becomes (done ++ files') m₂.dir :=
          ⟨_, trimmed_padLast hz hmagic, hbecomes.trans hpad⟩
        have hstopped : ∃ segs active capacity,
            segs.map Segment.first = m.store.segments.map Segment.first ∧
              (files = [] → active = m.store.active) ∧
                m₂.store =
                  { m.store with segments := segs, active := active, capacity := capacity } := by
          refine ⟨_, active, capacity, hfirsts, fun hnil => ?_, ?_⟩
          · rw [hlast, hnil] at hactive
            cases hkept with
            | inl hsame => rw [hsame, hstore]
            | inr hok => rw [hactive hok, hstore]; rfl
          · rw [hstore₂, hstore]
        cases x with
        | error e =>
            refine ⟨hpadded, hopen.imp_left fun hahead => ?_, fun _ => hstopped,
              (fun _ h => by cases h)⟩
            rw [hrecovery, hahead]
            rfl
        | died => exact ⟨hpadded, hopen, fun _ => hstopped, (fun _ h => by cases h)⟩
        | ok u =>
            have hcheck : recovery m.store.headerVersion collect files =
                checkTail m.store.headerVersion tail := by
              rw [hrecovery, show checkHead _ _ = .ok () from hopen]
              rfl
            rw [checkTail] at hcheck
            have hend : recovery m.store.headerVersion collect files = .ok tail →
                Ends (do
                  upd fun s => { s with recovered := true, poison := none }
                  pure tail) (Recovering env collect done files m) m₂ := by
              intro htail
              refine ⟨hpadded, htail, fun hne => absurd rfl (hne tail),
                fun _ _ => ⟨z, capacity, hz, hpad.1, ?_⟩⟩
              have hfirst : (files.getLast?.map Prod.fst).or m.store.active = active := by
                rw [hactive rfl, hlast, hstore]
                cases files.getLast? <;> rfl
              rw [hfirst]
              show { m₂.store with recovered := true, poison := none } = _
              rw [hstore₂, hstore]
            rw [after_ok]
            cases hhead : tail.head? with
            | none =>
                rw [hhead] at hcheck
                exact hend hcheck
            | some first =>
                rw [hhead] at hcheck
                dsimp only at hcheck ⊢
                by_cases hfirst : first.version ≠ m.store.headerVersion + 1
                · rw [if_pos hfirst] at hcheck ⊢
                  exact ⟨hpadded, .inl hcheck, fun _ => hstopped, (fun _ h => by cases h)⟩
                · rw [if_neg hfirst] at hcheck ⊢
                  exact hend hcheck

/-! ### Loading -/

section Load

variable (V : Type) [Versioned V] [HeaderSerde V]

/-- What the header file says. -/
def headerOf (d : Dir) : Except Err (Option (Header V)) :=
  match d.header with
  | none => .ok none
  | some bytes => (parseHeader bytes).map some

def versionOf {V : Type} (header : Option (Header V)) : ℕ := header.elim 0 Header.version

/-- What `load` returns where nothing fails. -/
def loaded (d : Dir) : Except Err (Recovered V) :=
  match headerOf V d with
  | .error e => .error e
  | .ok header =>
      match recovery (versionOf header) true d.segments with
      | .error e => .error e
      | .ok tail => .ok ⟨header.map Header.view, tail⟩

theorem ends_readHeader : Ends (readHeader V env) (fun x m' =>
    m' = m ∧ Follows env.Calm x (headerOf V m.dir)) m := by
  unfold Ends readHeader headerOf
  cases hreply : env.reply .readHeader with
  | die => exact ⟨rfl, not_calm_of_reply hreply nofun⟩
  | fail => exact ⟨rfl, .inr (not_calm_of_reply hreply nofun)⟩
  | ok =>
      cases m.dir.header with
      | none => exact ⟨rfl, rfl⟩
      | some bytes =>
          dsimp only
          cases (parseHeader bytes : Except Err (Header V)) with
          | error e => exact ⟨rfl, .inl rfl⟩
          | ok header => exact ⟨rfl, rfl⟩

/-- What `load` leaves behind. Where it fails the store is not settled. -/
structure Loading (env : Env) (m : Machine) (x : Exit Err (Recovered V)) (m' : Machine) : Prop where
  trimmed : List.Forall₂ Trimmed m.dir.segments m'.dir.segments
  becomes : m.dir.Becomes m'.dir.segments m'.dir
  follows : Follows env.Calm x (loaded V m.dir)
  stopped : (∀ found, x ≠ .ok found) → ∃ segs active capacity version,
    (m.dir.segments = [] → active = none) ∧
      (segs = m.store.segments ∨ segs.map Segment.first = m.dir.segments.map Prod.fst) ∧
        (version = m.store.headerVersion ∨
          ∃ header, headerOf V m.dir = .ok header ∧ version = versionOf header) ∧
          m'.store = { m.store with
            segments := segs, active := active, capacity := capacity, headerVersion := version }
  through : ∀ found, x = .ok found → ∃ header z capacity, headerOf V m.dir = .ok header ∧ Blank z ∧
    m'.dir.segments = padLast z (m.dir.segments.map cut) ∧
    m'.store = ⟨settled none m.dir.segments, m.dir.segments.getLast?.map Prod.fst, capacity,
      versionOf header, m.store.rotateBytes, true, none⟩

/-- `load` follows the recovery of the directory. -/
theorem ends_load : Ends (load V env) (Loading V env m) m := by
  have hsame : List.Forall₂ Trimmed m.dir.segments m.dir.segments :=
    List.forall₂_same.mpr fun _ _ => .inl rfl
  have hkeep := Dir.Becomes.refl m.dir
  have hnames : (m.dir.segments.map listed).map Segment.first = m.dir.segments.map Prod.fst := by
    rw [List.map_map]
    rfl
  have hlisting : ∃ segs active capacity version,
      (m.dir.segments = [] → active = none) ∧
        (segs = m.store.segments ∨ segs.map Segment.first = m.dir.segments.map Prod.fst) ∧
          (version = m.store.headerVersion ∨
            ∃ header, headerOf V m.dir = .ok header ∧ version = versionOf header) ∧
            { m.store with active := none } = { m.store with
              segments := segs, active := active, capacity := capacity, headerVersion := version } :=
    ⟨_, none, _, _, fun _ => rfl, .inl rfl, .inl rfl, rfl⟩
  have hreading : ∃ segs active capacity version,
      (m.dir.segments = [] → active = none) ∧
        (segs = m.store.segments ∨ segs.map Segment.first = m.dir.segments.map Prod.fst) ∧
          (version = m.store.headerVersion ∨
            ∃ header, headerOf V m.dir = .ok header ∧ version = versionOf header) ∧
            { m.store with active := none, segments := m.dir.segments.map listed } =
              { m.store with
                segments := segs, active := active, capacity := capacity,
                headerVersion := version } :=
    ⟨_, none, _, _, fun _ => rfl, .inr hnames, .inl rfl, rfl⟩
  rw [load, ends_bind, ends_upd, after_ok, ends_bind, listSegments, ends_bind]
  refine ends_sys_call (fun _ => ?_)
    (fun h => ⟨hsame, hkeep, .inr (not_calm_of_reply h nofun), fun _ => hlisting, nofun⟩)
    (fun h => ⟨hsame, hkeep, not_calm_of_reply h nofun, fun _ => hlisting, nofun⟩)
  rw [after_ok, ends_modify, after_ok, ends_bind]
  refine (ends_readHeader V).mono ?_
  rintro x m₁ ⟨rfl, hheader⟩
  cases x with
  | error e =>
      refine ⟨hsame, hkeep, hheader.imp_left fun h => ?_, fun _ => hreading, nofun⟩
      rw [loaded, show headerOf V m.dir = .error e from h]
  | died => exact ⟨hsame, hkeep, hheader, fun _ => hreading, nofun⟩
  | ok header =>
      have hheader : headerOf V m.dir = .ok header := hheader
      rw [after_ok, ends_bind, ends_upd, after_ok, ends_bind]
      refine (ends_recover true (List.nil_append _).symm hnames).mono ?_
      rintro x m₂ ⟨⟨files', htrimmed, hbecomes⟩, hfollows, hstopped, hthrough⟩
      obtain rfl : m₂.dir.segments = files' := hbecomes.1
      have hloaded : loaded V m.dir = match recovery (versionOf header) true m.dir.segments with
          | .error e => .error e
          | .ok tail => .ok ⟨header.map Header.view, tail⟩ := by
        rw [loaded, hheader]
      have hunsettled : (∀ tail, x ≠ .ok tail) → ∃ segs active capacity version,
          (m.dir.segments = [] → active = none) ∧
            (segs = m.store.segments ∨ segs.map Segment.first = m.dir.segments.map Prod.fst) ∧
              (version = m.store.headerVersion ∨
                ∃ header, headerOf V m.dir = .ok header ∧ version = versionOf header) ∧
                m₂.store = { m.store with
                  segments := segs, active := active, capacity := capacity,
                  headerVersion := version } := by
        intro hx
        obtain ⟨segs, active, capacity, hsegs, hactive, hstore⟩ := hstopped hx
        exact ⟨segs, active, capacity, versionOf header, hactive, .inr (hsegs.trans hnames),
          .inr ⟨header, hheader, rfl⟩, hstore⟩
      cases x with
      | error e =>
          refine ⟨htrimmed, hbecomes, hfollows.imp_left fun h => ?_, fun _ => hunsettled nofun, nofun⟩
          rw [hloaded, show recovery (versionOf header) true m.dir.segments = .error e from h]
      | died => exact ⟨htrimmed, hbecomes, hfollows, fun _ => hunsettled nofun, nofun⟩
      | ok tail =>
          obtain ⟨z, capacity, hz, hfiles, hstore⟩ := hthrough tail rfl
          have htail : recovery (versionOf header) true m.dir.segments = .ok tail := hfollows
          rw [after_ok, ends_pure]
          refine ⟨htrimmed, hbecomes, ?_, fun hne => absurd rfl (hne _),
            fun found _ => ⟨header, z, capacity, hheader, hz, hfiles, ?_⟩⟩
          · show loaded V m.dir = _
            rw [hloaded, htail]
          · rw [hstore, Option.or_none]
            rfl

/-- `open` looks at the header and leaves the directory alone. -/
theorem ends_openWith (rotateBytes : ℕ) : Ends (openWith V env rotateBytes) (fun x m' =>
    m'.dir = m.dir ∧ (x = .ok () → ∃ header, headerOf V m.dir = .ok header ∧
      m'.store = ⟨m.dir.segments.map listed, none, 0, versionOf header,
        max rotateBytes (segPrologue + recPrefix), false, none⟩)) m := by
  rw [openWith, ends_bind]
  refine ends_sys_call (fun _ => ?_) (fun _ => ⟨rfl, nofun⟩) (fun _ => ⟨rfl, nofun⟩)
  rw [after_ok, ends_bind]
  refine ends_sys_call (fun _ => ?_) (fun _ => ⟨rfl, nofun⟩) (fun _ => ⟨rfl, nofun⟩)
  rw [after_ok, ends_bind]
  refine ends_sys_call (fun _ => ?_) (fun _ => ⟨rfl, nofun⟩) (fun _ => ⟨rfl, nofun⟩)
  rw [after_ok]
  by_cases hlocked : env.locked = true
  · rw [if_pos hlocked]
    exact ⟨rfl, nofun⟩
  · rw [if_neg hlocked, ends_bind, ends_upd, after_ok, ends_bind, listSegments, ends_bind]
    refine ends_sys_call (fun _ => ?_) (fun _ => ⟨rfl, nofun⟩) (fun _ => ⟨rfl, nofun⟩)
    rw [after_ok, ends_modify, after_ok, ends_bind]
    refine (ends_readHeader V).mono ?_
    rintro x m₁ ⟨rfl, hheader⟩
    cases x with
    | error e => exact ⟨rfl, nofun⟩
    | died => exact ⟨rfl, nofun⟩
    | ok header =>
        rw [after_ok, ends_upd]
        exact ⟨rfl, fun _ => ⟨header, hheader, rfl⟩⟩

end Load

end Lug.Wal
