import Lug.Proto.Codec
import Lug.Server.Delivery

/-!
Which of the frames a stream task queues the writer of its connection accepts.
Out of the ring a frame is bounded by an estimate of its patches, out of storage
by their number, and a view by nothing, while the writer goes by the bytes.
-/

namespace Lug

open Proto Runs

/-! ### What the estimate cuts -/

namespace Ring

/-- The entries of a ring that follow a cursor. -/
def following (r : Ring) (after : ℕ) : List Entry :=
  match r.entries.head? with
  | none => []
  | some front =>
      if succ64 after < front.version then [] else r.entries.drop (succ64 after - front.version)

/-- Entries the estimate lets into one frame: before the last of them it stood
below the limit. -/
def Admits (maxBytes : ℕ) (es : List Entry) : Prop :=
  (es.dropLast.map Entry.bytes).sum < maxBytes

theorem takeBytes_admits {maxBytes bytes : ℕ} (h : bytes < maxBytes) (entries : List Entry) :
    bytes + ((takeBytes maxBytes bytes entries).dropLast.map Entry.bytes).sum < maxBytes := by
  induction entries generalizing bytes with
  | nil => exact h
  | cons entry entries ih =>
      rw [takeBytes]
      split
      · exact h
      · rename_i hmore
        have hrest := ih (not_le.mp hmore)
        cases htake : takeBytes maxBytes (bytes + entry.bytes) entries with
        | nil => exact h
        | cons next rest =>
            rw [htake] at hrest
            rw [List.dropLast_cons_cons, List.map_cons, List.sum_cons]
            omega

/-- What the estimate admits of the entries is taken. -/
theorem prefix_takeBytes {maxBytes bytes : ℕ} {es entries : List Entry} (h : es <+: entries)
    (hes : bytes + (es.dropLast.map Entry.bytes).sum < maxBytes) :
    es <+: takeBytes maxBytes bytes entries := by
  induction es generalizing bytes entries with
  | nil => exact List.nil_prefix
  | cons e es ih =>
      obtain ⟨rest, rfl⟩ := h
      rw [List.cons_append, takeBytes, List.prefix_cons_inj]
      cases es with
      | nil => exact List.nil_prefix
      | cons e' es =>
          rw [List.dropLast_cons_cons, List.map_cons, List.sum_cons] at hes
          rw [if_neg (by omega)]
          exact ih ⟨rest, rfl⟩ (by omega)

theorem readAfter_eq (r : Ring) (after limit maxBytes : ℕ) :
    r.readAfter after limit maxBytes = .tooOld ∧ r.following after = [] ∨
      r.readAfter after limit maxBytes =
        .records (takeBytes maxBytes 0 ((r.following after).take limit)) := by
  unfold readAfter following
  cases r.entries.head? with
  | none => exact .inr (by rw [List.take_nil]; rfl)
  | some front =>
      dsimp only
      split
      · exact .inl ⟨rfl, rfl⟩
      · exact .inr rfl

end Ring

/-! ### The turns of a stream -/

/-- `Limits::default`. -/
def Limits.default : Limits := ⟨512, 4 * 1024 * 1024⟩

section

variable {D S P V : Type} [TextCodec] [Versioned V] [Reducible D P V] [Storage S V]

/-- Who lets a stream take its next step: itself, over what is published, or the
actor with its answer. -/
inductive Turn (D S : Type)
  | serve (shared : Shared) (granted : ℕ)
  | view (a : Actor D S)
  | catchUp (a : Actor D S)

namespace Turn

def next (t : Stream) : Turn D S → Stream
  | .serve shared granted => t.step .default shared granted
  | .view a => match t.phase with
    | .opening => t.viewed (a.view none)
    | _ => t
  | .catchUp a => match t.phase with
    | .awaiting after limit => t.caughtUp (a.catchUp after limit)
    | _ => t

/-- The records the stream is about to take, or the document it is about to be
shown, fit into one frame: of the ring all that the estimate admits of what
follows the cursor, of the storage all it was asked for. -/
def Light (id : UInt64) (t : Stream) : Turn D S → Prop
  | .serve shared _ => ∀ g, t.phase = .reading g → ∀ es,
      es <+: (shared.ring.following t.cursor).take (min (g - t.used) Limits.default.push) →
        Ring.Admits Limits.default.pushBytes es →
          recordsSize id.toNat (es.map Entry.pushed) ≤ maxFrame
  | .view a => t.phase = .opening →
      viewSize id.toNat (Versioned.version a.log.view.view) (Versioned.state a.log.view.view) ≤
        maxFrame
  | .catchUp a => ∀ after limit, t.phase = .awaiting after limit → a.log.oldest ≤ succ64 after →
      ∀ first records es, a.log.readAfter after limit = .ok (first :: records) →
        first.version = succ64 after → Actor.entriesOf (first :: records) = .ok es →
          recordsSize id.toNat (es.map Entry.pushed) ≤ maxFrame

/-- A patch that came in an `Append` the server accepted. -/
def Accepted (patch : Json) : Prop :=
  ∃ (id : UInt64) (log : String) (patches : List Json), patch ∈ patches ∧
    (appendText id.toNat log patches).length ≤ maxFrame

/-- What the ring and the storage hold is made of such patches. -/
def Fed (t : Stream) : Turn D S → Prop
  | .serve shared _ =>
      (∃ n, Consecutive Entry.version n shared.ring.entries) ∧
        ∀ e ∈ shared.ring.entries, Accepted e.patch ∧ e.bytes = estimate e.patch
  | .view _ => True
  | .catchUp a => ∀ after limit records es, t.phase = .awaiting after limit →
      a.log.readAfter after limit = .ok records → Actor.entriesOf records = .ok es →
        ∀ e ∈ es, Accepted e.patch

end Turn

namespace Stream

/-- The states of a stream whose turns all satisfy `ok`. -/
inductive Runs (ok : Stream → Turn D S → Prop) : Stream → Prop
  | start (from_ : ℕ) (mode : Mode) : Runs ok (.new from_ mode)
  | turn {t : Stream} (h : Runs ok t) (turn : Turn D S) (hok : ok t turn) : Runs ok (turn.next t)

/-- The encoder accepts every record frame and every view the stream has queued. -/
def Sendable (id : UInt64) (t : Stream) : Prop :=
  (∀ rs, .records rs ∈ t.issued → ∃ out, encode (recordsText id.toNat rs) [] = .ok out) ∧
  ∀ version value, .view version value ∈ t.issued →
    ∃ out, encode (viewText id.toNat version value) [] = .ok out

/-- The frame in the hands of the stream, by its size. -/
def Fits (id : UInt64) : Frame → Prop
  | .records rs => recordsSize id.toNat rs ≤ maxFrame
  | .view version value => viewSize id.toNat version value ≤ maxFrame
  | _ => True

theorem sendable_iff (id : UInt64) (t : Stream) :
    t.Sendable id ↔ ∀ frame ∈ t.issued, Fits id frame := by
  simp only [Sendable, encode_ok_iff, length_recordsText, length_viewText]
  constructor
  · intro h frame hframe
    match frame, hframe with
    | .records rs, hframe => exact h.1 rs hframe
    | .view version value, hframe => exact h.2 version value hframe
    | .gap _ _, _ => trivial
    | .error _, _ => trivial
  · exact fun h => ⟨fun rs hrs => h _ hrs, fun version value hv => h _ hv⟩

theorem recordsSize_nil (id : UInt64) : recordsSize id.toNat [] ≤ maxFrame := by
  have hid := length_digits_le id.toNat_lt
  have hsize : recordsSize id.toNat [] = 34 + (digits id.toNat).length := rfl
  rw [hsize, maxFrame]
  omega

/-- What the ring hands over is what the estimate admits, and all of it. -/
theorem read_fits_iff {id : UInt64} {r : Ring} {after limit maxBytes : ℕ} {es : List Entry}
    (hbytes : 0 < maxBytes) (h : r.readAfter after limit maxBytes = .records es) :
    (∀ es', es' <+: (r.following after).take limit → Ring.Admits maxBytes es' →
      recordsSize id.toNat (es'.map Entry.pushed) ≤ maxFrame) ↔
        recordsSize id.toNat (es.map Entry.pushed) ≤ maxFrame := by
  rcases r.readAfter_eq after limit maxBytes with ⟨hold, -⟩ | htaken
  · rw [hold] at h
    cases h
  · rw [htaken] at h
    cases h
    have hadmits := Ring.takeBytes_admits hbytes ((r.following after).take limit)
    constructor
    · intro hall
      refine hall _ (Ring.takeBytes_isPrefix _ _ _) ?_
      rwa [Nat.zero_add] at hadmits
    · intro hfits es' hprefix hes'
      have htake : es' <+: Ring.takeBytes maxBytes 0 ((r.following after).take limit) :=
        Ring.prefix_takeBytes hprefix (by rwa [Nat.zero_add])
      exact (recordsSize_mono _ (htake.map Entry.pushed)).trans hfits

omit [TextCodec] in
/-- A step that does not read the ring queues nothing. -/
theorem step_issued (limits : Limits) (shared : Shared) (granted : ℕ) {t : Stream}
    (h : ∀ g, t.phase ≠ .reading g) : (t.step limits shared granted).issued = t.issued := by
  rw [step]
  cases hphase : t.phase with
  | reading g => exact absurd hphase (h g)
  | start | credited => dsimp only; split <;> simp only [issued, hphase]
  | opening | awaiting | ended => rfl
  | parkedCredit | parkedWatermark | parkedEmpty => simp only [issued, hphase]
  | sending frame cursor last => cases last <;> simp only [issued, hphase] <;> rfl

theorem sendable_concat {id : UInt64} {t t' : Stream} {frame : Frame} (h : t.Sendable id)
    (hissued : t'.issued = t.issued ++ [frame]) : t'.Sendable id ↔ Fits id frame := by
  rw [sendable_iff] at h ⊢
  rw [hissued, List.forall_mem_append, List.forall_mem_singleton]
  exact and_iff_right h

theorem sendable_congr {id : UInt64} {t t' : Stream} (h : t.Sendable id)
    (hissued : t'.issued = t.issued) : t'.Sendable id := by
  rw [sendable_iff] at h ⊢
  rwa [hissued]

/-- Whether what it reads of the ring can be sent is decided by what follows the
cursor, as far as the estimate goes. -/
theorem reading_sendable {id : UInt64} {t : Stream} (h : t.Sendable id) {limits : Limits}
    (hbytes : 0 < limits.pushBytes) (shared : Shared) (granted : ℕ) {g : ℕ}
    (hphase : t.phase = .reading g) :
    (t.step limits shared granted).Sendable id ↔
      ∀ es, es <+: (shared.ring.following t.cursor).take (min (g - t.used) limits.push) →
        Ring.Admits limits.pushBytes es →
          recordsSize id.toNat (es.map Entry.pushed) ≤ maxFrame := by
  cases hread : shared.ring.readAfter t.cursor (min (g - t.used) limits.push)
      limits.pushBytes with
  | tooOld =>
      have hstep : (t.step limits shared granted).issued = t.issued := by
        simp only [step, hphase, hread, issued]
      refine ⟨fun _ es hes _ => ?_, fun _ => sendable_congr h hstep⟩
      rcases shared.ring.readAfter_eq t.cursor (min (g - t.used) limits.push)
        limits.pushBytes with ⟨-, hnone⟩ | htaken
      · rw [hnone, List.take_nil] at hes
        rw [List.prefix_nil.mp hes]
        exact recordsSize_nil id
      · rw [hread] at htaken
        cases htaken
  | records es =>
      rw [read_fits_iff hbytes hread]
      cases es with
      | nil =>
          have hstep : (t.step limits shared granted).issued = t.issued := by
            simp only [step, hphase, hread, issued]
          exact ⟨fun _ => recordsSize_nil id, fun _ => sendable_congr h hstep⟩
      | cons entry entries =>
          have hpush : (t.step limits shared granted).issued =
              t.issued ++ [.records ((entry :: entries).map Entry.pushed)] := by
            simp only [step, hphase, hread, push, issued]
          exact sendable_concat h hpush

theorem serve_sendable {id : UInt64} {t : Stream} (h : t.Sendable id) (shared : Shared)
    (granted : ℕ) : (Turn.next t (.serve shared granted : Turn D S)).Sendable id ↔
      Turn.Light id t (.serve shared granted : Turn D S) := by
  by_cases hreading : ∃ g, t.phase = .reading g
  · obtain ⟨g, hphase⟩ := hreading
    refine (reading_sendable h (by decide) shared granted hphase).trans ?_
    refine ⟨fun hl g' hg' => ?_, fun hl => hl g hphase⟩
    cases hphase.symm.trans hg'
    exact hl
  · have hnot : ∀ g, t.phase ≠ .reading g := fun g hg => hreading ⟨g, hg⟩
    exact ⟨fun _ g hg => absurd hg (hnot g), fun _ =>
      sendable_congr h (step_issued .default shared granted hnot)⟩

theorem view_sendable {id : UInt64} {t : Stream} (h : t.Sendable id) (a : Actor D S) :
    (Turn.next t (.view a)).Sendable id ↔ Turn.Light id t (.view a) := by
  by_cases hphase : t.phase = .opening
  · have hissued : (Turn.next t (.view a)).issued = t.issued ++
        [.view (Versioned.version a.log.view.view) (Versioned.state a.log.view.view)] := by
      simp only [Turn.next, hphase, issued]
      rfl
    exact (sendable_concat h hissued).trans ⟨fun hfits _ => hfits, fun hl => hl hphase⟩
  · have hnext : Turn.next t (.view a) = t := by
      rw [Turn.next]
      split
      · exact absurd ‹_› hphase
      · rfl
    rw [hnext]
    exact ⟨fun _ hopening => absurd hopening hphase, fun _ => h⟩

omit [Versioned V] in
/-- When the actor answers a catch-up with records. -/
theorem catchUp_records_iff {a : Actor D S} {after limit : ℕ} {es : List Entry} :
    a.catchUp after limit = .ok (.records es) ↔
      a.log.oldest ≤ succ64 after ∧
        ((a.log.readAfter after limit = .ok [] ∧ a.log.watermark ≤ after ∧ es = []) ∨
          ∃ first records, a.log.readAfter after limit = .ok (first :: records) ∧
            first.version = succ64 after ∧ Actor.entriesOf (first :: records) = .ok es) := by
  rw [Actor.catchUp]
  by_cases hgap : succ64 after < a.log.oldest
  · rw [if_pos hgap]
    refine ⟨fun h => ?_, fun h => absurd h.1 (not_le.mpr hgap)⟩
    cases h
  · rw [if_neg hgap, and_iff_right (not_lt.mp hgap)]
    cases hread : a.log.readAfter after limit with
    | error e =>
        constructor
        · intro h
          cases h
        · rintro (⟨h, -⟩ | ⟨first, records, h, -⟩) <;> cases h
    | ok records =>
        cases records with
        | nil =>
            dsimp only
            split
            · rename_i hreached
              constructor
              · intro h
                cases h
                exact .inl ⟨rfl, hreached, rfl⟩
              · rintro (⟨-, -, rfl⟩ | ⟨first, records, h, -⟩)
                · rfl
                · cases h
            · rename_i hbelow
              constructor
              · intro h
                cases h
              · rintro (⟨-, hreached, -⟩ | ⟨first, records, h, -⟩)
                · exact absurd hreached hbelow
                · cases h
        | cons first records =>
            dsimp only
            split
            · rename_i hversion
              constructor
              · intro h
                refine .inr ⟨first, records, rfl, hversion, ?_⟩
                split at h <;> cases h
                assumption
              · rintro (⟨h, -⟩ | ⟨first', records', h, -, hes⟩)
                · cases h
                · cases h
                  rw [hes]
            · rename_i hversion
              constructor
              · intro h
                cases h
              · rintro (⟨h, -⟩ | ⟨first', records', h, hversion', -⟩)
                · cases h
                · cases h
                  exact absurd hversion' hversion

theorem caughtUp_sendable {id : UInt64} {t : Stream} (h : t.Sendable id)
    (hissued : t.issued = t.sent) (r : Except Failure CatchUp) :
    (t.caughtUp r).Sendable id ↔ ∀ es, r = .ok (.records es) →
      recordsSize id.toNat (es.map Entry.pushed) ≤ maxFrame := by
  match r with
  | .error e =>
      have hnext : (t.caughtUp (.error e)).issued = t.issued ++ [.error e] := by
        rw [hissued]
        rfl
      refine (sendable_concat h hnext).trans ⟨fun _ es hes => ?_, fun _ => trivial⟩
      cases hes
  | .ok (.gap to_) =>
      have hnext : (t.caughtUp (.ok (.gap to_))).issued = t.issued ++ [.gap t.cursor to_] := by
        rw [hissued]
        rfl
      refine (sendable_concat h hnext).trans ⟨fun _ es hes => ?_, fun _ => trivial⟩
      cases hes
  | .ok (.records []) =>
      refine ⟨fun _ es hes => ?_, fun _ => sendable_congr h hissued.symm⟩
      cases hes
      exact recordsSize_nil id
  | .ok (.records (entry :: entries)) =>
      have hnext : (t.caughtUp (.ok (.records (entry :: entries)))).issued =
          t.issued ++ [.records ((entry :: entries).map Entry.pushed)] := by
        rw [hissued]
        rfl
      refine (sendable_concat h hnext).trans ⟨fun hfits es hes => ?_, fun hall => hall _ rfl⟩
      cases hes
      exact hfits

theorem catchUp_sendable {id : UInt64} {t : Stream} (h : t.Sendable id) (a : Actor D S) :
    (Turn.next t (.catchUp a)).Sendable id ↔ Turn.Light id t (.catchUp a) := by
  by_cases hawaiting : ∃ after limit, t.phase = .awaiting after limit
  · obtain ⟨after, limit, hphase⟩ := hawaiting
    have hnext : Turn.next t (.catchUp a) = t.caughtUp (a.catchUp after limit) := by
      simp only [Turn.next, hphase]
    rw [hnext, caughtUp_sendable h (by simp only [issued, hphase])]
    constructor
    · intro hall after' limit' hphase' hkept first records es hread hversion hes
      cases hphase.symm.trans hphase'
      exact hall es (catchUp_records_iff.mpr ⟨hkept, .inr ⟨first, records, hread, hversion, hes⟩⟩)
    · intro hlight es hanswer
      obtain ⟨hkept, ⟨-, -, rfl⟩ | ⟨first, records, hread, hversion, hes⟩⟩ :=
        catchUp_records_iff.mp hanswer
      · exact recordsSize_nil id
      · exact hlight after limit hphase hkept first records es hread hversion hes
  · have hnot : ∀ after limit, t.phase ≠ .awaiting after limit :=
      fun after limit hphase => hawaiting ⟨after, limit, hphase⟩
    have hnext : Turn.next t (.catchUp a) = t := by
      rw [Turn.next]
      split
      · exact absurd ‹_› (hnot _ _)
      · rfl
    rw [hnext]
    exact ⟨fun _ after limit hphase => absurd hphase (hnot after limit), fun _ => h⟩

/-- One turn queues a frame that can be sent if and only if it is light. -/
theorem turn_sendable_iff {id : UInt64} {t : Stream} (h : t.Sendable id) (turn : Turn D S) :
    (turn.next t).Sendable id ↔ turn.Light id t := by
  cases turn with
  | serve shared granted => exact serve_sendable h shared granted
  | view a => exact view_sendable h a
  | catchUp a => exact catchUp_sendable h a

theorem sendable_new (id : UInt64) (from_ : ℕ) (mode : Mode) : (new from_ mode).Sendable id := by
  have hissued : (new from_ mode).issued = [] := by cases mode <;> rfl
  rw [sendable_iff, hissued]
  exact List.forall_mem_nil _

/-- As long as the turns of a stream are light everything it queues can be sent,
and the first turn that is not queues a frame that cannot. -/
theorem sendable_iff_light {id : UInt64} {t : Stream}
    (h : Runs (fun t (turn : Turn D S) => turn.Light id t) t) :
    t.Sendable id ∧ ∀ turn : Turn D S, (turn.next t).Sendable id ↔ turn.Light id t := by
  have hsendable : t.Sendable id := by
    induction h with
    | start from_ mode => exact sendable_new id from_ mode
    | turn _ turn hok ih => exact (turn_sendable_iff ih turn).mpr hok
  exact ⟨hsendable, turn_sendable_iff hsendable⟩

end Stream

end

/-! ### Two patches too many -/

section

/-- The text of strings that need no escapes. -/
@[reducible] def plainText : TextCodec where
  toVec
    | .string s => ascii "\"" ++ ascii s ++ ascii "\""
    | _ => ascii "null"
  fromSlice _ := .error "expected value"
  invalidType _ expected := "invalid type: null, expected " ++ expected

attribute [local instance] plainText

/-- A patch of this many letters. -/
def letters (n : ℕ) : Json := .string (String.ofList (List.replicate n 'a'))

theorem length_letters (n : ℕ) : (TextCodec.toVec (letters n)).length = n + 2 := by
  have hquote : (ascii "\"").length = 1 := rfl
  have htext : TextCodec.toVec (letters n) =
      ascii "\"" ++ ascii (String.ofList (List.replicate n 'a')) ++ ascii "\"" := rfl
  rw [htext, List.length_append, List.length_append, hquote, ascii, String.toList_ofList,
    List.length_map, List.length_replicate]
  omega

theorem estimate_letters (n : ℕ) : estimate (letters n) = n + 2 := by
  have hsize : (List.replicate n 'a').utf8Encode.size = n := by
    induction n with
    | zero => rfl
    | succ n ih =>
        rw [List.replicate_succ, List.utf8Encode_cons, ByteArray.size_append, ih, Nat.add_comm]
        rfl
  rw [letters, estimate, ← String.size_toByteArray, String.toByteArray_ofList, hsize]

theorem accepted_letters {n : ℕ} (h : n ≤ 15728640) : Turn.Accepted (letters n) := by
  refine ⟨1, "log", [letters n], List.mem_singleton.mpr rfl, ?_⟩
  have hopen : (ascii "\x7b\"t\":\"append\",\"id\":").length = 19 := rfl
  have hid : (digits (1 : UInt64).toNat).length = 1 := rfl
  have hlog : (ascii ",\"log\":").length = 7 := rfl
  have hname : (TextCodec.toVec (.string "log")).length = 5 := rfl
  have hpatches : (ascii ",\"patches\":[").length = 12 := rfl
  have hclose : (ascii "]\x7d").length = 2 := rfl
  simp only [appendText, List.map_singleton, joined, List.length_append, hopen, hid, hlog, hname,
    hpatches, hclose, length_letters, maxFrame]
  omega

theorem letters_le (id v w n m : ℕ) :
    n + m ≤ recordsSize id [⟨v, letters n⟩, ⟨w, letters m⟩] := by
  simp only [recordsSize, recordSize, List.map_cons, List.map_nil, List.sum_cons, List.sum_nil,
    length_letters]
  omega

/-- Two patches of three and of fourteen MiB. -/
def oversized : Shared where
  ring := ⟨2, [⟨1, letters 3145728, 3145730⟩,
    ⟨2, letters 14680064, 14680066⟩], by decide, by decide⟩
  watermark := 2
  oldest := 1
  metrics := ⟨0, 0, 0⟩

theorem oversized_fed (t : Stream) (granted : ℕ) :
    Turn.Fed t (.serve oversized granted : Turn Noop (Archive Tick false)) := by
  refine ⟨⟨1, rfl, rfl, trivial⟩, fun e he => ?_⟩
  simp only [oversized, List.mem_cons, List.not_mem_nil, or_false] at he
  obtain rfl | rfl := he
  · exact ⟨accepted_letters (by decide), (estimate_letters _).symm⟩
  · exact ⟨accepted_letters (by decide), (estimate_letters _).symm⟩

theorem oversized_read : oversized.ring.readAfter 0 (min (2 - 0) Limits.default.push)
    Limits.default.pushBytes = .records oversized.ring.entries := by
  have hcut : ¬ Limits.default.pushBytes ≤ 0 + 3145730 := by decide
  have hskip : succ64 0 - 1 = 0 := by decide
  have hold : ¬ succ64 0 < 1 := by decide
  have hall : min (2 - 0) Limits.default.push = 2 := by decide
  simp only [Ring.readAfter, oversized, List.head?_cons, if_neg hold, hskip, List.drop_zero, hall,
    List.take_succ_cons, List.take_zero, Ring.takeBytes, if_neg hcut, ite_self]

theorem oversized_pushed : (Stream.step .default oversized 2 ⟨0, 0, .reading 2, []⟩).issued =
    [.records [⟨1, letters 3145728⟩, ⟨2, letters 14680064⟩]] := by
  rw [Stream.step]
  simp only [oversized_read]
  rfl

/-- A log of one small patch. -/
def small : Shared := ⟨⟨1, [⟨1, .null, 4⟩], by decide, by decide⟩, 1, 1, ⟨0, 0, 0⟩⟩

theorem small_light (t : Stream) (ht : t.cursor = 0) (granted : ℕ) :
    Turn.Light 1 t (.serve small granted : Turn Noop (Archive Tick false)) := by
  intro g _ es hes _
  have hall : (small.ring.following t.cursor).take (min (g - t.used) Limits.default.push) <+:
      [⟨1, .null, 4⟩] := by
    rw [ht]
    exact List.take_prefix _ _
  have hone : es.map Entry.pushed <+: [⟨1, .null⟩] := (hes.trans hall).map Entry.pushed
  exact (recordsSize_mono _ hone).trans (by decide)

/-- It is pushed, and can be sent. -/
theorem sendable_small : ∃ t : Stream, t.sent = [.records [⟨1, .null⟩]] ∧ t.Sendable 1 := by
  have h₀ : Stream.Runs (fun t (turn : Turn Noop (Archive Tick false)) => turn.Light 1 t)
      (.new 0 .records) := .start 0 .records
  have h₁ := h₀.turn (.serve small 1) (small_light _ rfl 1)
  have h₂ := h₁.turn (.serve small 1) (small_light _ rfl 1)
  have h₃ := h₂.turn (.serve small 1) (small_light _ rfl 1)
  have h₄ := h₃.turn (.serve small 1) (small_light _ rfl 1)
  exact ⟨_, rfl, (Stream.sendable_iff_light h₄).1⟩

/-- The estimate lets the second patch into the frame of the first. -/
theorem ring_oversized : ¬ ∀ (id : UInt64) (t : Stream),
    Stream.Runs (D := Noop) (S := Archive Tick false) Turn.Fed t → t.Sendable id := by
  intro h
  have h₀ : Stream.Runs (D := Noop) (S := Archive Tick false) Turn.Fed (.new 0 .records) :=
    .start 0 .records
  have h₁ := h₀.turn (.serve oversized 2) (oversized_fed _ 2)
  have h₂ : Stream.Runs (D := Noop) (S := Archive Tick false) Turn.Fed ⟨0, 0, .reading 2, []⟩ :=
    h₁.turn (.serve oversized 2) (oversized_fed _ 2)
  have hsent := (h 1 _ (h₂.turn (.serve oversized 2) (oversized_fed _ 2))).1
    [⟨1, letters 3145728⟩, ⟨2, letters 14680064⟩]
    (oversized_pushed.symm ▸ List.mem_cons_self)
  rw [encode_ok_iff, length_recordsText] at hsent
  exact absurd ((letters_le _ _ _ _ _).trans hsent) (by decide)

end

end Lug
