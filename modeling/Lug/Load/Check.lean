import Lug.Core.Json
import Lug.Core.Log
import Lug.Lib.Radix
import Lug.Lib.Utf8
import Lug.Lib.SortedMap
import Lug.Lib.Agree

/-!
`lug_load::check`, the ledger of a load test: what was issued, what was acknowledged, and
what every stream has received. Each call takes one more fact, or finds that it does not
agree with the others.
-/

namespace Lug.Load

open SortedMap

/-- `patch`: the sequence number in sixteen digits, filled up to the size. -/
def patch (sequence size : ℕ) : Json :=
  .string (String.ofList (Radix.hexDigits 16 sequence ++ List.replicate (size - 16) 'x'))

/-- `lug_proto::Record`. -/
structure Record where
  version : ℕ
  patch : Json

/-- Nanoseconds of some clock. -/
abbrev Instant := ℕ

/-- What ends a call early: an error, or an index that is out of bounds. -/
inductive Fault
  | error (message : String)
  | panic

structure Issued where
  log : ℕ
  intended : Instant
  ack : Option ℕ
  observed : Option ℕ

structure Stream where
  log : ℕ
  next : ℕ
  credit : ℕ

/-- `Ledger`. Its numbers are of the type `u64`, and wrap. -/
structure Ledger where
  issued : List Issued
  canonical : List (List (ℕ × ℕ))
  streams : List (ℕ × Stream)
  patchSize : ℕ
  durability : Durability
  ackCount : ℕ

/-- `last_key_value().map_or(0, |(v, _)| *v)`. -/
def lastKey (versions : List (ℕ × ℕ)) : ℕ := (versions.getLast?.map Prod.fst).getD 0

/-- Where a message says what it is about. -/
def place (log version : ℕ) : String := "log " ++ toString log ++ " version " ++ toString version

/-- The sequence number in the payload of a record. -/
def payload (patchSize log version : ℕ) : Json → Except Fault ℕ
  | .string text =>
      let bytes := Utf8.encode text.toList
      if bytes.length ≠ patchSize ∨ bytes.all (· < 128) = false then
        .error (.error (place log version ++ ": payload bytes changed"))
      else if bytes.length < 16 then .error .panic
      else if (bytes.drop 16).all (· = 120) = false then
        .error (.error (place log version ++ ": payload bytes changed"))
      else
        match Radix.fromStrRadix (2 ^ 64) (text.toList.take 16) with
        | none => .error (.error (place log version ++ ": invalid payload sequence"))
        | some sequence => .ok sequence
  | _ => .error (.error (place log version ++ ": payload is not a string"))

/-- A payload that passes is a numeral of sixteen characters, filled up. -/
theorem payload_ok {size log version sequence : ℕ} {p : Json}
    (h : payload size log version p = .ok sequence) :
    ∃ digits, p = .string (String.ofList (digits ++ List.replicate (size - 16) 'x')) ∧
      digits.length = 16 ∧ Radix.fromStrRadix (2 ^ 64) digits = some sequence := by
  unfold payload at h
  split at h
  · rename_i text
    dsimp only at h
    split_ifs at h with hbytes hshort hfill
    split at h
    · cases h
    · rename_i found hfound
      cases h
      obtain ⟨hlength, hascii⟩ := not_or.mp hbytes
      rw [not_not] at hlength
      rw [Bool.not_eq_false, List.all_eq_true] at hascii hfill
      have hchars := Utf8.ascii_of_encode fun b hb => of_decide_eq_true (hascii b hb)
      have hencode := Utf8.encode_ascii hchars
      rw [hencode, List.length_map] at hlength hshort
      refine ⟨text.toList.take 16, ?_, ?_, hfound⟩
      · have hrest : text.toList.drop 16 = List.replicate (size - 16) 'x' := by
          rw [List.eq_replicate_iff, List.length_drop, hlength]
          refine ⟨rfl, fun c hc => ?_⟩
          have hmem : c.toNat.toUInt8 ∈ (Utf8.encode text.toList).drop 16 := by
            rw [hencode, ← List.map_drop]
            exact List.mem_map_of_mem hc
          have hbyte := congrArg UInt8.toNat (of_decide_eq_true (hfill _ hmem))
          have hsmall := hchars c (List.mem_of_mem_drop hc)
          rw [Utf8.toNat_toUInt8 (by omega)] at hbyte
          rw [← Char.ofNat_toNat c, hbyte]
          rfl
        rw [← hrest, List.take_append_drop, String.ofList_toList]
      · rw [List.length_take]
        omega
  · cases h

/-- Where the checks of `payload` come out. -/
theorem payload_ofList {size log version sequence : ℕ} {cs : List Char}
    (hlength : (Utf8.encode cs).length = size) (hascii : (Utf8.encode cs).all (· < 128) = true)
    (hlong : 16 ≤ size) (hfill : ((Utf8.encode cs).drop 16).all (· = 120) = true)
    (hread : Radix.fromStrRadix (2 ^ 64) (cs.take 16) = some sequence) :
    payload size log version (.string (String.ofList cs)) = .ok sequence := by
  have hbytes : ¬((Utf8.encode cs).length ≠ size ∨ (Utf8.encode cs).all (· < 128) = false) :=
    not_or.mpr ⟨not_not.mpr hlength, by rw [hascii]; exact Bool.noConfusion⟩
  rw [payload, String.toList_ofList]
  simp only [if_neg hbytes, hfill, hread]
  exact if_neg (by omega)

namespace Ledger

def new (logs patchSize : ℕ) (durability : Durability) : Ledger :=
  ⟨[], List.replicate logs [], [], patchSize, durability, 0⟩

def issue (l : Ledger) (log : ℕ) (intended : Instant) : ℕ × Ledger :=
  (l.issued.length, { l with issued := l.issued ++ [⟨log, intended, none, none⟩] })

def subscribe (l : Ledger) (id log : ℕ) (from_ : UInt64) (credit : UInt32) :
    Except Fault Unit × Ledger :=
  let stream : Stream := ⟨log, (from_.toNat + 1) % 2 ^ 64, credit.toNat⟩
  (if (l.streams.lookup id).isSome then
    .error (.error ("duplicate harness stream id " ++ toString id)) else .ok (),
    { l with streams := insert id stream l.streams })

def grant (l : Ledger) (id : ℕ) (credit : UInt32) : Except Fault Unit × Ledger :=
  match l.streams.lookup id with
  | none => (.error (.error ("credit for unknown stream " ++ toString id)), l)
  | some stream =>
      let stream := { stream with credit := (stream.credit + credit.toNat) % 2 ^ 64 }
      (.ok (), { l with streams := insert id stream l.streams })

/-- `bind`: a version of a log carries a payload. -/
def bind (l : Ledger) (log version sequence : ℕ) : Except Fault Unit × Ledger :=
  if version = 0 then
    (.error (.error ("log " ++ toString log ++ ": observed version zero")), l)
  else
    match l.canonical[log]? with
    | none => (.error .panic, l)
    | some versions =>
        let l := { l with canonical := l.canonical.set log (insert version sequence versions) }
        match (versions.lookup version).filter (· ≠ sequence) with
        | some old =>
            (.error (.error ("ORDER MISMATCH: " ++ place log version ++ ": payload " ++
              toString old ++ " vs " ++ toString sequence)), l)
        | none =>
            match l.issued[sequence]? with
            | none =>
                (.error (.error (place log version ++ ": unissued payload " ++
                  toString sequence)), l)
            | some issued =>
                if issued.log ≠ log then
                  (.error (.error ("payload " ++ toString sequence ++ " belongs to log " ++
                    toString issued.log ++ ", received on log " ++ toString log)), l)
                else
                  match issued.observed.filter (· ≠ version) with
                  | some old =>
                      (.error (.error ("DUPLICATE APPEND: payload " ++ toString sequence ++
                        " mapped to versions " ++ toString old ++ " and " ++
                        toString version)), l)
                  | none =>
                      let issued := { issued with observed := some version }
                      (.ok (), { l with issued := l.issued.set sequence issued })

def ack (l : Ledger) (sequence : ℕ) (versions : List ℕ) (synced : ℕ) :
    Except Fault Instant × Ledger :=
  match versions with
  | [version] =>
      match l.issued[sequence]? with
      | none => (.error (.error ("ack of unissued append " ++ toString sequence)), l)
      | some issued =>
          if issued.ack.isSome then
            (.error (.error ("DUPLICATE ACK: append " ++ toString sequence)), l)
          else if l.durability = .durable ∧ synced < version then
            (.error (.error ("durable append " ++ toString sequence ++ ": synced " ++
              toString synced ++ " below acknowledged version " ++ toString version)), l)
          else
            match l.bind issued.log version sequence with
            | (.error e, l) => (.error e, l)
            | (.ok (), l) =>
                match l.issued[sequence]? with
                | none => (.error .panic, l)
                | some issued =>
                    let acked := { issued with ack := some version }
                    (.ok issued.intended, { l with
                      issued := l.issued.set sequence acked, ackCount := l.ackCount + 1 })
  | _ =>
      (.error (.error ("append " ++ toString sequence ++
        ": one Noop patch must mint one version, got " ++ toString versions)), l)

/-- One record of `records`. -/
def record (l : Ledger) (id : ℕ) (r : Record) : Except Fault Instant × Ledger :=
  match l.streams.lookup id with
  | none => (.error (.error ("records on unknown stream " ++ toString id)), l)
  | some stream =>
      if r.version ≠ stream.next then
        (.error (.error ("NONCONTIGUOUS STREAM " ++ toString id ++ ": expected version " ++
          toString stream.next ++ ", got " ++ toString r.version ++
          " (gap, duplicate or reorder)")), l)
      else if stream.credit = 0 then
        (.error (.error ("CREDIT VIOLATION: stream " ++ toString id ++ " pushed version " ++
          toString r.version ++ " without credit")), l)
      else
        let stream :=
          { stream with credit := stream.credit - 1, next := (stream.next + 1) % 2 ^ 64 }
        let l := { l with streams := insert id stream l.streams }
        match payload l.patchSize stream.log r.version r.patch with
        | .error e => (.error e, l)
        | .ok sequence =>
            match l.bind stream.log r.version sequence with
            | (.error e, l) => (.error e, l)
            | (.ok (), l) =>
                match l.issued[sequence]? with
                | none => (.error .panic, l)
                | some issued => (.ok issued.intended, l)

def records (l : Ledger) (id : ℕ) : List Record → Except Fault (List Instant) × Ledger
  | [] => (.ok [], l)
  | r :: rs =>
      match l.record id r with
      | (.error e, l) => (.error e, l)
      | (.ok intended, l) =>
          match l.records id rs with
          | (.error e, l) => (.error e, l)
          | (.ok rest, l) => (.ok (intended :: rest), l)

/-- What `finish` asks of a stream. -/
def finishStream (l : Ledger) (id : ℕ) (stream : Stream) : Except Fault Unit :=
  match l.canonical[stream.log]? with
  | none => .error .panic
  | some versions =>
      let seen := (stream.next + 2 ^ 64 - 1) % 2 ^ 64
      if seen ≠ lastKey versions then
        .error (.error ("SUBSCRIBER LOSS: stream " ++ toString id ++ " observed " ++
          toString seen ++ ", acknowledged through " ++ toString (lastKey versions)))
      else .ok ()

/-- What `finish` asks of a log. -/
def finishLog (log : ℕ) (versions : List (ℕ × ℕ)) : Except Fault Unit :=
  if lastKey versions ≠ versions.length then
    .error (.error ("log " ++ toString log ++
      ": acknowledged versions are not contiguous from 1"))
  else .ok ()

/-- `finish`. The streams are looked at in some order, which decides only which error is
reported. -/
def finish (l : Ledger) : Except Fault Unit :=
  if l.ackCount ≠ l.issued.length then
    .error (.error ("ACK LOSS: issued " ++ toString l.issued.length ++ ", acknowledged " ++
      toString l.ackCount))
  else do
    l.streams.forM fun (id, stream) => l.finishStream id stream
    l.canonical.zipIdx.forM fun (versions, log) => finishLog log versions

/-! ### What a call that returns Ok has found and done -/

section

variable {l l' : Ledger}

theorem subscribe_ok {id log : ℕ} {from_ : UInt64} {credit : UInt32}
    (h : l.subscribe id log from_ credit = (.ok (), l')) :
    l.streams.lookup id = none ∧ l' = { l with
      streams := insert id ⟨log, (from_.toNat + 1) % 2 ^ 64, credit.toNat⟩ l.streams } := by
  obtain ⟨hok, hl⟩ := Prod.mk.inj h
  split_ifs at hok with hsome
  exact ⟨Option.not_isSome_iff_eq_none.mp hsome, hl.symm⟩

theorem grant_ok {id : ℕ} {credit : UInt32} (h : l.grant id credit = (.ok (), l')) :
    ∃ stream, l.streams.lookup id = some stream ∧ l' = { l with
      streams := insert id
        { stream with credit := (stream.credit + credit.toNat) % 2 ^ 64 } l.streams } := by
  rw [grant] at h
  split at h
  · cases h
  · rename_i stream hstream
    cases h
    exact ⟨stream, hstream, rfl⟩

/-- A version was bound: the log has it for this payload or did not have it, and the payload
was not observed anywhere else. -/
structure Binds (l : Ledger) (log version sequence : ℕ) (l' : Ledger) : Prop where
  positive : version ≠ 0
  bound : ∃ versions issued, l.canonical[log]? = some versions ∧
    l.issued[sequence]? = some issued ∧ issued.log = log ∧
    (∀ old, versions.lookup version = some old → old = sequence) ∧
    (∀ old, issued.observed = some old → old = version) ∧
    l' = { l with
      canonical := l.canonical.set log (insert version sequence versions),
      issued := l.issued.set sequence { issued with observed := some version } }

theorem filter_eq_none {x : Option ℕ} {n : ℕ} (h : x.filter (· ≠ n) = none) :
    ∀ old, x = some old → old = n := by
  rintro old rfl
  by_contra hne
  have hkept : (some old).filter (· ≠ n) = some old :=
    Option.filter_some_pos (decide_eq_true hne)
  cases hkept.symm.trans h

theorem bind_ok {log version sequence : ℕ} (h : l.bind log version sequence = (.ok (), l')) :
    l.Binds log version sequence l' := by
  rw [bind] at h
  split_ifs at h with hzero
  · cases h
  · refine ⟨hzero, ?_⟩
    split at h
    · cases h
    · rename_i versions hversions
      dsimp only at h
      split at h
      · cases h
      · rename_i hsame
        split at h
        · cases h
        · rename_i issued hissued
          split_ifs at h with hlog
          · cases h
          · split at h
            · cases h
            · rename_i hobserved
              cases h
              exact ⟨versions, issued, hversions, hissued, not_not.mp hlog, filter_eq_none hsame,
                filter_eq_none hobserved, rfl⟩

theorem ack_ok {sequence : ℕ} {versions : List ℕ} {synced : ℕ} {intended : Instant}
    (h : l.ack sequence versions synced = (.ok intended, l')) :
    ∃ version issued l₁ issued₁, versions = [version] ∧ l.issued[sequence]? = some issued ∧
      issued.ack = none ∧ l.Binds issued.log version sequence l₁ ∧
      l₁.issued[sequence]? = some issued₁ ∧ l' = { l₁ with
        issued := l₁.issued.set sequence { issued₁ with ack := some version },
        ackCount := l₁.ackCount + 1 } := by
  unfold ack at h
  split at h
  · rename_i version
    split at h
    · cases h
    · rename_i issued hissued
      split_ifs at h with hacked hdurable
      · cases h
      · cases h
      · split at h
        · cases h
        · rename_i l₁ hbind
          split at h
          · cases h
          · rename_i issued₁ hissued₁
            cases h
            exact ⟨version, issued, l₁, issued₁, rfl, hissued,
              Option.not_isSome_iff_eq_none.mp hacked, bind_ok hbind, hissued₁, rfl⟩
  · cases h

theorem record_ok {id : ℕ} {r : Record} {intended : Instant}
    (h : l.record id r = (.ok intended, l')) :
    ∃ stream sequence, l.streams.lookup id = some stream ∧ r.version = stream.next ∧
      0 < stream.credit ∧
      payload l.patchSize stream.log r.version r.patch = .ok sequence ∧
      Binds { l with
        streams := insert id { stream with
          credit := stream.credit - 1, next := (stream.next + 1) % 2 ^ 64 } l.streams }
        stream.log r.version sequence l' := by
  rw [record] at h
  split at h
  · cases h
  · rename_i stream hstream
    split_ifs at h with hnext hcredit
    · cases h
    · cases h
    · dsimp only at h
      split at h
      · cases h
      · rename_i sequence hpayload
        split at h
        · cases h
        · rename_i l₁ hbind
          split at h
          · cases h
          · cases h
            exact ⟨stream, sequence, hstream, not_not.mp hnext, Nat.pos_of_ne_zero hcredit,
              hpayload, bind_ok hbind⟩

/-- A record that every check lets pass. -/
theorem record_eq {l l' : Ledger} {id sequence : ℕ} {r : Record} {stream : Stream}
    {issued : Issued} (hstream : l.streams.lookup id = some stream)
    (hversion : r.version = stream.next) (hcredit : stream.credit ≠ 0)
    (hpayload : payload l.patchSize stream.log r.version r.patch = .ok sequence)
    (hbind : bind { l with
      streams := insert id { stream with
        credit := stream.credit - 1, next := (stream.next + 1) % 2 ^ 64 } l.streams }
      stream.log r.version sequence = (.ok (), l'))
    (hissued : l'.issued[sequence]? = some issued) :
    l.record id r = (.ok issued.intended, l') := by
  rw [record, hstream]
  simp only [if_neg (not_not.mpr hversion), if_neg hcredit, hpayload, hbind, hissued]

theorem records_cons_ok {id : ℕ} {r : Record} {rs : List Record} {intended : List Instant}
    (h : l.records id (r :: rs) = (.ok intended, l')) :
    ∃ first rest l₁, l.record id r = (.ok first, l₁) ∧ l₁.records id rs = (.ok rest, l') := by
  rw [records] at h
  split at h
  · cases h
  · rename_i first l₁ hfirst
    split at h
    · cases h
    · rename_i rest l₂ hrest
      cases h
      exact ⟨first, rest, l₁, hfirst, hrest⟩

theorem forM_eq_ok {α : Type} {f : α → Except Fault Unit} {xs : List α} :
    xs.forM f = .ok () ↔ ∀ x ∈ xs, f x = .ok () := by
  induction xs with
  | nil => simp [pure, Except.pure]
  | cons x xs ih =>
      show (f x >>= fun _ => xs.forM f) = _ ↔ _
      rw [Except.bind_eq_ok, List.forall_mem_cons, ← ih]
      constructor
      · rintro ⟨u, hfirst, hrest⟩
        exact ⟨hfirst, hrest⟩
      · rintro ⟨hfirst, hrest⟩
        exact ⟨(), hfirst, hrest⟩

/-- What `finish` has found. -/
theorem finish_ok (h : l.finish = .ok ()) : l.ackCount = l.issued.length ∧
    (∀ id stream, (id, stream) ∈ l.streams → ∃ versions, l.canonical[stream.log]? = some versions ∧
      (stream.next + 2 ^ 64 - 1) % 2 ^ 64 = lastKey versions) ∧
    ∀ versions ∈ l.canonical, lastKey versions = versions.length := by
  rw [finish] at h
  split_ifs at h with hcount
  obtain ⟨u, hstreams, hlogs⟩ := Except.bind_eq_ok.mp h
  refine ⟨not_not.mp hcount, fun id stream hmem => ?_, fun versions hmem => ?_⟩
  · have hstream : l.finishStream id stream = .ok () := forM_eq_ok.mp hstreams _ hmem
    rw [finishStream] at hstream
    split at hstream
    · cases hstream
    · rename_i versions hversions
      dsimp only at hstream
      split_ifs at hstream with hseen
      exact ⟨versions, hversions, not_not.mp hseen⟩
  · obtain ⟨log, hlog⟩ := List.getElem?_of_mem hmem
    have hindexed : (versions, log) ∈ l.canonical.zipIdx :=
      List.mem_zipIdx_iff_getElem?.mpr hlog
    have hfinish : finishLog log versions = .ok () := forM_eq_ok.mp hlogs _ hindexed
    rw [finishLog] at hfinish
    split_ifs at hfinish with hcontiguous
    exact not_not.mp hcontiguous

end

end Ledger

/-! ### Runs -/

inductive Call
  | issue (log : ℕ) (intended : Instant)
  | subscribe (id log : ℕ) (from_ : UInt64) (credit : UInt32)
  | grant (id : ℕ) (credit : UInt32)
  | ack (sequence : ℕ) (versions : List ℕ) (synced : ℕ)
  | records (id : ℕ) (records : List Record)

namespace Ledger

/-- The call returned Ok, and left this ledger. -/
inductive Takes (l : Ledger) : Call → Ledger → Prop
  | issue (log : ℕ) (intended : Instant) : Takes l (.issue log intended) (l.issue log intended).2
  | subscribe {id log : ℕ} {from_ : UInt64} {credit : UInt32} {l' : Ledger}
      (ok : l.subscribe id log from_ credit = (.ok (), l')) :
      Takes l (.subscribe id log from_ credit) l'
  | grant {id : ℕ} {credit : UInt32} {l' : Ledger} (ok : l.grant id credit = (.ok (), l')) :
      Takes l (.grant id credit) l'
  | ack {sequence : ℕ} {versions : List ℕ} {synced : ℕ} {intended : Instant} {l' : Ledger}
      (ok : l.ack sequence versions synced = (.ok intended, l')) :
      Takes l (.ack sequence versions synced) l'
  | records {id : ℕ} {records : List Record} {intended : List Instant} {l' : Ledger}
      (ok : l.records id records = (.ok intended, l')) : Takes l (.records id records) l'

/-- Calls that all return Ok, one after the other. -/
inductive Runs (l : Ledger) : List Call → Ledger → Prop
  | nil : Runs l [] l
  | snoc {calls : List Call} {call : Call} {l' l'' : Ledger} (runs : Runs l calls l')
      (takes : l'.Takes call l'') : Runs l (calls ++ [call]) l''

end Ledger

end Lug.Load
