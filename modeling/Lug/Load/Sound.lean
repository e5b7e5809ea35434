import Mathlib.Data.List.Nodup
import Mathlib.Data.List.Perm.Subperm
import Mathlib.Data.Set.Function
import Lug.Lib.Consecutive
import Lug.Load.Books

/-!
What a ledger that finishes vouches for: on every log the acknowledged versions are 1 to
`n`, one for each payload issued to it, every stream has received all of them above where
it started, within its credit, and what it received for a version is its payload. Byte for
byte it is the payload only where nothing but its own digits stand in front.
-/

namespace Lug.Load

open SortedMap

/-! ### What a run was told -/

/-- What the calls of a run have said: the log of each payload, the acknowledgements, the
streams with their logs and starts, what each of them was delivered and granted. -/
structure History where
  issued : List ℕ
  acked : List (ℕ × ℕ)
  subscribed : List (ℕ × ℕ × UInt64)
  delivered : ℕ → List Record
  granted : ℕ → ℕ

namespace History

def empty : History := ⟨[], [], [], fun _ => [], fun _ => 0⟩

def deliver (h : History) (id : ℕ) (records : List Record) : History :=
  { h with delivered := Function.update h.delivered id (h.delivered id ++ records) }

def grant (h : History) (id : ℕ) (credit : UInt32) : History :=
  { h with granted := Function.update h.granted id (h.granted id + credit.toNat) }

def add (h : History) : Call → History
  | .issue log _ => { h with issued := h.issued ++ [log] }
  | .subscribe id log from_ credit =>
      { h.grant id credit with subscribed := h.subscribed ++ [(id, log, from_)] }
  | .grant id credit => h.grant id credit
  | .ack sequence versions _ => { h with acked := h.acked ++ versions.map (sequence, ·) }
  | .records id records => h.deliver id records

theorem deliver_nil (h : History) (id : ℕ) : h.deliver id [] = h := by
  rw [deliver, List.append_nil, Function.update_eq_self]

theorem deliver_append (h : History) (id : ℕ) (xs ys : List Record) :
    h.deliver id (xs ++ ys) = (h.deliver id xs).deliver id ys := by
  simp [deliver]

end History

/-- The history of a run. -/
def history (calls : List Call) : History := calls.foldl History.add .empty

theorem history_concat (calls : List Call) (call : Call) :
    history (calls ++ [call]) = (history calls).add call := List.foldl_concat ..

/-! ### Soundness -/

/-- A record whose payload has the form of one, and this number. -/
def Record.Reads (size : ℕ) (r : Record) (sequence : ℕ) : Prop :=
  ∃ digits, r.patch = .string (String.ofList (digits ++ List.replicate (size - 16) 'x')) ∧
    digits.length = 16 ∧ Radix.fromStrRadix (2 ^ 64) digits = some sequence

/-- On each log the versions 1 to `count` stand for the payloads issued to it, in this
order, and these are acknowledged at them, once each; every stream received them from its
start on, and the payload it received for each is the one the acknowledgement is for. -/
structure Ordered (size : ℕ) (h : History) (count : ℕ → ℕ) (order : ℕ → ℕ → ℕ) : Prop where
  bijection : ∀ log, Set.BijOn (order log) (Set.Icc 1 (count log)) {s | h.issued[s]? = some log}
  acks : ∀ sequence version, (sequence, version) ∈ h.acked ↔
    ∃ log, version ∈ Set.Icc 1 (count log) ∧ order log version = sequence
  once : (h.acked.map Prod.fst).Nodup
  streams : ∀ id log from_, (id, log, from_) ∈ h.subscribed →
    (h.delivered id).map Record.version =
      List.range' (from_.toNat + 1) (count log - from_.toNat)
  payloads : ∀ id, ∀ r ∈ h.delivered id, ∃ log from_, (id, log, from_) ∈ h.subscribed ∧
    r.Reads size (order log r.version)

/-- What was delivered is the patch that was issued, byte for byte. -/
def Exact (size : ℕ) (h : History) (order : ℕ → ℕ → ℕ) : Prop :=
  ∀ id, ∀ r ∈ h.delivered id, ∃ log from_, (id, log, from_) ∈ h.subscribed ∧
    r.patch = patch (order log r.version) size

/-- No stream was pushed more than it had been granted. -/
def Credited (calls : List Call) : Prop :=
  ∀ told, told <+: calls → ∀ id, ((history told).delivered id).length ≤ (history told).granted id

def Sound (size : ℕ) (calls : List Call) : Prop :=
  Credited calls ∧ ∃ count order, Ordered size (history calls) count order ∧
    Exact size (history calls) order

/-- No sign and no letter in upper case stands in the first sixteen characters. -/
def Record.Lower (r : Record) : Prop :=
  ∀ text, r.patch = .string text →
    ∀ c ∈ text.toList.take 16, c ≠ '+' ∧ ¬(65 ≤ c.toNat ∧ c.toNat ≤ 70)

/-! ### The invariant -/

/-- Where a stream stands that started behind `from_`, and has received this. -/
structure Stream.Stands (stream : Stream) (log : ℕ) (from_ : UInt64) (received : List Record) :
    Prop where
  log : stream.log = log
  fits : from_.toNat + received.length < 2 ^ 64
  next : stream.next = (from_.toNat + received.length + 1) % 2 ^ 64
  received : received.map Record.version = List.range' (from_.toNat + 1) received.length

/-- Streams that have been served a history. -/
structure Served (streams : List (ℕ × Stream)) (h : History) : Prop where
  subscribed : ∀ id log from_, (id, log, from_) ∈ h.subscribed →
    ∃ stream, streams.lookup id = some stream ∧ stream.Stands log from_ (h.delivered id)
  known : ∀ id stream, streams.lookup id = some stream →
    ∃ from_, (id, stream.log, from_) ∈ h.subscribed
  credit : ∀ id stream, streams.lookup id = some stream →
    stream.credit + (h.delivered id).length ≤ h.granted id
  silent : ∀ id, streams.lookup id = none → h.delivered id = []

/-- A ledger that has taken all of a history. -/
structure Ledger.Keeps (l : Ledger) (size : ℕ) (h : History) : Prop where
  books : l.Books
  patchSize : l.patchSize = size
  issued : l.issued.map Issued.log = h.issued
  acked : ∀ sequence version, (sequence, version) ∈ h.acked ↔ l.Acked sequence version
  once : (h.acked.map Prod.fst).Nodup
  count : l.ackCount = h.acked.length
  served : Served l.streams h
  payloads : ∀ id, ∀ r ∈ h.delivered id, ∃ log from_ sequence, (id, log, from_) ∈ h.subscribed ∧
    r.Reads size sequence ∧ l.Carries log r.version sequence

namespace Served

variable {streams : List (ℕ × Stream)} {h : History} {id : ℕ}

theorem subscribe (hserved : Served streams h) (hfresh : streams.lookup id = none) (log : ℕ)
    (from_ : UInt64) (credit : UInt32) :
    Served (insert id ⟨log, (from_.toNat + 1) % 2 ^ 64, credit.toNat⟩ streams)
      (h.add (.subscribe id log from_ credit)) where
  subscribed id' log' from' hmem := by
    have hold : ∀ {log'' from''}, (id, log'', from'') ∉ h.subscribed := fun hmem => by
      obtain ⟨stream, hlookup, -⟩ := hserved.subscribed _ _ _ hmem
      cases hfresh.symm.trans hlookup
    obtain hmem | hmem := List.mem_append.mp hmem
    · have hne : id' ≠ id := fun heq => hold (heq ▸ hmem)
      rw [lookup_insert_of_ne hne]
      exact hserved.subscribed id' log' from' hmem
    · cases List.mem_singleton.mp hmem
      refine ⟨_, lookup_insert_self, ?_⟩
      show Stream.Stands _ log from_ (h.delivered id)
      rw [hserved.silent id hfresh]
      exact ⟨rfl, from_.toNat_lt, rfl, rfl⟩
  known id' stream hlookup := by
    by_cases hid : id' = id
    · subst hid
      cases lookup_insert_self.symm.trans hlookup
      exact ⟨from_, List.mem_append_right _ List.mem_cons_self⟩
    · rw [lookup_insert_of_ne hid] at hlookup
      obtain ⟨from', hmem⟩ := hserved.known id' stream hlookup
      exact ⟨from', List.mem_append_left _ hmem⟩
  credit id' stream hlookup := by
    show _ + (h.delivered id').length ≤ Function.update h.granted id _ id'
    by_cases hid : id' = id
    · subst hid
      cases lookup_insert_self.symm.trans hlookup
      rw [hserved.silent id' hfresh, Function.update_self]
      exact Nat.le_add_left _ _
    · rw [lookup_insert_of_ne hid] at hlookup
      rw [Function.update_of_ne hid]
      exact hserved.credit id' stream hlookup
  silent id' hlookup := by
    by_cases hid : id' = id
    · subst hid
      cases lookup_insert_self.symm.trans hlookup
    · rw [lookup_insert_of_ne hid] at hlookup
      exact hserved.silent id' hlookup

theorem grant (hserved : Served streams h) {stream : Stream}
    (hstream : streams.lookup id = some stream) (credit : UInt32) :
    Served (insert id { stream with credit := (stream.credit + credit.toNat) % 2 ^ 64 } streams)
      (h.grant id credit) where
  subscribed id' log from_ hmem := by
    obtain ⟨stream', hlookup, hstands⟩ := hserved.subscribed id' log from_ hmem
    by_cases hid : id' = id
    · subst hid
      cases hstream.symm.trans hlookup
      exact ⟨_, lookup_insert_self, hstands.log, hstands.fits, hstands.next, hstands.received⟩
    · exact ⟨stream', (lookup_insert_of_ne hid).trans hlookup, hstands⟩
  known id' stream' hlookup := by
    by_cases hid : id' = id
    · subst hid
      cases lookup_insert_self.symm.trans hlookup
      exact hserved.known id' stream hstream
    · rw [lookup_insert_of_ne hid] at hlookup
      exact hserved.known id' stream' hlookup
  credit id' stream' hlookup := by
    show _ + (h.delivered id').length ≤ Function.update h.granted id _ id'
    by_cases hid : id' = id
    · subst hid
      cases lookup_insert_self.symm.trans hlookup
      have hcredit := hserved.credit id' stream hstream
      -- A credit that wraps is none that was not granted.
      have hwrap := Nat.mod_le (stream.credit + credit.toNat) (2 ^ 64)
      rw [Function.update_self]
      dsimp only
      omega
    · rw [lookup_insert_of_ne hid] at hlookup
      rw [Function.update_of_ne hid]
      exact hserved.credit id' stream' hlookup
  silent id' hlookup := by
    by_cases hid : id' = id
    · subst hid
      cases lookup_insert_self.symm.trans hlookup
    · rw [lookup_insert_of_ne hid] at hlookup
      exact hserved.silent id' hlookup

/-- A record of the version a stream waits for, which is not 0. -/
theorem deliver (hserved : Served streams h) {stream : Stream}
    (hstream : streams.lookup id = some stream) {r : Record} (hversion : r.version = stream.next)
    (hpositive : r.version ≠ 0) (hcredit : 0 < stream.credit) :
    Served (insert id { stream with
      credit := stream.credit - 1, next := (stream.next + 1) % 2 ^ 64 } streams)
      (h.deliver id [r]) where
  subscribed id' log from_ hmem := by
    obtain ⟨stream', hlookup, hstands⟩ := hserved.subscribed id' log from_ hmem
    show ∃ s, _ ∧ Stream.Stands s log from_ (Function.update h.delivered id _ id')
    by_cases hid : id' = id
    · subst hid
      cases hstream.symm.trans hlookup
      obtain ⟨hlog, hfits, hnext, hreceived⟩ := hstands
      rw [Function.update_self]
      -- The version would be 0 if the next one did not fit.
      have hstep : from_.toNat + (h.delivered id').length + 1 < 2 ^ 64 := by
        by_contra hge
        have hfull : from_.toNat + (h.delivered id').length + 1 = 2 ^ 64 := by omega
        rw [hfull, Nat.mod_self] at hnext
        exact hpositive (hversion.trans hnext)
      rw [Nat.mod_eq_of_lt hstep] at hnext
      refine ⟨_, lookup_insert_self, hlog, ?_, ?_, ?_⟩
      · rw [List.length_append, List.length_singleton]
        exact hstep
      · rw [List.length_append, List.length_singleton, ← Nat.add_assoc, ← hnext]
      · rw [List.map_append, hreceived, List.length_append, List.length_singleton,
          List.range'_concat, List.map_singleton, hversion, hnext, Nat.one_mul]
        congr 2
        omega
    · rw [Function.update_of_ne hid]
      exact ⟨stream', (lookup_insert_of_ne hid).trans hlookup, hstands⟩
  known id' stream' hlookup := by
    by_cases hid : id' = id
    · subst hid
      cases lookup_insert_self.symm.trans hlookup
      exact hserved.known id' stream hstream
    · rw [lookup_insert_of_ne hid] at hlookup
      exact hserved.known id' stream' hlookup
  credit id' stream' hlookup := by
    show _ + (Function.update h.delivered id _ id').length ≤ h.granted id'
    by_cases hid : id' = id
    · subst hid
      cases lookup_insert_self.symm.trans hlookup
      have hold := hserved.credit id' stream hstream
      rw [Function.update_self, List.length_append, List.length_singleton]
      dsimp only
      omega
    · rw [lookup_insert_of_ne hid] at hlookup
      rw [Function.update_of_ne hid]
      exact hserved.credit id' stream' hlookup
  silent id' hlookup := by
    show Function.update h.delivered id _ id' = []
    by_cases hid : id' = id
    · subst hid
      cases lookup_insert_self.symm.trans hlookup
    · rw [lookup_insert_of_ne hid] at hlookup
      rw [Function.update_of_ne hid]
      exact hserved.silent id' hlookup

end Served

namespace Ledger.Keeps

variable {l l' : Ledger} {size : ℕ} {h : History}

theorem new (logs : ℕ) (durability : Durability) :
    (Ledger.new logs size durability).Keeps size .empty := by
  have hcarries : ∀ {log version sequence}, ¬(Ledger.new logs size durability).Carries log version
      sequence := by
    rintro log version sequence ⟨versions, hversions, hlookup⟩
    cases List.eq_of_mem_replicate (List.mem_of_getElem? hversions)
    cases hlookup
  have hissued : ∀ {sequence issued},
      (Ledger.new logs size durability).issued[sequence]? ≠ some issued := fun h => by
    cases (List.getElem?_nil.symm.trans h)
  exact {
    books := {
      sorted := fun versions hmem => by
        rw [List.eq_of_mem_replicate hmem]
        exact sorted_nil
      positive := fun h => absurd h hcarries
      agree := fun _ _ _ => iff_of_false hcarries fun ⟨_, h, _⟩ => hissued h
      observed := fun ⟨_, h, _⟩ => absurd h hissued }
    patchSize := rfl
    issued := rfl
    acked := fun _ _ => iff_of_false nofun fun ⟨_, h, _⟩ => hissued h
    once := List.nodup_nil
    count := rfl
    served := ⟨nofun, nofun, nofun, fun _ _ => rfl⟩
    payloads := nofun }

theorem issue (hkeeps : l.Keeps size h) (log : ℕ) (intended : Instant) :
    (l.issue log intended).2.Keeps size (h.add (.issue log intended)) where
  books := hkeeps.books.issue
  patchSize := hkeeps.patchSize
  issued := by
    show (l.issued ++ [_]).map Issued.log = h.issued ++ [log]
    rw [List.map_append, hkeeps.issued]
    rfl
  acked sequence version := (hkeeps.acked sequence version).trans acked_issue.symm
  once := hkeeps.once
  count := hkeeps.count
  served := ⟨hkeeps.served.subscribed, hkeeps.served.known, hkeeps.served.credit,
    hkeeps.served.silent⟩
  payloads := hkeeps.payloads

theorem subscribe (hkeeps : l.Keeps size h) {id log : ℕ} {from_ : UInt64} {credit : UInt32}
    (ok : l.subscribe id log from_ credit = (.ok (), l')) :
    l'.Keeps size (h.add (.subscribe id log from_ credit)) := by
  obtain ⟨hfresh, rfl⟩ := subscribe_ok ok
  refine ⟨⟨hkeeps.books.sorted, hkeeps.books.positive, hkeeps.books.agree, hkeeps.books.observed⟩,
    hkeeps.patchSize, hkeeps.issued, hkeeps.acked, hkeeps.once, hkeeps.count,
    hkeeps.served.subscribe hfresh log from_ credit, ?_⟩
  intro id' r hr
  obtain ⟨log', from', sequence, hmem, hrest⟩ := hkeeps.payloads id' r hr
  exact ⟨log', from', sequence, List.mem_append_left _ hmem, hrest⟩

theorem grant (hkeeps : l.Keeps size h) {id : ℕ} {credit : UInt32}
    (ok : l.grant id credit = (.ok (), l')) : l'.Keeps size (h.add (.grant id credit)) := by
  obtain ⟨stream, hstream, rfl⟩ := grant_ok ok
  exact ⟨⟨hkeeps.books.sorted, hkeeps.books.positive, hkeeps.books.agree, hkeeps.books.observed⟩,
    hkeeps.patchSize, hkeeps.issued, hkeeps.acked, hkeeps.once, hkeeps.count,
    hkeeps.served.grant hstream credit, hkeeps.payloads⟩

theorem ack (hkeeps : l.Keeps size h) {sequence : ℕ} {versions : List ℕ} {synced : ℕ}
    {intended : Instant} (ok : l.ack sequence versions synced = (.ok intended, l')) :
    l'.Keeps size (h.add (.ack sequence versions synced)) := by
  obtain ⟨version, issued, l₁, issued₁, rfl, hissued, hnone, hbinds, hissued₁, rfl⟩ := ack_ok ok
  have hunacked : ∀ version', ¬l.Acked sequence version' := by
    rintro version' ⟨_, hsame, hacked⟩
    cases hissued.symm.trans hsame
    cases hnone.symm.trans hacked
  have hnone₁ : issued₁.ack = none := by
    refine Option.eq_none_iff_forall_ne_some.mpr fun version' hacked => ?_
    exact hunacked version' (hbinds.acked.mp ⟨issued₁, hissued₁, hacked⟩)
  obtain ⟨hlogs, hstreams, hsize, hcount⟩ := hbinds.frame
  have hobserves := hbinds.observes.mpr (.inr ⟨rfl, rfl, rfl⟩)
  have hbooks := (hkeeps.books.bind hbinds).acknowledge hissued₁ hnone₁ hobserves
  show (l₁.acknowledge sequence version issued₁).Keeps size _
  exact {
    books := hbooks
    patchSize := hsize.trans hkeeps.patchSize
    issued := (logs_acknowledge hissued₁).trans (hlogs.trans hkeeps.issued)
    acked := by
      intro sequence' version'
      rw [acked_acknowledge hissued₁ hnone₁, hbinds.acked, ← hkeeps.acked]
      show _ ∈ h.acked ++ [(sequence, version)] ↔ _
      rw [List.mem_append, List.mem_singleton, Prod.mk.injEq]
    once := by
      show ((h.acked ++ [(sequence, version)]).map Prod.fst).Nodup
      rw [List.map_append, List.map_singleton, List.nodup_append_comm, List.singleton_append,
        List.nodup_cons]
      refine ⟨fun hmem => ?_, hkeeps.once⟩
      obtain ⟨⟨_, version'⟩, hpair, rfl⟩ := List.mem_map.mp hmem
      exact hunacked version' ((hkeeps.acked _ _).mp hpair)
    count := by
      show l₁.ackCount + 1 = (h.acked ++ [(sequence, version)]).length
      rw [hcount, hkeeps.count, List.length_append, List.length_singleton]
    served := by
      show Served l₁.streams _
      rw [hstreams]
      exact ⟨hkeeps.served.subscribed, hkeeps.served.known, hkeeps.served.credit,
        hkeeps.served.silent⟩
    payloads := by
      intro id r hr
      obtain ⟨log, from_, sequence', hmem, hreads, hcarries⟩ := hkeeps.payloads id r hr
      exact ⟨log, from_, sequence', hmem, hreads, hbinds.carries.mpr (.inl hcarries)⟩ }

/-- One record of a delivery. -/
theorem record (hkeeps : l.Keeps size h) {id : ℕ} {r : Record} {intended : Instant}
    (ok : l.record id r = (.ok intended, l')) : l'.Keeps size (h.deliver id [r]) := by
  obtain ⟨stream, sequence, hstream, hversion, hcredit, hpayload, hbinds⟩ := record_ok ok
  obtain ⟨hlogs, hstreams, hsize, hcount⟩ := hbinds.frame
  have hserved := hkeeps.served.deliver hstream hversion hbinds.positive hcredit
  have hbooks : Books { l with
      streams := insert id { stream with
        credit := stream.credit - 1, next := (stream.next + 1) % 2 ^ 64 } l.streams } :=
    ⟨hkeeps.books.sorted, hkeeps.books.positive, hkeeps.books.agree, hkeeps.books.observed⟩
  exact {
    books := hbooks.bind hbinds
    patchSize := hsize.trans hkeeps.patchSize
    issued := hlogs.trans hkeeps.issued
    acked := fun sequence' version' =>
      (hkeeps.acked sequence' version').trans hbinds.acked.symm
    once := hkeeps.once
    count := hcount.trans hkeeps.count
    served := hstreams ▸ hserved
    payloads := by
      intro id' r' hr'
      change r' ∈ Function.update h.delivered id _ id' at hr'
      by_cases hid : id' = id
      · subst hid
        rw [Function.update_self] at hr'
        obtain hold | hnew := List.mem_append.mp hr'
        · obtain ⟨log, from_, sequence', hmem, hreads, hcarries⟩ := hkeeps.payloads id' r' hold
          exact ⟨log, from_, sequence', hmem, hreads, hbinds.carries.mpr (.inl hcarries)⟩
        · cases List.mem_singleton.mp hnew
          obtain ⟨from_, hmem⟩ := hkeeps.served.known id' stream hstream
          rw [hkeeps.patchSize] at hpayload
          exact ⟨stream.log, from_, sequence, hmem, payload_ok hpayload,
            hbinds.carries.mpr (.inr ⟨rfl, rfl, rfl⟩)⟩
      · rw [Function.update_of_ne hid] at hr'
        obtain ⟨log, from_, sequence', hmem, hreads, hcarries⟩ := hkeeps.payloads id' r' hr'
        exact ⟨log, from_, sequence', hmem, hreads, hbinds.carries.mpr (.inl hcarries)⟩ }

theorem records (hkeeps : l.Keeps size h) {id : ℕ} {rs : List Record} {intended : List Instant}
    (ok : l.records id rs = (.ok intended, l')) : l'.Keeps size (h.deliver id rs) := by
  induction rs generalizing l h intended with
  | nil =>
      cases ok
      rw [History.deliver_nil]
      exact hkeeps
  | cons r rs ih =>
      obtain ⟨first, rest, l₁, hfirst, hrest⟩ := records_cons_ok ok
      rw [← List.singleton_append, History.deliver_append]
      exact ih (hkeeps.record hfirst) hrest

theorem takes (hkeeps : l.Keeps size h) {call : Call} (ok : l.Takes call l') :
    l'.Keeps size (h.add call) := by
  cases ok with
  | issue log intended => exact hkeeps.issue log intended
  | subscribe ok => exact hkeeps.subscribe ok
  | grant ok => exact hkeeps.grant ok
  | ack ok => exact hkeeps.ack ok
  | records ok => exact hkeeps.records ok

end Ledger.Keeps

/-! ### What finishing adds -/

namespace Ledger

variable {l : Ledger}

/-- What a log carries, if there is such a log. -/
def versionsOf (l : Ledger) (log : ℕ) : List (ℕ × ℕ) := (l.canonical[log]?).getD []

def countOf (l : Ledger) (log : ℕ) : ℕ := (l.versionsOf log).length

def orderOf (l : Ledger) (log version : ℕ) : ℕ := ((l.versionsOf log).lookup version).getD 0

theorem lookup_versionsOf {log version sequence : ℕ} :
    (l.versionsOf log).lookup version = some sequence ↔ l.Carries log version sequence := by
  rw [versionsOf, Carries]
  cases l.canonical[log]? with
  | none =>
      refine iff_of_false (fun h => by cases h) ?_
      rintro ⟨_, h, -⟩
      cases h
  | some versions =>
      refine ⟨fun h => ⟨versions, rfl, h⟩, ?_⟩
      rintro ⟨_, hsame, h⟩
      cases hsame
      exact h

/-- The versions of a log are 1 to their number. -/
theorem keys_versionsOf (hbooks : l.Books)
    (hfinish : ∀ versions ∈ l.canonical, lastKey versions = versions.length) (log : ℕ) :
    (l.versionsOf log).map Prod.fst = List.range' 1 (l.countOf log) := by
  rw [countOf, ← List.length_map (f := Prod.fst)]
  have hmem : l.versionsOf log = [] ∨ l.versionsOf log ∈ l.canonical := by
    rw [versionsOf]
    cases h : l.canonical[log]? with
    | none => exact .inl rfl
    | some versions => exact .inr (List.mem_of_getElem? h)
  have hpositive : ∀ version ∈ (l.versionsOf log).map Prod.fst, 1 ≤ version := by
    intro version hversion
    obtain ⟨⟨_, sequence⟩, hpair, rfl⟩ := List.mem_map.mp hversion
    obtain hnil | hsome := hmem
    · rw [hnil] at hpair
      cases hpair
    · have hlookup := lookup_of_mem (hbooks.sorted _ hsome) hpair
      exact Nat.one_le_iff_ne_zero.mpr (hbooks.positive (lookup_versionsOf.mp hlookup))
  obtain hnil | hsome := hmem
  · rw [hnil]
    rfl
  · refine Runs.eq_range'_of_getLast (hbooks.sorted _ hsome) hpositive fun version hlast => ?_
    have hlength := hfinish _ hsome
    rw [lastKey, ← List.getLast?_map, hlast, Option.getD_some] at hlength
    rw [List.length_map, hlength, Nat.add_comm]

theorem carries_iff (hbooks : l.Books)
    (hfinish : ∀ versions ∈ l.canonical, lastKey versions = versions.length)
    {log version sequence : ℕ} : l.Carries log version sequence ↔
      version ∈ Set.Icc 1 (l.countOf log) ∧ l.orderOf log version = sequence := by
  have hrange : version ∈ Set.Icc 1 (l.countOf log) ↔
      ∃ sequence, (l.versionsOf log).lookup version = some sequence := by
    have hkeys : version ∈ (l.versionsOf log).map Prod.fst ↔
        version ∈ Set.Icc 1 (l.countOf log) := by
      rw [keys_versionsOf hbooks hfinish, List.mem_range'_1, Set.mem_Icc]
      omega
    have hmissing : (l.versionsOf log).lookup version = none ↔
        version ∉ (l.versionsOf log).map Prod.fst := by
      rw [lookup_eq_none_iff, List.mem_map]
      exact ⟨fun h ⟨e, he, heq⟩ => h e he heq, fun h e he heq => h ⟨e, he, heq⟩⟩
    rw [← hkeys, ← Option.isSome_iff_exists, Option.isSome_iff_ne_none, Ne, hmissing, not_not]
  rw [hrange, ← lookup_versionsOf, orderOf]
  constructor
  · intro h
    exact ⟨⟨sequence, h⟩, by rw [h]; rfl⟩
  · rintro ⟨⟨sequence', h⟩, heq⟩
    rw [h] at heq
    rw [h]
    exact congrArg some heq

/-- A payload is observed once. -/
theorem Observes.unique {log log' version version' sequence : ℕ}
    (h : l.Observes log version sequence) (h' : l.Observes log' version' sequence) :
    log = log' ∧ version = version' := by
  obtain ⟨issued, hissued, rfl, hobserved⟩ := h
  obtain ⟨issued', hissued', rfl, hobserved'⟩ := h'
  cases hissued.symm.trans hissued'
  exact ⟨rfl, Option.some.inj (hobserved.symm.trans hobserved')⟩

namespace Keeps

variable {size : ℕ} {h : History}

/-- With as many acknowledgements as payloads every payload has one. -/
theorem exists_acked (hkeeps : l.Keeps size h) (hcount : l.ackCount = l.issued.length)
    {sequence : ℕ} (hlt : sequence < l.issued.length) :
    ∃ version, (sequence, version) ∈ h.acked := by
  have hsubset : h.acked.map Prod.fst ⊆ List.range l.issued.length := by
    intro sequence' hmem
    obtain ⟨⟨_, version⟩, hpair, rfl⟩ := List.mem_map.mp hmem
    obtain ⟨issued, hissued, -⟩ := (hkeeps.acked _ _).mp hpair
    exact List.mem_range.mpr (List.getElem?_eq_some_iff.mp hissued).1
  have hlength : (List.range l.issued.length).length ≤ (h.acked.map Prod.fst).length := by
    rw [List.length_range, List.length_map, ← hcount, hkeeps.count]
  have hperm := (List.subperm_of_subset hkeeps.once hsubset).perm_of_length_le hlength
  obtain ⟨⟨_, version⟩, hpair, rfl⟩ :=
    List.mem_map.mp (hperm.mem_iff.mpr (List.mem_range.mpr hlt))
  exact ⟨version, hpair⟩

/-- A ledger that finishes has everything in order. -/
theorem ordered (hkeeps : l.Keeps size h) (hfinish : l.finish = .ok ()) :
    Ordered size h l.countOf l.orderOf := by
  obtain ⟨hcount, hstreams, hlogs⟩ := finish_ok hfinish
  have hcarries := @carries_iff _ hkeeps.books hlogs
  have hagree := hkeeps.books.agree
  have hissued : ∀ {log version sequence}, l.Observes log version sequence →
      h.issued[sequence]? = some log := by
    rintro log version sequence ⟨issued, hissued, rfl, -⟩
    rw [← hkeeps.issued, List.getElem?_map, hissued]
    rfl
  have hacked : ∀ {log version sequence}, l.Observes log version sequence →
      (sequence, version) ∈ h.acked := by
    intro log version sequence hobserves
    obtain ⟨issued, hsome, -⟩ := id hobserves
    obtain ⟨version', hmem⟩ :=
      hkeeps.exists_acked hcount (List.getElem?_eq_some_iff.mp hsome).1
    obtain ⟨log', hobserves'⟩ := hkeeps.books.observed ((hkeeps.acked _ _).mp hmem)
    rw [(hobserves.unique hobserves').2]
    exact hmem
  exact {
    bijection := by
      intro log
      refine ⟨fun version hversion => ?_, fun version hversion version' hversion' heq => ?_,
        fun sequence hsequence => ?_⟩
      · exact hissued ((hagree _ _ _).mp (hcarries.mpr ⟨hversion, rfl⟩))
      · have hobserves := (hagree _ _ _).mp (hcarries.mpr ⟨hversion, rfl⟩)
        have hobserves' := (hagree _ _ _).mp (hcarries.mpr ⟨hversion', heq.symm⟩)
        exact (hobserves.unique hobserves').2
      · have hlog : h.issued[sequence]? = some log := hsequence
        have hlt := (List.getElem?_eq_some_iff.mp hlog).1
        rw [← hkeeps.issued, List.length_map] at hlt
        obtain ⟨version, hmem⟩ := hkeeps.exists_acked hcount hlt
        obtain ⟨log', hobserves⟩ := hkeeps.books.observed ((hkeeps.acked _ _).mp hmem)
        cases hlog.symm.trans (hissued hobserves)
        exact ⟨version, hcarries.mp ((hagree _ _ _).mpr hobserves)⟩
    acks := by
      intro sequence version
      constructor
      · intro hmem
        obtain ⟨log, hobserves⟩ := hkeeps.books.observed ((hkeeps.acked _ _).mp hmem)
        exact ⟨log, hcarries.mp ((hagree _ _ _).mpr hobserves)⟩
      · rintro ⟨log, hversion⟩
        exact hacked ((hagree _ _ _).mp (hcarries.mpr hversion))
    once := hkeeps.once
    streams := by
      intro id log from_ hmem
      obtain ⟨stream, hlookup, rfl, hfits, hnext, hreceived⟩ :=
        hkeeps.served.subscribed id log from_ hmem
      obtain ⟨versions, hversions, hlast⟩ := hstreams id stream (mem_of_lookup hlookup)
      have hnumber : l.countOf stream.log = from_.toNat + (h.delivered id).length := by
        rw [countOf, versionsOf, hversions, Option.getD_some,
          ← hlogs versions (List.mem_of_getElem? hversions), ← hlast, hnext]
        omega
      rw [hreceived, hnumber, Nat.add_sub_cancel_left]
    payloads := by
      intro id r hr
      obtain ⟨log, from_, sequence, hmem, hreads, hcarried⟩ := hkeeps.payloads id r hr
      rw [← (hcarries.mp hcarried).2] at hreads
      exact ⟨log, from_, hmem, hreads⟩ }

end Keeps

namespace Runs

variable {l l' : Ledger} {size : ℕ} {calls : List Call}

theorem keeps {logs : ℕ} {durability : Durability}
    (h : (Ledger.new logs size durability).Runs calls l) : l.Keeps size (history calls) := by
  induction h with
  | nil => exact .new logs durability
  | snoc runs takes ih =>
      rw [history_concat]
      exact ih.takes takes

theorem credited {logs : ℕ} {durability : Durability}
    (h : (Ledger.new logs size durability).Runs calls l) : Credited calls := by
  have hwithin : ∀ {l calls}, (Ledger.new logs size durability).Runs calls l → ∀ id,
      ((history calls).delivered id).length ≤ (history calls).granted id := by
    intro l calls hruns id
    have hserved := hruns.keeps.served
    cases hlookup : l.streams.lookup id with
    | none =>
        rw [hserved.silent id hlookup]
        exact Nat.zero_le _
    | some stream => exact le_of_add_le_right (hserved.credit id stream hlookup)
  induction h with
  | nil =>
      intro told hprefix
      rw [List.prefix_nil.mp hprefix]
      exact hwithin .nil
  | snoc runs takes ih =>
      intro told hprefix
      obtain rfl | hshorter := List.prefix_concat_iff.mp hprefix
      · exact hwithin (.snoc runs takes)
      · exact ih told hshorter

end Runs

end Ledger

/-! ### Byte for byte -/

/-- In lower case and without a sign, a payload is the patch of its number. -/
theorem Record.Reads.eq_patch {size sequence : ℕ} {r : Record} (h : r.Reads size sequence)
    (hlower : r.Lower) : r.patch = Load.patch sequence size := by
  obtain ⟨digits, hpatch, hlength, hread⟩ := h
  have hdigits : ∀ c ∈ digits, c ≠ '+' ∧ ¬(65 ≤ c.toNat ∧ c.toNat ≤ 70) := by
    have hfirst := hlower _ hpatch
    rwa [String.toList_ofList, List.take_left' hlength] at hfirst
  have hsign : digits.head? ≠ some '+' := fun hhead =>
    (hdigits '+' (List.mem_of_head? hhead)).1 rfl
  have hnumber := Radix.hexNumber_of_fromStrRadix hread hsign
  have hplain := Radix.hexDigits_of_hexNumber hnumber fun c hc =>
    ⟨Radix.isSome_of_hexNumber hnumber c hc, (hdigits c hc).2⟩
  rw [hlength] at hplain
  rw [hpatch, Load.patch, ← hplain]

theorem Record.lower_of_eq_patch {size sequence : ℕ} {r : Record}
    (h : r.patch = Load.patch sequence size) : r.Lower := by
  intro text htext c hc
  rw [h, Load.patch] at htext
  rw [← Json.string.inj htext, String.toList_ofList, List.take_left' (Radix.length_hexDigits _ _)] at hc
  have hplain := Radix.plain_of_mem hc
  refine ⟨?_, hplain.2⟩
  rintro rfl
  exact absurd hplain.1 (by decide)

/-- In every run that finishes, versions, acknowledgements and streams are in order, and no
stream had more than its credit; and the run is sound if and only if what it delivered had
neither a sign nor a letter in upper case among its first sixteen characters. -/
theorem sound_iff {logs size : ℕ} {durability : Durability} {calls : List Call} {l : Ledger}
    (hruns : (Ledger.new logs size durability).Runs calls l) (hfinish : l.finish = .ok ()) :
    (Credited calls ∧ ∃ count order, Ordered size (history calls) count order) ∧
      (Sound size calls ↔ ∀ id, ∀ r ∈ (history calls).delivered id, r.Lower) := by
  have hordered := hruns.keeps.ordered hfinish
  refine ⟨⟨hruns.credited, l.countOf, l.orderOf, hordered⟩, ?_, ?_⟩
  · rintro ⟨-, count, order, -, hexact⟩ id r hr
    obtain ⟨log, from_, -, hpatch⟩ := hexact id r hr
    exact Record.lower_of_eq_patch hpatch
  · intro hlower
    refine ⟨hruns.credited, l.countOf, l.orderOf, hordered, fun id r hr => ?_⟩
    obtain ⟨log, from_, hmem, hreads⟩ := hordered.payloads id r hr
    exact ⟨log, from_, hmem, hreads.eq_patch (hlower id r hr)⟩

/-! ### One payload, in two forms -/

/-- A payload is issued, delivered in this form, and acknowledged. -/
def delivering (cs : List Char) : List Call :=
  [.issue 0 0] ++ [.subscribe 10 0 0 1] ++ [.records 10 [⟨1, .string (String.ofList cs)⟩]] ++
    [.ack 0 [1] 1]

/-- The ledger before the delivery, after it, and in the end. -/
def waiting : Ledger := ⟨[⟨0, 0, none, none⟩], [[]], [(10, ⟨0, 1, 1⟩)], 32, .durable, 0⟩

def received : Ledger := ⟨[⟨0, 0, none, some 1⟩], [[(1, 0)]], [(10, ⟨0, 2, 0⟩)], 32, .durable, 0⟩

def settled : Ledger :=
  ⟨[⟨0, 0, some 1, some 1⟩], [[(1, 0)]], [(10, ⟨0, 2, 0⟩)], 32, .durable, 1⟩

theorem runs_delivering {cs : List Char}
    (h : payload 32 0 1 (.string (String.ofList cs)) = .ok 0) :
    (Ledger.new 1 32 .durable).Runs (delivering cs) settled := by
  have hissue : (Ledger.new 1 32 .durable).Takes (.issue 0 0)
      ⟨[⟨0, 0, none, none⟩], [[]], [], 32, .durable, 0⟩ := .issue 0 0
  have hsubscribe : Ledger.Takes ⟨[⟨0, 0, none, none⟩], [[]], [], 32, .durable, 0⟩
      (.subscribe 10 0 0 1) waiting := .subscribe rfl
  have hstream : waiting.streams.lookup 10 = some ⟨0, 1, 1⟩ := rfl
  have hbind : Ledger.bind ⟨waiting.issued, waiting.canonical, received.streams, 32, .durable, 0⟩
      0 1 0 = (.ok (), received) := rfl
  have hversion : (⟨1, .string (String.ofList cs)⟩ : Record).version =
      (⟨0, 1, 1⟩ : Stream).next := rfl
  have hrecord : waiting.record 10 ⟨1, .string (String.ofList cs)⟩ = (.ok 0, received) :=
    Ledger.record_eq hstream hversion Nat.one_ne_zero h hbind rfl
  have hrecords : waiting.records 10 [⟨1, .string (String.ofList cs)⟩] =
      (.ok [0], received) := by
    rw [Ledger.records, hrecord]
    rfl
  have hack : received.Takes (.ack 0 [1] 1) settled := .ack rfl
  exact .snoc (.snoc (.snoc (.snoc .nil hissue) hsubscribe) (.records hrecords)) hack

/-- In the form it was issued in. -/
def plain : List Char := List.replicate 16 '0' ++ List.replicate 16 'x'

/-- With a sign for its first digit. -/
def signed : List Char := '+' :: List.replicate 15 '0' ++ List.replicate 16 'x'

theorem sound_iff_plain : Sound 32 (delivering plain) := by
  have hpayload : payload 32 0 1 (.string (String.ofList plain)) = .ok 0 :=
    payload_ofList (by decide) (by decide) (by decide) (by decide) (by decide)
  refine (sound_iff (runs_delivering hpayload) rfl).2.mpr fun id r hr => ?_
  change r ∈ Function.update (fun _ => []) 10 ([] ++ [_]) id at hr
  by_cases hid : id = 10
  · rw [hid, Function.update_self] at hr
    rw [List.mem_singleton.mp hr]
    exact Record.lower_of_eq_patch (show _ = Load.patch 0 32 from rfl)
  · rw [Function.update_of_ne hid] at hr
    cases hr

/-- A sign for the first digit goes unnoticed: the run finishes, and what was delivered is
not what was issued. -/
theorem signed_finishes : ¬ ∀ logs size durability calls l, 16 ≤ size →
    (Ledger.new logs size durability).Runs calls l → l.finish = .ok () → Sound size calls := by
  intro h
  have hpayload : payload 32 0 1 (.string (String.ofList signed)) = .ok 0 :=
    payload_ofList (by decide) (by decide) (by decide) (by decide) (by decide)
  obtain ⟨-, count, order, -, hexact⟩ := h 1 32 .durable _ settled (by decide)
    (runs_delivering hpayload) rfl
  obtain ⟨log, from_, -, hpatch⟩ := hexact 10 ⟨1, .string (String.ofList signed)⟩ (by
    show _ ∈ Function.update (fun _ => []) 10 ([] ++ [_]) 10
    rw [Function.update_self]
    exact List.mem_cons_self)
  have hlower := Record.lower_of_eq_patch hpatch _ rfl '+' (by
    rw [String.toList_ofList]
    decide)
  exact hlower.1 rfl

end Lug.Load
