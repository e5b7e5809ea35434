import Lug.Lib.Raising
import Lug.Wal.Append

/-!
A failed append that can be cleaned up after: a system that lets what landed be zeroed
never leaves a store poisoned.
-/

namespace Lug.Wal

open Octets Faulty

/-- The kernel did not give up on a write. It may have been killed, or interrupted, or
have stopped short. -/
def Written.gains : Written → Bool
  | .fail => false
  | .count n => decide (0 < n)
  | _ => true

/-- What landed of a batch can be zeroed, unless the process is killed over it. -/
structure Env.Mends (env : Env) : Prop where
  erase : ∀ chunk, ∀ w ∈ env.written (.erase chunk), w.gains = true
  eraseSync : env.reply .eraseSync ≠ .fail

theorem Env.Calm.mends {env : Env} (h : env.Calm) : env.Mends := by
  refine ⟨fun chunk w hw => ?_, ?_⟩
  · rw [h.written] at hw
    cases hw
  · rw [h.reply]
    decide

/-- Something of a list of buffers is in its first chunk. -/
theorem chunk_nonempty {bufs : List Bytes} (hbufs : ∀ b ∈ bufs, b ≠ []) (hne : bufs ≠ []) :
    0 < (bufs.take iovMax).flatten.length := by
  obtain ⟨buf, rest, rfl⟩ := List.exists_cons_of_ne_nil hne
  have hbuf := List.length_pos_of_ne_nil (hbufs buf List.mem_cons_self)
  rw [iovMax, List.take_succ_cons, List.flatten_cons, List.length_append]
  omega

/-- A write the kernel does not give up on cannot fail. -/
theorem raises_pwritevLoop {path : Path} {fuel : ℕ} {results : List Written} {bufs : List Bytes}
    {offset : ℕ} (hbufs : ∀ b ∈ bufs, b ≠ [])
    (hfuel : results.length + bufs.flatten.length < fuel)
    (hgains : ∀ w ∈ results, w.gains = true) :
    Raises (pwritevLoop path fuel results bufs offset) fun _ => False := by
  induction fuel generalizing results bufs offset with
  | zero => omega
  | succ fuel ih =>
      rw [pwritevLoop]
      by_cases hempty : bufs = []
      case pos =>
        rw [hempty]
        exact raises_pure ()
      case neg =>
        rw [if_neg (by simpa using hempty)]
        have hchunk := chunk_nonempty hbufs hempty
        have htail : ∀ w ∈ results.tail, w.gains = true :=
          fun w hw => hgains w (List.mem_of_mem_tail hw)
        -- a round that writes something leaves less to write
        have hround : ∀ n, 0 < n → Raises (do
            Act.modify (Dir.edit path (overwrite offset ((bufs.take iovMax).flatten.take n)))
            pwritevLoop path fuel results.tail (advanceSlices n bufs) (offset + n))
              fun _ => False := by
          intro n hn
          refine raises_bind (raises_modify _) fun _ => ih (advanceSlices_nonempty hbufs) ?_ htail
          have hsplit := congrArg List.length (List.take_append_drop iovMax bufs)
          have hwhole : (bufs.take iovMax).flatten.length ≤ bufs.flatten.length := by
            conv => rhs; rw [← List.take_append_drop iovMax bufs, List.flatten_append,
              List.length_append]
            exact Nat.le_add_right ..
          rw [flatten_advanceSlices, List.length_drop, List.length_tail]
          omega
        cases results with
        | nil =>
            show Raises (if min (bufs.take iovMax).flatten.length
              (bufs.take iovMax).flatten.length = 0 then Act.throw () else _) _
            rw [min_self, if_neg hchunk.ne']
            exact hround _ hchunk
        | cons result results =>
            have hresult := hgains result List.mem_cons_self
            cases result with
            | fail => cases hresult
            | die => exact raises_die
            | interrupted =>
                refine ih hbufs ?_ htail
                rw [List.length_cons] at hfuel
                rw [List.tail_cons]
                omega
            | count n =>
                have hn : 0 < min n (bufs.take iovMax).flatten.length :=
                  lt_min (of_decide_eq_true hresult) hchunk
                show Raises (if min n (bufs.take iovMax).flatten.length = 0 then Act.throw ()
                  else _) _
                rw [if_neg hn.ne']
                exact hround _ hn

variable {env : Env}

theorem Env.Mends.raises_zeroLoop (h : env.Mends) {path : Path} {offset len : ℕ} (fuel chunk : ℕ) :
    Raises (zeroLoop env path offset len fuel chunk) fun _ => False := by
  induction fuel generalizing chunk with
  | zero => exact raises_pure ()
  | succ fuel ih =>
      rw [zeroLoop]
      split_ifs with hdone
      · exact raises_pure ()
      · refine raises_bind (raises_pwritevLoop ?_ (by omega) (h.erase chunk)) fun _ =>
          ih (chunk + 1)
        intro b hb hnil
        rw [List.mem_singleton] at hb
        have hlength : b.length = min (len - chunk * zeroChunk) zeroChunk := by
          rw [hb, length_zeroes]
        have hpos : 0 < zeroChunk := by decide
        rw [hnil, List.length_nil] at hlength
        omega

theorem raises_sys {α : Type} (path : Path) {p : Sys α} :
    Raises (sys path p) (fun e => e = .io path) :=
  raises_on (raises_mapError fun _ _ _ => rfl)

theorem raises_call (site : Site) (effect : Dir → Dir) (h : env.reply site ≠ .fail) :
    Raises (call env site effect) fun _ => False := by
  intro d
  refine ends_call (fun _ => ?_) (fun hfail => absurd hfail h) fun _ => ?_
  · exact fun e he => by cases he
  · exact fun e he => by cases he

/-- What a cleanup that gets through raises is what it was for. -/
theorem Env.Mends.raises_cleanUp (h : env.Mends) {segment : Segment} {file total : ℕ}
    {failure : Err} : Raises (cleanUp env segment file total failure) (fun e => e = failure) := by
  have hcleaned : Raises (sys segment.path (do
      zeroRange env (.segment file) segment.stop total
      call env .eraseSync id)) fun _ => False := by
    refine raises_on (raises_mapError (raises_bind (h.raises_zeroLoop _ _) fun _ => ?_))
    exact raises_call _ _ h.eraseSync
  intro m
  rw [cleanUp, ends_bind, ends_attempt]
  refine (hcleaned m).mono fun x m' hx => ?_
  cases x with
  | ok a =>
      show Ends (Act.throw failure : Op Unit) (fun x _ => ∀ e, x = .error e → e = failure) m'
      exact raises_throw (P := fun e => e = failure) rfl m'
  | error e => exact (hx e rfl).elim
  | died => exact fun e he => by cases he

/-- An error that leaves a store to be appended to. -/
def Err.Mended (e : Err) : Prop := ∀ path offset, e ≠ .cleanupFailed path offset

theorem mended_io (path : Path) : Err.Mended (.io path) := fun _ _ h => by cases h

theorem raises_sys_mended {α : Type} (path : Path) {p : Sys α} : Raises (sys path p) Err.Mended :=
  (raises_sys path).mono fun _ he => he ▸ mended_io path

theorem Env.Mends.raises_writeBatch [Crc32] (h : env.Mends) (records : List Record) :
    Raises (writeBatch env records) Err.Mended := by
  refine raises_bind raises_get fun m => ?_
  cases m.store.last with
  | none => exact raises_die
  | some segment =>
      cases m.store.active with
      | none => exact raises_die
      | some file =>
          refine raises_bind ?_ fun _ => ?_
          · refine raises_bind raises_get fun m => ?_
            split_ifs
            · exact raises_bind (raises_sys_mended _) fun _ => raises_modify _
            · exact raises_pure ()
          · intro m
            rw [ends_bind, ends_attempt]
            refine (raises_sys segment.path m).mono fun x m' hx => ?_
            cases x with
            | ok a => exact raises_modify _ m'
            | error e =>
                obtain rfl := hx e rfl
                exact h.raises_cleanUp.mono (fun _ he => he ▸ mended_io _) m'
            | died => exact fun e he => by cases he

theorem raises_rotate (first : ℕ) : Raises (rotate env first) Err.Mended := by
  have hclose : Raises (closeActive env) Err.Mended := by
    refine raises_bind raises_get fun m => raises_bind (raises_modify _) fun _ => ?_
    cases m.store.active with
    | none => exact raises_pure ()
    | some file =>
        cases m.store.last with
        | none => exact raises_pure ()
        | some segment =>
            exact raises_bind (raises_sys_mended _) fun _ => raises_sys_mended _
  refine raises_bind hclose fun _ => raises_bind raises_get fun m => ?_
  refine raises_bind (raises_sys_mended _) fun _ => raises_bind (raises_sys_mended _) fun _ => ?_
  refine raises_bind (raises_sys_mended _) fun _ => raises_bind (raises_sys_mended _) fun _ => ?_
  exact raises_bind (raises_sys_mended _) fun _ => raises_modify _

theorem validate_mended {n : ℕ} {records : List Record} {e : Err}
    (h : validate n records = .error e) : e.Mended := by
  induction records generalizing n with
  | nil => cases h
  | cons r records ih =>
      rw [validate] at h
      split_ifs at h
      · cases h
        exact fun _ _ he => by cases he
      · cases h
        exact fun _ _ he => by cases he
      · cases h
        exact fun _ _ he => by cases he
      · cases h
        exact fun _ _ he => by cases he
      · exact ih h

/-- Where what landed can be zeroed, a settled store is never poisoned by an append. -/
theorem Env.Mends.ends_append [Crc32] (h : env.Mends) {m : Machine} {records : List Record}
    (hrecovered : m.store.recovered = true) :
    Ends (append env records) (fun x _ => ∀ e, x = .error e → e.Mended) m := by
  rw [append]
  split_ifs with hempty
  · exact raises_pure () m
  · rw [ends_bind, ends_get, after_ok]
    cases m.store.poison with
    | some poison =>
        exact raises_throw (P := Err.Mended) (fun _ _ he => by cases he) m
    | none =>
        dsimp only
        rw [ends_bind, ensureRecovered, ends_bind, ends_get, after_ok, if_pos hrecovered, ends_pure,
          after_ok]
        refine raises_bind raises_get (fun m => ?_) m
        refine raises_bind (raises_lift fun e he => validate_mended he) fun _ => ?_
        split_ifs
        · exact raises_bind (raises_rotate _) fun _ => h.raises_writeBatch records
        · exact h.raises_writeBatch records

end Lug.Wal
