import Lug.Wal.Sys

/-!
`pwritev_all` and `zero_range` over every list of buffers and every answer of the
kernel: what they were asked to write, or the head of it, and not a byte beside it.
-/

namespace Lug.Wal

open Octets Faulty

namespace Dir

variable {d : Dir} {path : Path}

theorem bytes_put_of_ne {p : Path} (h : p ≠ path) (content : Bytes) :
    (d.put path content).bytes p = d.bytes p := by
  match path, p with
  | .dir, _ => rfl
  | .header, .header | .headerTmp, .headerTmp => exact absurd rfl h
  | .header, .dir | .header, .headerTmp | .header, .segment _ => rfl
  | .headerTmp, .dir | .headerTmp, .header | .headerTmp, .segment _ => rfl
  | .segment _, .dir | .segment _, .header | .segment _, .headerTmp => rfl
  | .segment first, .segment first' =>
      have hne : first' ≠ first := by
        rintro rfl
        exact h rfl
      exact SortedMap.lookup_insert_of_ne hne

/-- Only the file at `path` is another, with this content. -/
def Holds (d : Dir) (path : Path) (content : Bytes) (d' : Dir) : Prop :=
  d'.bytes path = some content ∧ ∀ p, p ≠ path → d'.bytes p = d.bytes p

theorem holds_edit {content : Bytes} (f : Bytes → Bytes) (h : d.bytes path = some content) :
    d.Holds path (f content) (d.edit path f) := by
  have hdir : path ≠ .dir := by
    rintro rfl
    cases h
  rw [edit_of_bytes f h]
  exact ⟨bytes_put hdir _, fun p hp => bytes_put_of_ne hp _⟩

end Dir

/-- The kernel was not interrupted: it wrote, or gave up. -/
def Written.settles : Written → Bool
  | .interrupted => false
  | _ => true

/-- Every answer that is no interruption ends the loop or writes a byte, so it is over
before it used up as many of them as there are bytes to write, whatever it is told
later and however many rounds it may take. -/
theorem pwritevLoop_over {path : Path} {results : List Written} (more more' : List Written)
    {bufs : List Bytes} {offset fuel fuel' : ℕ} (hbufs : ∀ b ∈ bufs, b ≠ [])
    (hprogress : bufs.flatten.length ≤ results.countP Written.settles)
    (hfuel : results.length < fuel) (hfuel' : results.length < fuel') :
    pwritevLoop path fuel (results ++ more) bufs offset =
      pwritevLoop path fuel' (results ++ more') bufs offset := by
  induction results generalizing bufs offset fuel fuel' with
  | nil =>
      have hempty : bufs = [] := by
        refine List.eq_nil_iff_forall_not_mem.mpr fun b hb => hbufs b hb ?_
        rw [List.countP_nil] at hprogress
        exact List.flatten_eq_nil_iff.mp (List.length_eq_zero_iff.mp (by omega)) b hb
      obtain ⟨fuel, rfl⟩ := Nat.exists_eq_succ_of_ne_zero hfuel.ne'
      obtain ⟨fuel', rfl⟩ := Nat.exists_eq_succ_of_ne_zero hfuel'.ne'
      rw [hempty, pwritevLoop, pwritevLoop]
      rfl
  | cons result results ih =>
      obtain ⟨fuel, rfl⟩ := Nat.exists_eq_succ_of_ne_zero (Nat.ne_zero_of_lt hfuel)
      obtain ⟨fuel', rfl⟩ := Nat.exists_eq_succ_of_ne_zero (Nat.ne_zero_of_lt hfuel')
      rw [List.length_cons, Nat.succ_lt_succ_iff] at hfuel hfuel'
      rw [pwritevLoop, pwritevLoop]
      simp only [List.cons_append, List.headD_cons, List.tail_cons]
      by_cases hempty : bufs.isEmpty = true
      · rw [if_pos hempty, if_pos hempty]
      · rw [if_neg hempty, if_neg hempty]
        cases result with
        | fail => rfl
        | die => rfl
        | interrupted =>
            rw [List.countP_cons_of_neg (by simp [Written.settles])] at hprogress
            exact ih hbufs hprogress hfuel hfuel'
        | count n =>
            rw [List.countP_cons_of_pos rfl] at hprogress
            dsimp only
            split_ifs with hzero
            · rfl
            · have hrest : ∀ written, 0 < written →
                  (advanceSlices written bufs).flatten.length ≤ results.countP Written.settles := by
                intro written hpos
                rw [flatten_advanceSlices, List.length_drop]
                omega
              rw [ih (advanceSlices_nonempty hbufs) (hrest _ (Nat.pos_of_ne_zero hzero)) hfuel
                hfuel']

/-- `pwritev_all` is exact. When it returns `Ok` its bytes stand at the offset, when it
does not the head of them may, and nothing beside their range is touched; zeroing the
range erases what a call that failed has left; and the call is over once the kernel
has answered often enough. -/
theorem pwritev_all_exact (env env' : Env) (site : Site) (path : Path) (bufs : List Bytes)
    (offset : ℕ) (d : Dir) (content : Bytes) (hbufs : ∀ b ∈ bufs, b ≠ [])
    (hfile : d.bytes path = some content) :
    Ends (pwritevAll env site path bufs offset) (fun x d' => ∃ content', d.Holds path content' d' ∧
      SameOutside offset bufs.flatten.length content content' ∧
      (x = .ok () → (content'.drop offset).take bufs.flatten.length = bufs.flatten) ∧
      (x ≠ .ok () → ∃ n ≤ bufs.flatten.length,
        content' = putAt offset (bufs.flatten.take n) content) ∧
      Ends (zeroRange env' path offset bufs.flatten.length) (fun y d'' => y = .ok () →
        ∃ content'', d.Holds path content'' d'' ∧
          SameOutside offset bufs.flatten.length content content'' ∧
            (content''.drop offset).take bufs.flatten.length = zeroes bufs.flatten.length) d') d ∧
    ∀ (results more more' : List Written) (fuel fuel' : ℕ),
      bufs.flatten.length ≤ results.countP Written.settles → results.length < fuel →
        results.length < fuel' → pwritevLoop path fuel (results ++ more) bufs offset d =
          pwritevLoop path fuel' (results ++ more') bufs offset d := by
  refine ⟨ends_pwritevAll_at hbufs fun x n hn hok hfail => ?_, ?_⟩
  · have hholds := Dir.holds_edit (putAt offset (bufs.flatten.take n)) hfile
    have hlength : (bufs.flatten.take n).length ≤ bufs.flatten.length := List.length_take_le' n _
    have houtside := sameOutside_putAt offset hlength content
    refine ⟨_, hholds, houtside, fun hx => ?_, fun hx => ⟨n, hn, rfl⟩, ?_⟩
    · rw [hok hx, List.take_length]
      exact read_putAt
    · refine ends_zeroRange_at fun y m hm hyok _ hy => ?_
      have hzeroed := Dir.holds_edit (putAt offset (zeroes m)) hholds.1
      have hsize : (zeroes m).length ≤ bufs.flatten.length := by
        rw [length_zeroes]
        exact hm
      refine ⟨_, ⟨hzeroed.1, fun p hp => (hzeroed.2 p hp).trans (hholds.2 p hp)⟩,
        houtside.trans (sameOutside_putAt offset hsize _), ?_⟩
      rw [hyok hy]
      have hread := @read_putAt offset (zeroes bufs.flatten.length)
        (putAt offset (bufs.flatten.take n) content)
      rwa [length_zeroes] at hread
  · intro results more more' fuel fuel' hprogress hfuel hfuel'
    rw [pwritevLoop_over more more' hbufs hprogress hfuel hfuel']

/-- Two buffers behind the end of a file, of which the kernel writes three bytes in two
rounds before it fails. -/
theorem pwritev_all_exact_short :
    let env : Env := ⟨true, false, fun _ => .ok, fun _ => [.count 2, .interrupted, .count 1, .fail]⟩
    Ends (pwritevAll env .write .header [[1], [2, 3, 4]] 1)
      (fun x d' => x = .error () ∧ d'.header = some [0, 1, 2, 3]) ⟨[], .nil, some [], none⟩ ∧
    ∃ content', SameOutside 1 4 [] content' := by
  refine ⟨⟨rfl, rfl⟩, ?_⟩
  obtain ⟨content', -, houtside, -⟩ := (pwritev_all_exact
    ⟨true, false, fun _ => .ok, fun _ => [.count 2, .interrupted, .count 1, .fail]⟩
    ⟨true, false, fun _ => .ok, fun _ => []⟩ .write .header [[1], [2, 3, 4]] 1
    ⟨[], .nil, some [], none⟩ [] (by decide) rfl).1
  exact ⟨content', houtside⟩

end Lug.Wal
