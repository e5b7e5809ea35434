import Mathlib.Data.List.Basic
import Mathlib.Data.List.TakeDrop
import Mathlib.Tactic.Ring

/-!
Bytes as a file holds them: numbers in little endian, lengths that are set,
ranges that are overwritten, and stretches of zeroes.
-/

namespace Octets

/-! ### Numbers -/

/-- The low `k` bytes of a number, the lowest first. -/
def le : ℕ → ℕ → List UInt8
  | 0, _ => []
  | k + 1, n => n.toUInt8 :: le k (n / 256)

def ofLe : List UInt8 → ℕ
  | [] => 0
  | b :: bs => b.toNat + 256 * ofLe bs

@[simp] theorem length_le (k n : ℕ) : (le k n).length = k := by
  induction k generalizing n with
  | zero => rfl
  | succ k ih => rw [le, List.length_cons, ih]

theorem ofLe_le (k n : ℕ) : ofLe (le k n) = n % 256 ^ k := by
  induction k generalizing n with
  | zero => rw [le, ofLe, pow_zero, Nat.mod_one]
  | succ k ih =>
      have hbyte : n.toUInt8.toNat = n % 256 := UInt8.toNat_ofNat'
      rw [le, ofLe, hbyte, ih, pow_succ', Nat.mod_mul]

theorem ofLe_le_of_lt {k n : ℕ} (h : n < 256 ^ k) : ofLe (le k n) = n := by
  rw [ofLe_le, Nat.mod_eq_of_lt h]

theorem le_ofLe (bs : List UInt8) : le bs.length (ofLe bs) = bs := by
  induction bs with
  | nil => rfl
  | cons b bs ih =>
      have hlow : (b.toNat + 256 * ofLe bs).toUInt8 = b := by
        apply UInt8.toNat_inj.mp
        have hlt := b.toNat_lt
        have hbyte : (b.toNat + 256 * ofLe bs).toUInt8.toNat = (b.toNat + 256 * ofLe bs) % 256 :=
          UInt8.toNat_ofNat'
        rw [hbyte]
        omega
      have hhigh : (b.toNat + 256 * ofLe bs) / 256 = ofLe bs := by
        have hlt := b.toNat_lt
        omega
      rw [List.length_cons, ofLe, le, hlow, hhigh, ih]

theorem ofLe_lt (bs : List UInt8) : ofLe bs < 256 ^ bs.length := by
  induction bs with
  | nil => simp [ofLe]
  | cons b bs ih =>
      have hlt := b.toNat_lt
      rw [ofLe, List.length_cons, pow_succ']
      omega

theorem take_le (i k n : ℕ) : (le k n).take i = le (min i k) n := by
  induction k generalizing i n with
  | zero => rw [Nat.min_zero, le, List.take_nil]
  | succ k ih =>
      cases i with
      | zero => simp [le]
      | succ i => rw [le, List.take_succ_cons, ih, Nat.succ_min_succ, le]

/-! ### Zeroes -/

def Blank (bs : List UInt8) : Prop := ∀ b ∈ bs, b = 0

def zeroes (n : ℕ) : List UInt8 := List.replicate n 0

@[simp] theorem length_zeroes (n : ℕ) : (zeroes n).length = n := List.length_replicate

@[simp] theorem blank_nil : Blank [] := by simp [Blank]

@[simp] theorem blank_zeroes (n : ℕ) : Blank (zeroes n) := fun _ h => List.eq_of_mem_replicate h

@[simp] theorem blank_append {xs ys : List UInt8} : Blank (xs ++ ys) ↔ Blank xs ∧ Blank ys := by
  simp [Blank, or_imp, forall_and]

theorem Blank.eq_zeroes {bs : List UInt8} (h : Blank bs) : bs = zeroes bs.length :=
  List.eq_replicate_iff.mpr ⟨rfl, h⟩

/-- Zeroes differ in their number only. -/
theorem Blank.ext {xs ys : List UInt8} (hx : Blank xs) (hy : Blank ys)
    (h : xs.length = ys.length) : xs = ys := by
  rw [hx.eq_zeroes, hy.eq_zeroes, h]

theorem Blank.take {bs : List UInt8} (h : Blank bs) (n : ℕ) : Blank (bs.take n) :=
  fun b hb => h b (List.mem_of_mem_take hb)

theorem Blank.drop {bs : List UInt8} (h : Blank bs) (n : ℕ) : Blank (bs.drop n) :=
  fun b hb => h b (List.mem_of_mem_drop hb)

theorem zeroes_append (m n : ℕ) : zeroes m ++ zeroes n = zeroes (m + n) :=
  List.replicate_append_replicate

theorem take_zeroes {m n : ℕ} (h : m ≤ n) : (zeroes n).take m = zeroes m := by
  rw [zeroes, List.take_replicate, min_eq_left h, zeroes]

theorem ofLe_append_blank {xs ys : List UInt8} (h : Blank ys) : ofLe (xs ++ ys) = ofLe xs := by
  induction xs with
  | nil =>
      rw [List.nil_append, h.eq_zeroes]
      induction ys.length with
      | zero => rfl
      | succ n ih =>
          have hzero : ofLe (zeroes (n + 1)) = 0 + 256 * ofLe (zeroes n) := rfl
          rw [hzero, ih, ofLe]
  | cons x xs ih => rw [List.cons_append, ofLe, ofLe, ih]

theorem ofLe_blank {bs : List UInt8} (h : Blank bs) : ofLe bs = 0 :=
  show ofLe ([] ++ bs) = ofLe [] from ofLe_append_blank h

/-! ### Files -/

/-- `ftruncate`: cut, or filled up with zeroes. -/
def setLen (len : ℕ) (bs : List UInt8) : List UInt8 := bs.take len ++ zeroes (len - bs.length)

/-- `fallocate`: filled up with zeroes, never cut. -/
def extend (len : ℕ) (bs : List UInt8) : List UInt8 := bs ++ zeroes (len - bs.length)

/-- `pwrite`: `data` over what stands at the offset. -/
def overwrite (offset : ℕ) (data bs : List UInt8) : List UInt8 :=
  (extend offset bs).take offset ++ data ++ bs.drop (offset + data.length)

theorem length_extend (len : ℕ) (bs : List UInt8) :
    (extend len bs).length = max len bs.length := by
  rw [extend, List.length_append, length_zeroes]
  omega

theorem setLen_append (body rest : List UInt8) : setLen body.length (body ++ rest) = body := by
  have hfull : body.length - (body ++ rest).length = 0 := by
    rw [List.length_append]
    omega
  rw [setLen, hfull, List.take_left]
  exact List.append_nil body

theorem setLen_of_le {len : ℕ} {bs : List UInt8} (h : bs.length ≤ len) :
    setLen len bs = extend len bs := by
  rw [setLen, extend, List.take_of_length_le h]

/-- Setting a length past a body only shapes what follows it. -/
theorem setLen_append_of_le {len : ℕ} {body rest : List UInt8} (h : body.length ≤ len) :
    setLen len (body ++ rest) = body ++ setLen (len - body.length) rest := by
  have hroom : len - (body ++ rest).length = len - body.length - rest.length := by
    rw [List.length_append]
    omega
  rw [setLen, setLen, List.take_append, List.take_of_length_le h, hroom, List.append_assoc]

theorem extend_append (len : ℕ) (body rest : List UInt8) :
    extend len (body ++ rest) = body ++ extend (len - body.length) rest := by
  have hroom : len - (body ++ rest).length = len - body.length - rest.length := by
    rw [List.length_append]
    omega
  rw [extend, extend, hroom, List.append_assoc]

theorem Blank.setLen {rest : List UInt8} (h : Blank rest) (len : ℕ) : Blank (setLen len rest) :=
  blank_append.mpr ⟨h.take len, blank_zeroes _⟩

theorem Blank.extend {rest : List UInt8} (h : Blank rest) (len : ℕ) : Blank (extend len rest) :=
  blank_append.mpr ⟨h, blank_zeroes _⟩

/-- Writing where a body ends leaves the body alone. -/
theorem overwrite_append (body data rest : List UInt8) :
    overwrite body.length data (body ++ rest) = body ++ data ++ rest.drop data.length := by
  have hfull : body.length - (body ++ rest).length = 0 := by
    rw [List.length_append]
    omega
  have hextend : extend body.length (body ++ rest) = body ++ rest := by
    rw [extend, hfull]
    exact List.append_nil _
  have hdrop : (body ++ rest).drop (body.length + data.length) = rest.drop data.length :=
    List.drop_length_add_append data.length
  rw [overwrite, hextend, List.take_left, hdrop]

theorem overwrite_zero (data bs : List UInt8) :
    overwrite 0 data bs = data ++ bs.drop data.length := by
  have h := overwrite_append [] data bs
  simpa using h

/-- Two writes, the second where the first ended, are one. -/
theorem overwrite_overwrite (offset : ℕ) (xs ys bs : List UInt8) :
    overwrite (offset + xs.length) ys (overwrite offset xs bs) = overwrite offset (xs ++ ys) bs := by
  have hhead : ((extend offset bs).take offset).length = offset := by
    rw [List.length_take, length_extend]
    omega
  have hbody : ((extend offset bs).take offset ++ xs).length = offset + xs.length := by
    rw [List.length_append, hhead]
  have hinner : overwrite offset xs bs =
      ((extend offset bs).take offset ++ xs) ++ bs.drop (offset + xs.length) := rfl
  rw [hinner, ← hbody, overwrite_append, hbody, List.drop_drop, overwrite, List.length_append]
  simp only [List.append_assoc, Nat.add_assoc]

theorem length_overwrite (offset : ℕ) (data bs : List UInt8) :
    (overwrite offset data bs).length = max (offset + data.length) bs.length := by
  rw [overwrite, List.length_append, List.length_append, List.length_take, length_extend,
    List.length_drop]
  omega

theorem overwrite_nil {offset : ℕ} {bs : List UInt8} (h : offset ≤ bs.length) :
    overwrite offset [] bs = bs := by
  have hfull : offset - bs.length = 0 := by omega
  have hextend : extend offset bs = bs := by
    rw [extend, hfull]
    exact List.append_nil bs
  rw [overwrite, hextend, List.append_nil, List.length_nil, Nat.add_zero, List.take_append_drop]

/-- A write of what may be nothing, which leaves a file alone even where the file
ends in front of the offset. -/
def putAt (offset : ℕ) (data bs : List UInt8) : List UInt8 :=
  if data = [] then bs else overwrite offset data bs

@[simp] theorem putAt_nil (offset : ℕ) (bs : List UInt8) : putAt offset [] bs = bs := if_pos rfl

theorem putAt_of_ne_nil {data : List UInt8} (h : data ≠ []) (offset : ℕ) (bs : List UInt8) :
    putAt offset data bs = overwrite offset data bs := if_neg h

theorem putAt_of_le {offset : ℕ} {bs : List UInt8} (h : offset ≤ bs.length) (data : List UInt8) :
    putAt offset data bs = overwrite offset data bs := by
  by_cases hdata : data = []
  · rw [hdata, putAt_nil, overwrite_nil h]
  · exact putAt_of_ne_nil hdata offset bs

/-- Two writes, the second where the first ended, are one. -/
theorem putAt_putAt (offset : ℕ) (xs ys bs : List UInt8) :
    putAt (offset + xs.length) ys (putAt offset xs bs) = putAt offset (xs ++ ys) bs := by
  by_cases hx : xs = []
  · rw [hx, putAt_nil, List.length_nil, Nat.add_zero, List.nil_append]
  · by_cases hy : ys = []
    · rw [hy, putAt_nil, List.append_nil]
    · have hboth : xs ++ ys ≠ [] := by simp [hx]
      rw [putAt_of_ne_nil hx, putAt_of_ne_nil hy, putAt_of_ne_nil hboth, overwrite_overwrite]

/-- What stands where it was written. -/
theorem read_putAt {offset : ℕ} {data bs : List UInt8} :
    ((putAt offset data bs).drop offset).take data.length = data := by
  by_cases hdata : data = []
  · rw [hdata, List.length_nil, List.take_zero]
  · have hhead : ((extend offset bs).take offset).length = offset := by
      rw [List.length_take, length_extend]
      omega
    rw [putAt_of_ne_nil hdata, overwrite, List.append_assoc, List.drop_left' hhead, List.take_left]

/-- Nothing changed outside of `len` bytes from the offset on, where a file reads as
zeroes between its end and what is written behind it. -/
structure SameOutside (offset len : ℕ) (bs bs' : List UInt8) : Prop where
  longer : bs.length ≤ bs'.length
  before : ∀ i < offset, bs'.getD i 0 = bs.getD i 0
  behind : ∀ i, offset + len ≤ i → bs'[i]? = bs[i]?

theorem SameOutside.refl (offset len : ℕ) (bs : List UInt8) : SameOutside offset len bs bs :=
  ⟨le_rfl, fun _ _ => rfl, fun _ _ => rfl⟩

theorem SameOutside.trans {offset len : ℕ} {bs bs' bs'' : List UInt8}
    (h : SameOutside offset len bs bs') (h' : SameOutside offset len bs' bs'') :
    SameOutside offset len bs bs'' :=
  ⟨h.longer.trans h'.longer, fun i hi => (h'.before i hi).trans (h.before i hi),
    fun i hi => (h'.behind i hi).trans (h.behind i hi)⟩

theorem sameOutside_putAt (offset : ℕ) {len : ℕ} {data : List UInt8} (h : data.length ≤ len)
    (bs : List UInt8) : SameOutside offset len bs (putAt offset data bs) := by
  by_cases hdata : data = []
  · rw [hdata, putAt_nil]
    exact .refl offset len bs
  · have hhead : ((extend offset bs).take offset).length = offset := by
      rw [List.length_take, length_extend]
      omega
    rw [putAt_of_ne_nil hdata]
    refine ⟨?_, fun i hi => ?_, fun i hi => ?_⟩
    · rw [length_overwrite]
      exact le_max_right _ _
    · have hleft : (overwrite offset data bs)[i]? = (extend offset bs)[i]? := by
        rw [overwrite, List.append_assoc, List.getElem?_append_left (by omega),
          List.getElem?_take_of_lt hi]
      rw [List.getD_eq_getElem?_getD, hleft, extend, List.getD_eq_getElem?_getD]
      by_cases hin : i < bs.length
      · rw [List.getElem?_append_left hin]
      · rw [List.getElem?_append_right (not_lt.mp hin), List.getElem?_eq_none (not_lt.mp hin),
          zeroes, List.getElem?_replicate]
        split_ifs <;> rfl
    · rw [overwrite, List.getElem?_append_right (by rw [List.length_append, hhead]; omega),
        List.length_append, hhead, List.getElem?_drop]
      congr 1
      omega

end Octets
