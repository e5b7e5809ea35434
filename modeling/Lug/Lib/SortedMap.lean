import Mathlib.Data.List.Basic
import Mathlib.Order.Lattice
import Mathlib.Data.Prod.Basic

/-!
Finite maps as lists of pairs in strict key order: what an ordered map is once
its shape is forgotten, and what its operations do to that list.
-/

namespace SortedMap

variable {K V W X : Type*}

def mapValues (f : V → W) (xs : List (K × V)) : List (K × W) := xs.map fun e => (e.1, f e.2)

theorem mapValues_eq_self {f : V → V} {xs : List (K × V)} (h : ∀ e ∈ xs, f e.2 = e.2) :
    mapValues f xs = xs := by
  have hid : xs.map (fun e => (e.1, f e.2)) = xs.map id :=
    List.map_congr_left fun e he => Prod.ext rfl (h e he)
  rw [mapValues, hid, List.map_id]

theorem mapValues_mapValues (f : V → W) (g : W → X) (xs : List (K × V)) :
    mapValues g (mapValues f xs) = mapValues (fun v => g (f v)) xs := by
  simp [mapValues]

variable [LinearOrder K]

/-- The keys increase, so none of them stands twice. -/
def Sorted (xs : List (K × V)) : Prop := (xs.map Prod.fst).Pairwise (· < ·)

/-- The keys below, the new pair, the keys above. -/
def insert (k : K) (v : V) (xs : List (K × V)) : List (K × V) :=
  xs.filter (·.1 < k) ++ (k, v) :: xs.filter (k < ·.1)

def erase (k : K) (xs : List (K × V)) : List (K × V) := xs.filter (·.1 ≠ k)

/-- Pair after pair; a later value of a key replaces an earlier one. -/
def ofList (xs : List (K × V)) : List (K × V) := xs.foldl (fun m e => insert e.1 e.2 m) []

@[simp] theorem sorted_nil : Sorted ([] : List (K × V)) := List.Pairwise.nil

theorem sorted_append {xs ys : List (K × V)} :
    Sorted (xs ++ ys) ↔ Sorted xs ∧ Sorted ys ∧ ∀ x ∈ xs, ∀ y ∈ ys, x.1 < y.1 := by
  simp [Sorted, List.pairwise_append]

theorem sorted_cons {e : K × V} {xs : List (K × V)} :
    Sorted (e :: xs) ↔ (∀ x ∈ xs, e.1 < x.1) ∧ Sorted xs := by
  simp [Sorted]

theorem Sorted.sublist {xs ys : List (K × V)} (h : Sorted ys) (hs : xs.Sublist ys) :
    Sorted xs :=
  List.Pairwise.sublist (hs.map _) h

/-- A pair in the middle splits the keys at its own. -/
theorem sorted_middle {e : K × V} {l r : List (K × V)} :
    Sorted (l ++ e :: r) ↔
      Sorted l ∧ Sorted r ∧ (∀ x ∈ l, x.1 < e.1) ∧ ∀ y ∈ r, e.1 < y.1 := by
  rw [sorted_append, sorted_cons]
  constructor
  · rintro ⟨hl, ⟨her, hr⟩, hlr⟩
    exact ⟨hl, hr, fun x hx => hlr x hx e List.mem_cons_self, her⟩
  · rintro ⟨hl, hr, hle, her⟩
    refine ⟨hl, ⟨her, hr⟩, fun x hx y hy => ?_⟩
    cases hy with
    | head => exact hle x hx
    | tail _ hy => exact (hle x hx).trans (her y hy)

theorem sorted_mapValues (f : V → W) {xs : List (K × V)} :
    Sorted (mapValues f xs) ↔ Sorted xs := by
  simp [Sorted, mapValues, Function.comp_def]

section Insert

variable {k : K} {v : V} {xs l r : List (K × V)} {e : K × V}

theorem filter_lt_of_forall (h : ∀ x ∈ xs, x.1 < k) :
    xs.filter (·.1 < k) = xs ∧ xs.filter (k < ·.1) = [] := by
  constructor
  · rw [List.filter_eq_self]
    intro x hx
    exact decide_eq_true (h x hx)
  · rw [List.filter_eq_nil_iff]
    intro x hx
    simpa using (h x hx).le

theorem filter_gt_of_forall (h : ∀ x ∈ xs, k < x.1) :
    xs.filter (·.1 < k) = [] ∧ xs.filter (k < ·.1) = xs := by
  constructor
  · rw [List.filter_eq_nil_iff]
    intro x hx
    simpa using (h x hx).le
  · rw [List.filter_eq_self]
    intro x hx
    exact decide_eq_true (h x hx)

theorem mem_insert : e ∈ insert k v xs ↔ e = (k, v) ∨ e ∈ xs ∧ e.1 ≠ k := by
  simp only [insert, List.mem_append, List.mem_filter, List.mem_cons, decide_eq_true_eq]
  constructor
  · rintro (⟨hmem, hlt⟩ | rfl | ⟨hmem, hlt⟩)
    · exact .inr ⟨hmem, hlt.ne⟩
    · exact .inl rfl
    · exact .inr ⟨hmem, hlt.ne'⟩
  · rintro (rfl | ⟨hmem, hne⟩)
    · exact .inr (.inl rfl)
    · cases lt_or_gt_of_ne hne with
      | inl hlt => exact .inl ⟨hmem, hlt⟩
      | inr hgt => exact .inr (.inr ⟨hmem, hgt⟩)

theorem sorted_insert (h : Sorted xs) : Sorted (insert k v xs) := by
  rw [insert, sorted_middle]
  refine ⟨h.sublist List.filter_sublist, h.sublist List.filter_sublist, ?_, ?_⟩
  · intro x hx
    simpa using (List.mem_filter.mp hx).2
  · intro y hy
    simpa using (List.mem_filter.mp hy).2

/-- Below a pair of the map, inserting works on its left. -/
theorem insert_left (h : Sorted (l ++ e :: r)) (hk : k < e.1) :
    insert k v (l ++ e :: r) = insert k v l ++ e :: r := by
  obtain ⟨-, -, -, her⟩ := sorted_middle.mp h
  obtain ⟨hbelow, habove⟩ := filter_gt_of_forall fun y hy => hk.trans (her y hy)
  simp [insert, List.filter_append, hk, hk.le.not_gt, hbelow, habove]

theorem insert_right (h : Sorted (l ++ e :: r)) (hk : e.1 < k) :
    insert k v (l ++ e :: r) = l ++ e :: insert k v r := by
  obtain ⟨-, -, hle, -⟩ := sorted_middle.mp h
  obtain ⟨hbelow, habove⟩ := filter_lt_of_forall fun x hx => (hle x hx).trans hk
  simp [insert, List.filter_append, hk, hk.le.not_gt, hbelow, habove]

theorem insert_middle (h : Sorted (l ++ e :: r)) :
    insert e.1 v (l ++ e :: r) = l ++ (e.1, v) :: r := by
  obtain ⟨-, -, hle, her⟩ := sorted_middle.mp h
  obtain ⟨hbelow, habove⟩ := filter_lt_of_forall hle
  obtain ⟨hbelow', habove'⟩ := filter_gt_of_forall her
  simp [insert, List.filter_append, hbelow, habove, hbelow', habove']

theorem insert_of_forall_lt (h : ∀ x ∈ xs, x.1 < k) : insert k v xs = xs ++ [(k, v)] := by
  obtain ⟨hbelow, habove⟩ := filter_lt_of_forall h
  rw [insert, hbelow, habove]

theorem insert_insert (w : V) : insert k v (insert k w xs) = insert k v xs := by
  have hbelow : (xs.filter (k < ·.1)).filter (·.1 < k) = [] := by
    rw [List.filter_filter, List.filter_eq_nil_iff]
    intro x _
    simpa using fun h : x.1 < k => h.le
  have habove : (xs.filter (·.1 < k)).filter (k < ·.1) = [] := by
    rw [List.filter_filter, List.filter_eq_nil_iff]
    intro x _
    simpa using fun h : k < x.1 => h.le
  simp [insert, List.filter_append, hbelow, habove]

theorem mapValues_insert (f : V → W) :
    mapValues f (insert k v xs) = insert k (f v) (mapValues f xs) := by
  simp [mapValues, insert, List.filter_map, Function.comp_def]

end Insert

section Erase

variable {k : K} {xs l r : List (K × V)} {e : K × V}

theorem mem_erase : e ∈ erase k xs ↔ e ∈ xs ∧ e.1 ≠ k := by
  simp [erase]

theorem sorted_erase (h : Sorted xs) : Sorted (erase k xs) := h.sublist List.filter_sublist

theorem erase_of_forall_ne (h : ∀ x ∈ xs, x.1 ≠ k) : erase k xs = xs := by
  rw [erase, List.filter_eq_self]
  intro x hx
  exact decide_eq_true (h x hx)

theorem erase_append : erase k (l ++ r) = erase k l ++ erase k r :=
  List.filter_append ..

theorem erase_cons_of_ne (h : e.1 ≠ k) : erase k (e :: r) = e :: erase k r :=
  List.filter_cons_of_pos (decide_eq_true h)

theorem erase_cons_self : erase e.1 (e :: r) = erase e.1 r :=
  List.filter_cons_of_neg (by simp)

theorem erase_left (h : Sorted (l ++ e :: r)) (hk : k < e.1) :
    erase k (l ++ e :: r) = erase k l ++ e :: r := by
  obtain ⟨-, -, -, her⟩ := sorted_middle.mp h
  have hr : erase k r = r := erase_of_forall_ne fun y hy => (hk.trans (her y hy)).ne'
  rw [erase_append, erase_cons_of_ne hk.ne', hr]

theorem erase_right (h : Sorted (l ++ e :: r)) (hk : e.1 < k) :
    erase k (l ++ e :: r) = l ++ e :: erase k r := by
  obtain ⟨-, -, hle, -⟩ := sorted_middle.mp h
  have hl : erase k l = l := erase_of_forall_ne fun x hx => ((hle x hx).trans hk).ne
  rw [erase_append, erase_cons_of_ne hk.ne, hl]

theorem erase_middle (h : Sorted (l ++ e :: r)) : erase e.1 (l ++ e :: r) = l ++ r := by
  obtain ⟨-, -, hle, her⟩ := sorted_middle.mp h
  have hl : erase e.1 l = l := erase_of_forall_ne fun x hx => (hle x hx).ne
  have hr : erase e.1 r = r := erase_of_forall_ne fun y hy => (her y hy).ne'
  rw [erase_append, erase_cons_self, hl, hr]

theorem mapValues_erase (f : V → W) : mapValues f (erase k xs) = erase k (mapValues f xs) := by
  simp [mapValues, erase, List.filter_map, Function.comp_def]

end Erase

section Lookup

variable {k : K} {v : V} {xs l r : List (K × V)} {e : K × V}

theorem lookup_eq_none_iff : xs.lookup k = none ↔ ∀ x ∈ xs, x.1 ≠ k := by
  rw [List.lookup_eq_none_iff]
  constructor
  · intro h x hx hk
    simpa [hk] using h x hx
  · intro h x hx
    simpa using (h x hx).symm

theorem lookup_left (h : Sorted (l ++ e :: r)) (hk : k < e.1) :
    (l ++ e :: r).lookup k = l.lookup k := by
  obtain ⟨-, -, -, her⟩ := sorted_middle.mp h
  have hnone : (e :: r).lookup k = none := by
    rw [lookup_eq_none_iff]
    intro x hx
    cases hx with
    | head => exact hk.ne'
    | tail _ hx => exact (hk.trans (her x hx)).ne'
  rw [List.lookup_append, hnone, Option.or_none]

theorem lookup_right (h : Sorted (l ++ e :: r)) (hk : e.1 < k) :
    (l ++ e :: r).lookup k = r.lookup k := by
  obtain ⟨-, -, hle, -⟩ := sorted_middle.mp h
  have hnone : l.lookup k = none := by
    rw [lookup_eq_none_iff]
    exact fun x hx => ((hle x hx).trans hk).ne
  have hne : (k == e.1) = false := by simpa using hk.ne'
  rw [List.lookup_append, hnone, Option.none_or, List.lookup_cons, hne]

theorem lookup_middle (h : Sorted (l ++ e :: r)) : (l ++ e :: r).lookup e.1 = some e.2 := by
  obtain ⟨-, -, hle, -⟩ := sorted_middle.mp h
  have hnone : l.lookup e.1 = none := by
    rw [lookup_eq_none_iff]
    exact fun x hx => (hle x hx).ne
  rw [List.lookup_append, hnone, Option.none_or, List.lookup_cons, beq_self_eq_true]

theorem lookup_mapValues (f : V → W) : (mapValues f xs).lookup k = (xs.lookup k).map f := by
  induction xs with
  | nil => rfl
  | cons x xs ih =>
      obtain ⟨key, value⟩ := x
      rw [mapValues, List.map_cons, List.lookup_cons, List.lookup_cons]
      cases k == key with
      | true => rfl
      | false => exact ih

theorem lookup_insert_self : (insert k v xs).lookup k = some v := by
  have hnone : (xs.filter (·.1 < k)).lookup k = none := by
    rw [lookup_eq_none_iff]
    intro x hx
    have hlt : x.1 < k := by simpa using (List.mem_filter.mp hx).2
    exact hlt.ne
  rw [insert, List.lookup_append, hnone, Option.none_or, List.lookup_cons, beq_self_eq_true]

theorem lookup_insert_of_ne {k' : K} (h : k' ≠ k) :
    (insert k v xs).lookup k' = xs.lookup k' := by
  have hbeq : (k' == k) = false := by simpa using h
  rw [insert, List.lookup_append, List.lookup_cons, hbeq]
  induction xs with
  | nil => rfl
  | cons x xs ih =>
      obtain ⟨key, value⟩ := x
      rw [List.lookup_cons, ← ih]
      by_cases hkey : k' = key
      · subst hkey
        cases lt_or_gt_of_ne h with
        | inl hlt => simp [hlt]
        | inr hgt =>
            have hnone : (xs.filter (·.1 < k)).lookup k' = none := by
              rw [lookup_eq_none_iff]
              intro x hx
              have hlt : x.1 < k := by simpa using (List.mem_filter.mp hx).2
              exact (hlt.trans hgt).ne
            simp [hgt, hgt.le.not_gt, hnone]
      · have hne : (k' == key) = false := by simpa using hkey
        rw [hne]
        by_cases hlt : key < k
        · simp [hlt, hlt.le.not_gt, hne, List.lookup_cons]
        · by_cases hgt : k < key
          · simp [hlt, hgt, hne, List.lookup_cons]
          · simp [hlt, hgt]

theorem mem_of_lookup (h : xs.lookup k = some v) : (k, v) ∈ xs := by
  obtain ⟨l, r, hsplit, -⟩ := List.lookup_eq_some_iff.mp h
  simp [hsplit]

theorem lookup_of_mem_nodup (h : (xs.map Prod.fst).Nodup) (he : e ∈ xs) :
    xs.lookup e.1 = some e.2 := by
  induction xs with
  | nil => cases he
  | cons x xs ih =>
      obtain ⟨key, value⟩ := x
      rw [List.map_cons, List.nodup_cons] at h
      rw [List.lookup_cons]
      cases he with
      | head => rw [beq_self_eq_true]
      | tail _ he =>
          have hne : (e.1 == key) = false := beq_eq_false_iff_ne.mpr fun heq =>
            h.1 (List.mem_map.mpr ⟨e, he, heq⟩)
          rw [hne]
          exact ih h.2 he

theorem lookup_erase (k' : K) :
    (erase k xs).lookup k' = if k' = k then none else xs.lookup k' := by
  induction xs with
  | nil => simp [erase]
  | cons x xs ih =>
      obtain ⟨key, value⟩ := x
      rw [erase] at ih ⊢
      by_cases hkey : key = k
      · rw [List.filter_cons_of_neg (by simpa using hkey), ih, List.lookup_cons]
        by_cases hk : k' = k
        · rw [if_pos hk, if_pos hk]
        · have hne : (k' == key) = false := beq_eq_false_iff_ne.mpr (hkey ▸ hk)
          rw [if_neg hk, if_neg hk, hne]
      · rw [List.filter_cons_of_pos (by simpa using hkey), List.lookup_cons, ih, List.lookup_cons]
        by_cases hk : k' = key
        · subst hk
          simp only [if_neg hkey]
        · rw [beq_eq_false_iff_ne.mpr hk]

theorem lookup_of_mem (h : Sorted xs) (he : e ∈ xs) : xs.lookup e.1 = some e.2 := by
  obtain ⟨l, r, rfl⟩ := List.append_of_mem he
  exact lookup_middle h

theorem insert_of_lookup (h : Sorted xs) (hk : xs.lookup k = some v) : insert k v xs = xs := by
  obtain ⟨l, r, rfl⟩ := List.append_of_mem (mem_of_lookup hk)
  exact insert_middle h

/-- A sorted list is determined by what it answers. -/
theorem Sorted.ext {ys : List (K × V)} (hx : Sorted xs) (hy : Sorted ys)
    (h : ∀ k, xs.lookup k = ys.lookup k) : xs = ys := by
  have hsub : ∀ {xs ys : List (K × V)}, Sorted xs → (∀ k, xs.lookup k = ys.lookup k) →
      ∀ e ∈ xs, e ∈ ys := by
    intro xs ys hx h e he
    have hlookup := lookup_of_mem hx he
    rw [h] at hlookup
    exact mem_of_lookup hlookup
  have hpairwise : ∀ {xs : List (K × V)}, Sorted xs → xs.Pairwise fun a b => a.1 < b.1 :=
    fun hx => List.pairwise_map.mp hx
  have hnodup : ∀ {xs : List (K × V)}, Sorted xs → xs.Nodup := fun hx =>
    (hpairwise hx).imp fun hlt heq => hlt.ne (congrArg Prod.fst heq)
  have hperm : xs.Perm ys := (List.perm_ext_iff_of_nodup (hnodup hx) (hnodup hy)).mpr fun e =>
    ⟨hsub hx h e, hsub hy (fun k => (h k).symm) e⟩
  exact hperm.eq_of_pairwise (fun a b _ _ hab hba => absurd hab hba.not_gt) (hpairwise hx)
    (hpairwise hy)

end Lookup

section OfList

variable {xs ys : List (K × V)}

theorem sorted_foldl (h : Sorted xs) :
    Sorted (ys.foldl (fun m e => insert e.1 e.2 m) xs) := by
  induction ys generalizing xs with
  | nil => exact h
  | cons y ys ih => exact ih (sorted_insert h)

theorem sorted_ofList : Sorted (ofList xs) := sorted_foldl sorted_nil

theorem foldl_insert_of_sorted (h : Sorted (xs ++ ys)) :
    ys.foldl (fun m e => insert e.1 e.2 m) xs = xs ++ ys := by
  induction ys generalizing xs with
  | nil => simp
  | cons y ys ih =>
      have hbelow : ∀ x ∈ xs, x.1 < y.1 := (sorted_middle.mp h).2.2.1
      rw [List.foldl_cons, insert_of_forall_lt hbelow, ih (by simpa using h)]
      simp

/-- Collecting what is in order already changes nothing. -/
theorem ofList_of_sorted (h : Sorted xs) : ofList xs = xs :=
  foldl_insert_of_sorted (by simpa using h)

theorem lookup_foldl {k : K} (h : (ys.map Prod.fst).Nodup) :
    (ys.foldl (fun m e => insert e.1 e.2 m) xs).lookup k = (ys.lookup k).or (xs.lookup k) := by
  induction ys generalizing xs with
  | nil => rfl
  | cons y ys ih =>
      obtain ⟨key, value⟩ := y
      rw [List.map_cons, List.nodup_cons] at h
      rw [List.foldl_cons, ih h.2, List.lookup_cons]
      by_cases hk : k = key
      · subst hk
        have hnone : ys.lookup k = none := by
          rw [lookup_eq_none_iff]
          exact fun x hx hkey => h.1 (List.mem_map.mpr ⟨x, hx, hkey⟩)
        rw [hnone, lookup_insert_self, beq_self_eq_true, Option.none_or, Option.some_or]
      · have hne : (k == key) = false := by simpa using hk
        rw [hne, lookup_insert_of_ne hk]

/-- Where no key stands twice, collecting the pairs puts them in order. -/
theorem perm_ofList (h : (ys.map Prod.fst).Nodup) : (ofList ys).Perm ys := by
  have hlookup : ∀ k, (ofList ys).lookup k = ys.lookup k := fun k => by
    rw [ofList, lookup_foldl h, List.lookup_nil, Option.or_none]
  have hnodup : ((ofList ys).map Prod.fst).Nodup :=
    sorted_ofList.imp fun hlt heq => hlt.ne heq
  have hpairs : ∀ {zs : List (K × V)}, (zs.map Prod.fst).Nodup → zs.Nodup := fun hz =>
    (List.pairwise_map.mp hz).imp fun hne heq => hne (congrArg Prod.fst heq)
  refine (List.perm_ext_iff_of_nodup (hpairs hnodup) (hpairs h)).mpr fun e =>
    ⟨fun he => ?_, fun he => ?_⟩
  · have hread := lookup_of_mem sorted_ofList he
    rw [hlookup] at hread
    exact mem_of_lookup hread
  · have hread := lookup_of_mem_nodup h he
    rw [← hlookup] at hread
    exact mem_of_lookup hread

/-- Where no key stands twice, collecting the pairs changes no lookup. -/
theorem lookup_ofList {k : K} (h : (ys.map Prod.fst).Nodup) : (ofList ys).lookup k = ys.lookup k := by
  rw [ofList, lookup_foldl h, List.lookup_nil, Option.or_none]

theorem mem_foldl {e : K × V} (he : e ∈ ys.foldl (fun m e => insert e.1 e.2 m) xs) :
    e ∈ xs ∨ e ∈ ys := by
  induction ys generalizing xs with
  | nil => exact .inl he
  | cons y ys ih =>
      cases ih he with
      | inl hmem =>
          rw [mem_insert] at hmem
          rcases hmem with rfl | ⟨hmem, -⟩
          · exact .inr List.mem_cons_self
          · exact .inl hmem
      | inr hmem => exact .inr (List.mem_cons_of_mem _ hmem)

theorem mem_of_mem_ofList {e : K × V} (he : e ∈ ofList xs) : e ∈ xs := by
  cases mem_foldl he with
  | inl h => cases h
  | inr h => exact h

end OfList

end SortedMap
