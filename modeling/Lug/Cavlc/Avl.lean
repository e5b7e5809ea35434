import Lug.Lib.SortedMap
import Mathlib.Order.Compare

/-!
`cavlc::avl`: immutable ordered maps with path-copying AVL updates, function by
function as `avl.rs` has it, and what each of them does to the entries in order.
-/

namespace Lug.Cavlc

open SortedMap

/-- `Link`, an optional node. Sharing is not modelled: the one place where the
source tells two equal nodes apart is an update that returns the root it was
given, which `remove` reports. -/
inductive Link (K V : Type)
  | none
  | some (entry : K × V) (left right : Link K V) (height size : ℕ)
  deriving Repr

namespace Link

variable {K V : Type}

def height : Link K V → ℕ
  | .none => 0
  | .some _ _ _ height _ => height

def size : Link K V → ℕ
  | .none => 0
  | .some _ _ _ _ size => size

def isEmpty : Link K V → Bool
  | .none => true
  | .some .. => false

def left : Link K V → Link K V
  | .none => .none
  | .some _ left _ _ _ => left

def right : Link K V → Link K V
  | .none => .none
  | .some _ _ right _ _ => right

def node (entry : K × V) (left right : Link K V) : Link K V :=
  .some entry left right (1 + max left.height right.height) (1 + left.size + right.size)

/-- `rotate_left`, which expects a right child. -/
def rotateLeft : Link K V → Link K V
  | .some entry left (.some rEntry rLeft rRight _ _) _ _ =>
      node rEntry (node entry left rLeft) rRight
  | n => n

/-- `rotate_right`, which expects a left child. -/
def rotateRight : Link K V → Link K V
  | .some entry (.some lEntry lLeft lRight _ _) right _ _ =>
      node lEntry lLeft (node entry lRight right)
  | n => n

def balance : Link K V → Link K V
  | .none => .none
  | .some entry left right height size =>
      if left.height > right.height + 1 then
        if left.right.height > left.left.height then
          rotateRight (node entry left.rotateLeft right)
        else rotateRight (.some entry left right height size)
      else if right.height > left.height + 1 then
        if right.left.height > right.right.height then
          rotateLeft (node entry left right.rotateRight)
        else rotateLeft (.some entry left right height size)
      else .some entry left right height size

def removeMin : Link K V → Link K V
  | .none => .none
  | .some _ .none right _ _ => right
  | .some entry (.some e l r h s) right _ _ =>
      balance (node entry (removeMin (.some e l r h s)) right)

/-- The entry of the leftmost node, found by walking down from `entry`. -/
def successor (entry : K × V) : Link K V → K × V
  | .none => entry
  | .some e left _ _ _ => successor e left

/-- The entries in the order `iter` yields them. -/
def toList : Link K V → List (K × V)
  | .none => []
  | .some entry left right _ _ => left.toList ++ entry :: right.toList

/-- The cached height and size of every node are those its subtrees give. -/
def Cached : Link K V → Prop
  | .none => True
  | .some _ left right height size =>
      left.Cached ∧ right.Cached ∧ height = 1 + max left.height right.height ∧
        size = 1 + left.size + right.size

variable [LinearOrder K]

def insert (entry : K × V) : Link K V → Link K V
  | .none => node entry .none .none
  | .some e left right _ _ =>
      match cmp entry.1 e.1 with
      | .lt => balance (node e (insert entry left) right)
      | .gt => balance (node e left (insert entry right))
      | .eq => node entry left right

/-- `remove`. The flag tells whether the key was found; where it was not, the
root is the one that was passed in. -/
def remove (key : K) : Link K V → Link K V × Bool
  | .none => (.none, false)
  | .some e left right height size =>
      match cmp key e.1 with
      | .lt =>
          match remove key left with
          | (_, false) => (.some e left right height size, false)
          | (left, true) => (balance (node e left right), true)
      | .gt =>
          match remove key right with
          | (_, false) => (.some e left right height size, false)
          | (right, true) => (balance (node e left right), true)
      | .eq =>
          match left, right with
          | .none, right => (right, true)
          | left, .none => (left, true)
          | left, .some rEntry rLeft rRight rHeight rSize =>
              (balance (node (successor rEntry rLeft) left
                (removeMin (.some rEntry rLeft rRight rHeight rSize))), true)

def get (key : K) : Link K V → Option V
  | .none => .none
  | .some e left right _ _ =>
      match cmp key e.1 with
      | .lt => get key left
      | .gt => get key right
      | .eq => .some e.2

end Link

namespace Link

variable {K V : Type}

@[simp] theorem toList_none : (Link.none : Link K V).toList = [] := rfl

@[simp] theorem toList_some (e : K × V) (l r : Link K V) (h s : ℕ) :
    (Link.some e l r h s).toList = l.toList ++ e :: r.toList := rfl

@[simp] theorem toList_node (e : K × V) (l r : Link K V) :
    (node e l r).toList = l.toList ++ e :: r.toList := rfl

@[simp] theorem toList_rotateLeft (t : Link K V) : t.rotateLeft.toList = t.toList := by
  cases t with
  | none => rfl
  | some e l r h s =>
      cases r with
      | none => rfl
      | some => simp [rotateLeft]

@[simp] theorem toList_rotateRight (t : Link K V) : t.rotateRight.toList = t.toList := by
  cases t with
  | none => rfl
  | some e l r h s =>
      cases l with
      | none => rfl
      | some => simp [rotateRight]

/-- Rebalancing moves no entry. -/
@[simp] theorem toList_balance (t : Link K V) : t.balance.toList = t.toList := by
  cases t with
  | none => rfl
  | some e l r h s =>
      simp only [balance]
      split_ifs <;> simp

theorem toList_successor (e : K × V) (l r : Link K V) (h s : ℕ) :
    (Link.some e l r h s).toList =
      successor e l :: (removeMin (.some e l r h s)).toList := by
  induction l generalizing e r h s with
  | none => rfl
  | some e' l' r' h' s' ihl ihr =>
      rw [toList_some, ihl e' r' h' s', successor, removeMin, toList_balance, toList_node,
        List.cons_append]

theorem isEmpty_eq (t : Link K V) : t.isEmpty = t.toList.isEmpty := by
  cases t with
  | none => rfl
  | some => simp [isEmpty]

variable [LinearOrder K]

theorem toList_insert (entry : K × V) (t : Link K V) (h : Sorted t.toList) :
    (t.insert entry).toList = SortedMap.insert entry.1 entry.2 t.toList := by
  induction t with
  | none => rfl
  | some e l r height size ihl ihr =>
      rw [toList_some] at h
      obtain ⟨hl, hr, -, -⟩ := sorted_middle.mp h
      rcases lt_trichotomy entry.1 e.1 with hlt | heq | hgt
      · dsimp only [insert]
        rw [(cmp_eq_lt_iff _ _).mpr hlt, toList_balance, toList_node, ihl hl,
          toList_some, insert_left h hlt]
      · dsimp only [insert]
        rw [(cmp_eq_eq_iff _ _).mpr heq, toList_node, toList_some, heq,
          insert_middle h, ← heq]
      · dsimp only [insert]
        rw [(cmp_eq_gt_iff _ _).mpr hgt, toList_balance, toList_node, ihr hr,
          toList_some, insert_right h hgt]

theorem remove_lt {key : K} {e : K × V} (hlt : key < e.1) (l r : Link K V) (height size : ℕ) :
    (Link.some e l r height size).remove key =
      if (l.remove key).2 then (balance (node e (l.remove key).1 r), true)
      else (.some e l r height size, false) := by
  dsimp only [remove]
  rw [(cmp_eq_lt_iff _ _).mpr hlt]
  rcases remove key l with ⟨l', _ | _⟩ <;> rfl

theorem remove_gt {key : K} {e : K × V} (hgt : e.1 < key) (l r : Link K V) (height size : ℕ) :
    (Link.some e l r height size).remove key =
      if (r.remove key).2 then (balance (node e l (r.remove key).1), true)
      else (.some e l r height size, false) := by
  dsimp only [remove]
  rw [(cmp_eq_gt_iff _ _).mpr hgt]
  rcases remove key r with ⟨r', _ | _⟩ <;> rfl

theorem remove_eq (e : K × V) (l r : Link K V) (height size : ℕ) :
    ((Link.some e l r height size).remove e.1).2 = true ∧
      ((Link.some e l r height size).remove e.1).1.toList = l.toList ++ r.toList := by
  dsimp only [remove]
  rw [(cmp_eq_eq_iff e.1 e.1).mpr rfl]
  cases l with
  | none => exact ⟨rfl, rfl⟩
  | some le ll lr lh ls =>
      cases r with
      | none => simp
      | some re rl rr rh rs =>
          refine ⟨rfl, ?_⟩
          rw [toList_balance, toList_node, toList_successor re rl rr rh rs]

/-- Where the key was not found, the root comes back as it was. -/
theorem remove_of_not_found {key : K} {t : Link K V} (h : (t.remove key).2 = false) :
    (t.remove key).1 = t := by
  cases t with
  | none => rfl
  | some e l r height size =>
      rcases lt_trichotomy key e.1 with hlt | rfl | hgt
      · rw [remove_lt hlt] at h ⊢
        split_ifs at h ⊢
        rfl
      · rw [(remove_eq e l r height size).1] at h
        cases h
      · rw [remove_gt hgt] at h ⊢
        split_ifs at h ⊢
        rfl

/-- Removing a key erases its entry. -/
theorem toList_remove (key : K) (t : Link K V) (h : Sorted t.toList) :
    (t.remove key).1.toList = erase key t.toList := by
  induction t with
  | none => rfl
  | some e l r height size ihl ihr =>
      rw [toList_some] at h ⊢
      obtain ⟨hl, hr, -, -⟩ := sorted_middle.mp h
      rcases lt_trichotomy key e.1 with hlt | rfl | hgt
      · rw [erase_left h hlt, ← ihl hl, remove_lt hlt]
        split_ifs with hfound
        · rw [toList_balance, toList_node]
        · rw [remove_of_not_found (by simpa using hfound), toList_some]
      · rw [erase_middle h, (remove_eq e l r height size).2]
      · rw [erase_right h hgt, ← ihr hr, remove_gt hgt]
        split_ifs with hfound
        · rw [toList_balance, toList_node]
        · rw [remove_of_not_found (by simpa using hfound), toList_some]

/-- The flag tells whether the key was there. -/
theorem remove_found (key : K) (t : Link K V) : (t.remove key).2 = (t.get key).isSome := by
  induction t with
  | none => rfl
  | some e l r height size ihl ihr =>
      rcases lt_trichotomy key e.1 with hlt | rfl | hgt
      · dsimp only [get]
        rw [remove_lt hlt, (cmp_eq_lt_iff _ _).mpr hlt, ← ihl]
        cases (l.remove key).2 <;> rfl
      · dsimp only [get]
        rw [(remove_eq e l r height size).1, (cmp_eq_eq_iff _ _).mpr rfl]
        rfl
      · dsimp only [get]
        rw [remove_gt hgt, (cmp_eq_gt_iff _ _).mpr hgt, ← ihr]
        cases (r.remove key).2 <;> rfl

theorem get_eq_lookup (key : K) (t : Link K V) (h : Sorted t.toList) :
    t.get key = t.toList.lookup key := by
  induction t with
  | none => rfl
  | some e l r height size ihl ihr =>
      rw [toList_some] at h
      obtain ⟨hl, hr, -, -⟩ := sorted_middle.mp h
      rcases lt_trichotomy key e.1 with hlt | rfl | hgt
      · dsimp only [get]
        rw [(cmp_eq_lt_iff _ _).mpr hlt, ihl hl, toList_some, lookup_left h hlt]
      · dsimp only [get]
        rw [(cmp_eq_eq_iff _ _).mpr rfl, toList_some, lookup_middle h]
      · dsimp only [get]
        rw [(cmp_eq_gt_iff _ _).mpr hgt, ihr hr, toList_some, lookup_right h hgt]

end Link

namespace Link

variable {K V : Type}

@[simp] theorem cached_none : (Link.none : Link K V).Cached := trivial

@[simp] theorem cached_node {e : K × V} {l r : Link K V} :
    (node e l r).Cached ↔ l.Cached ∧ r.Cached := by
  simp [node, Cached]

theorem Cached.size_eq {t : Link K V} (h : t.Cached) : t.size = t.toList.length := by
  induction t with
  | none => rfl
  | some e l r height size ihl ihr =>
      obtain ⟨hl, hr, -, hsize⟩ := h
      rw [Link.size, hsize, ihl hl, ihr hr, toList_some, List.length_append, List.length_cons]
      omega

theorem Cached.rotateLeft {t : Link K V} (h : t.Cached) : t.rotateLeft.Cached := by
  cases t with
  | none => trivial
  | some e l r height size =>
      cases r with
      | none => exact h
      | some re rl rr rh rs =>
          obtain ⟨hl, ⟨hrl, hrr, -, -⟩, -, -⟩ := h
          simp [Link.rotateLeft, hl, hrl, hrr]

theorem Cached.rotateRight {t : Link K V} (h : t.Cached) : t.rotateRight.Cached := by
  cases t with
  | none => trivial
  | some e l r height size =>
      cases l with
      | none => exact h
      | some le ll lr lh ls =>
          obtain ⟨⟨hll, hlr, -, -⟩, hr, -, -⟩ := h
          simp [Link.rotateRight, hr, hll, hlr]

theorem Cached.balance {t : Link K V} (h : t.Cached) : t.balance.Cached := by
  cases t with
  | none => trivial
  | some e l r height size =>
      have hl := h.1
      have hr := h.2.1
      simp only [Link.balance]
      split_ifs
      · exact (cached_node.mpr ⟨hl.rotateLeft, hr⟩).rotateRight
      · exact h.rotateRight
      · exact (cached_node.mpr ⟨hl, hr.rotateRight⟩).rotateLeft
      · exact h.rotateLeft
      · exact h

theorem Cached.removeMin {t : Link K V} (h : t.Cached) : t.removeMin.Cached := by
  induction t with
  | none => trivial
  | some e l r height size ihl ihr =>
      cases l with
      | none => exact h.2.1
      | some => exact (cached_node.mpr ⟨ihl h.1, h.2.1⟩).balance

variable [LinearOrder K]

theorem Cached.insert {t : Link K V} (h : t.Cached) (entry : K × V) : (t.insert entry).Cached := by
  induction t with
  | none => exact ⟨trivial, trivial, rfl, rfl⟩
  | some e l r height size ihl ihr =>
      obtain ⟨hl, hr, -, -⟩ := h
      dsimp only [Link.insert]
      cases cmp entry.1 e.1 with
      | lt => exact (cached_node.mpr ⟨ihl hl, hr⟩).balance
      | gt => exact (cached_node.mpr ⟨hl, ihr hr⟩).balance
      | eq => exact cached_node.mpr ⟨hl, hr⟩

theorem Cached.remove {t : Link K V} (h : t.Cached) (key : K) : (t.remove key).1.Cached := by
  induction t with
  | none => trivial
  | some e l r height size ihl ihr =>
      have hl := h.1
      have hr := h.2.1
      rcases lt_trichotomy key e.1 with hlt | rfl | hgt
      · rw [remove_lt hlt]
        split_ifs
        · exact (cached_node.mpr ⟨ihl hl, hr⟩).balance
        · exact h
      · dsimp only [Link.remove]
        rw [(cmp_eq_eq_iff e.1 e.1).mpr rfl]
        cases l with
        | none => exact hr
        | some =>
            cases r with
            | none => exact hl
            | some => exact (cached_node.mpr ⟨hl, hr.removeMin⟩).balance
      · rw [remove_gt hgt]
        split_ifs
        · exact (cached_node.mpr ⟨hl, ihr hr⟩).balance
        · exact h

end Link

end Lug.Cavlc
