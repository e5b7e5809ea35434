import Lug.Cavlc.Avl
import Mathlib.Data.Nat.Fib.Basic
import Mathlib.Data.Set.Card

/-!
The shape of the trees of `avl.rs`: how far each operation may move a height, so
that `balance` is never handed a difference it cannot mend and no `expect` fails.
-/

namespace Lug.Cavlc

open SortedMap

namespace Link

variable {K V : Type}

/-! ### The functions with their panics -/

/-- `rotate_left`; `none` is the panic of its `expect`. -/
def rotateLeftChecked : Link K V → Option (Link K V)
  | .some entry left (.some rEntry rLeft rRight _ _) _ _ =>
      Option.some (node rEntry (node entry left rLeft) rRight)
  | _ => Option.none

/-- `rotate_right`; `none` is the panic of its `expect`. -/
def rotateRightChecked : Link K V → Option (Link K V)
  | .some entry (.some lEntry lLeft lRight _ _) right _ _ =>
      Option.some (node lEntry lLeft (node entry lRight right))
  | _ => Option.none

/-- `balance`; `none` is a panic of its `unwrap` or of a rotation. -/
def balanceChecked : Link K V → Option (Link K V)
  | .none => Option.none
  | .some entry left right height size =>
      if left.height > right.height + 1 then
        match left with
        | .none => Option.none
        | .some lEntry lLeft lRight lHeight lSize =>
            if lRight.height > lLeft.height then do
              let l ← rotateLeftChecked (.some lEntry lLeft lRight lHeight lSize)
              rotateRightChecked (node entry l right)
            else rotateRightChecked
              (.some entry (.some lEntry lLeft lRight lHeight lSize) right height size)
      else if right.height > left.height + 1 then
        match right with
        | .none => Option.none
        | .some rEntry rLeft rRight rHeight rSize =>
            if rLeft.height > rRight.height then do
              let r ← rotateRightChecked (.some rEntry rLeft rRight rHeight rSize)
              rotateLeftChecked (node entry left r)
            else rotateLeftChecked
              (.some entry left (.some rEntry rLeft rRight rHeight rSize) height size)
      else Option.some (.some entry left right height size)

/-- `remove_min`, of a node. -/
def removeMinChecked : Link K V → Option (Link K V)
  | .none => Option.none
  | .some _ .none right _ _ => Option.some right
  | .some entry (.some e l r h s) right _ _ => do
      let left ← removeMinChecked (.some e l r h s)
      balanceChecked (node entry left right)

section

variable [LinearOrder K]

def insertChecked (entry : K × V) : Link K V → Option (Link K V)
  | .none => Option.some (node entry .none .none)
  | .some e left right _ _ =>
      match cmp entry.1 e.1 with
      | .lt => do
          let left ← insertChecked entry left
          balanceChecked (node e left right)
      | .gt => do
          let right ← insertChecked entry right
          balanceChecked (node e left right)
      | .eq => Option.some (node entry left right)

def removeChecked (key : K) : Link K V → Option (Link K V × Bool)
  | .none => Option.some (.none, false)
  | .some e left right height size =>
      match cmp key e.1 with
      | .lt => do
          match ← removeChecked key left with
          | (_, false) => Option.some (.some e left right height size, false)
          | (left, true) => return (← balanceChecked (node e left right), true)
      | .gt => do
          match ← removeChecked key right with
          | (_, false) => Option.some (.some e left right height size, false)
          | (right, true) => return (← balanceChecked (node e left right), true)
      | .eq =>
          match left, right with
          | .none, right => Option.some (right, true)
          | left, .none => Option.some (left, true)
          | left, .some rEntry rLeft rRight rHeight rSize => do
              let right ← removeMinChecked (.some rEntry rLeft rRight rHeight rSize)
              return (← balanceChecked (node (successor rEntry rLeft) left right), true)

end

/-! ### The invariant -/

/-- The heights of siblings differ by at most one. -/
def Balanced : Link K V → Prop
  | .none => True
  | .some _ left right _ _ =>
      left.Balanced ∧ right.Balanced ∧ left.height ≤ right.height + 1 ∧
        right.height ≤ left.height + 1

/-- An AVL tree with its caches in order. -/
structure Sound (t : Link K V) : Prop where
  cached : t.Cached
  balanced : t.Balanced

@[simp] theorem height_none : (Link.none : Link K V).height = 0 := rfl

@[simp] theorem height_node (e : K × V) (l r : Link K V) :
    (node e l r).height = 1 + max l.height r.height := rfl

theorem sound_none : (Link.none : Link K V).Sound := ⟨trivial, trivial⟩

theorem sound_node {e : K × V} {l r : Link K V} (hl : l.Sound) (hr : r.Sound)
    (hle : l.height ≤ r.height + 1) (hge : r.height ≤ l.height + 1) : (node e l r).Sound :=
  ⟨cached_node.mpr ⟨hl.cached, hr.cached⟩, hl.balanced, hr.balanced, hle, hge⟩

namespace Sound

variable {e : K × V} {l r : Link K V} {height size : ℕ}

theorem left (h : (Link.some e l r height size).Sound) : l.Sound :=
  ⟨h.cached.1, h.balanced.1⟩

theorem right (h : (Link.some e l r height size).Sound) : r.Sound :=
  ⟨h.cached.2.1, h.balanced.2.1⟩

/-- What the caches and the balance of a node say about heights. -/
theorem heights (h : (Link.some e l r height size).Sound) :
    (Link.some e l r height size).height = 1 + max l.height r.height ∧
      l.height ≤ r.height + 1 ∧ r.height ≤ l.height + 1 :=
  ⟨h.cached.2.2.1, h.balanced.2.2.1, h.balanced.2.2.2⟩

end Sound

/-- A subtree with a positive height is a node. -/
theorem exists_node {t : Link K V} (h : 0 < t.height) :
    ∃ e l r height size, t = .some e l r height size := by
  cases t with
  | none => exact absurd h (lt_irrefl 0)
  | some e l r height size => exact ⟨e, l, r, height, size, rfl⟩

/-- What `balance` makes of a node: it panics nowhere, the tree is balanced, and it is as
high as the higher subtree or one more; exactly one more where nothing had to be done. -/
structure Mends (e : K × V) (l r b : Link K V) : Prop where
  checked : balanceChecked (node e l r) = Option.some b
  balance : (node e l r).balance = b
  sound : b.Sound
  lower : max l.height r.height ≤ b.height
  upper : b.height ≤ 1 + max l.height r.height
  still : l.height ≤ r.height + 1 → r.height ≤ l.height + 1 → b.height = 1 + max l.height r.height

theorem Mends.bounds {e : K × V} {l r b : Link K V} (h : Mends e l r b) :
    max l.height r.height ≤ b.height ∧ b.height ≤ 1 + max l.height r.height ∧
      (l.height ≤ r.height + 1 → r.height ≤ l.height + 1 →
        b.height = 1 + max l.height r.height) :=
  ⟨h.lower, h.upper, h.still⟩

theorem mends_left {e : K × V} {l r : Link K V} (hl : l.Sound) (hr : r.Sound)
    (h : l.height = r.height + 2) : ∃ b, Mends e l r b := by
  obtain ⟨le, ll, lr, lh, ls, rfl⟩ := exists_node (t := l) (by omega)
  obtain ⟨hheight, hll, hlr⟩ := hl.heights
  have hheavy : (Link.some le ll lr lh ls).height > r.height + 1 := by omega
  by_cases hinner : lr.height > ll.height
  · -- The inner subtree is the higher one: it comes up, in two rotations.
    obtain ⟨me, ml, mr, mh, ms, rfl⟩ := exists_node (t := lr) (by omega)
    obtain ⟨hmheight, hml, hmr⟩ := hl.right.heights
    have hleft : (node le ll ml).Sound := sound_node hl.left hl.right.left (by omega) (by omega)
    have hright : (node e mr r).Sound := sound_node hl.right.right hr (by omega) (by omega)
    refine ⟨node me (node le ll ml) (node e mr r), ?_, ?_, sound_node hleft hright ?_ ?_, ?_, ?_, ?_⟩
    · simp [balanceChecked, node, hheavy, hinner, rotateLeftChecked, rotateRightChecked]
    · simp [Link.balance, node, hheavy, hinner, left, right, rotateLeft, rotateRight]
    all_goals simp only [height_node]; omega
  · have hright : (node e lr r).Sound := sound_node hl.right hr (by omega) (by omega)
    refine ⟨node le ll (node e lr r), ?_, ?_, sound_node hl.left hright ?_ ?_, ?_, ?_, ?_⟩
    · simp [balanceChecked, node, hheavy, hinner, rotateRightChecked]
    · simp [Link.balance, node, hheavy, hinner, left, right, rotateRight]
    all_goals simp only [height_node]; omega

theorem mends_right {e : K × V} {l r : Link K V} (hl : l.Sound) (hr : r.Sound)
    (h : r.height = l.height + 2) : ∃ b, Mends e l r b := by
  obtain ⟨re, rl, rr, rh, rs, rfl⟩ := exists_node (t := r) (by omega)
  obtain ⟨hheight, hrl, hrr⟩ := hr.heights
  have hlight : ¬ l.height > (Link.some re rl rr rh rs).height + 1 := by omega
  have hheavy : (Link.some re rl rr rh rs).height > l.height + 1 := by omega
  by_cases hinner : rl.height > rr.height
  · obtain ⟨me, ml, mr, mh, ms, rfl⟩ := exists_node (t := rl) (by omega)
    obtain ⟨hmheight, hml, hmr⟩ := hr.left.heights
    have hleft : (node e l ml).Sound := sound_node hl hr.left.left (by omega) (by omega)
    have hright : (node re mr rr).Sound := sound_node hr.left.right hr.right (by omega) (by omega)
    refine ⟨node me (node e l ml) (node re mr rr), ?_, ?_, sound_node hleft hright ?_ ?_, ?_, ?_, ?_⟩
    · simp [balanceChecked, node, hlight, hheavy, hinner, rotateLeftChecked, rotateRightChecked]
    · simp [Link.balance, node, hlight, hheavy, hinner, left, right, rotateLeft, rotateRight]
    all_goals simp only [height_node]; omega
  · have hleft : (node e l rl).Sound := sound_node hl hr.left (by omega) (by omega)
    refine ⟨node re (node e l rl) rr, ?_, ?_, sound_node hleft hr.right ?_ ?_, ?_, ?_, ?_⟩
    · simp [balanceChecked, node, hlight, hheavy, hinner, rotateLeftChecked]
    · simp [Link.balance, node, hlight, hheavy, hinner, left, right, rotateLeft]
    all_goals simp only [height_node]; omega

/-- A difference of two, and no more, is what `balance` mends. -/
theorem mends (e : K × V) {l r : Link K V} (hl : l.Sound) (hr : r.Sound)
    (hle : l.height ≤ r.height + 2) (hge : r.height ≤ l.height + 2) :
    Mends e l r (node e l r).balance := by
  obtain ⟨b, hb⟩ : ∃ b, Mends e l r b := by
    by_cases hleft : l.height = r.height + 2
    · exact mends_left hl hr hleft
    · by_cases hright : r.height = l.height + 2
      · exact mends_right hl hr hright
      · have hnotLeft : ¬ l.height > r.height + 1 := by omega
        have hnotRight : ¬ r.height > l.height + 1 := by omega
        refine ⟨node e l r, ?_, ?_, sound_node hl hr (by omega) (by omega), ?_, le_rfl, ?_⟩
        · simp [balanceChecked, node, hnotLeft, hnotRight]
        · simp [Link.balance, node, hnotLeft, hnotRight]
        · simp only [height_node]
          omega
        · exact fun _ _ => rfl
  rw [hb.balance]
  exact hb

/-! ### The operations -/

/-- `remove_min` panics nowhere and takes at most one off the height. -/
theorem removeMin_sound {t : Link K V} (h : t.Sound) (hne : t.isEmpty = false) :
    removeMinChecked t = Option.some t.removeMin ∧ t.removeMin.Sound ∧
      t.removeMin.height ≤ t.height ∧ t.height ≤ t.removeMin.height + 1 := by
  induction t with
  | none => cases hne
  | some e l r height size ihl ihr =>
      obtain ⟨hheight, hle, hge⟩ := h.heights
      cases l with
      | none =>
          refine ⟨rfl, h.right, ?_, ?_⟩
          · show r.height ≤ _
            omega
          · show _ ≤ r.height + 1
            rw [height_none] at hheight
            omega
      | some le ll lr lh ls =>
          obtain ⟨hchecked, hsound, hupper, hlower⟩ := ihl h.left rfl
          have hmends := mends e hsound h.right (by omega) (by omega)
          obtain ⟨hlow, hup, hstill⟩ := hmends.bounds
          rw [removeMinChecked, removeMin, hchecked]
          exact ⟨hmends.checked, hmends.sound, by omega, by omega⟩

variable [LinearOrder K]

/-- `insert` panics nowhere and adds at most one to the height. -/
theorem insert_sound (entry : K × V) {t : Link K V} (h : t.Sound) :
    insertChecked entry t = Option.some (t.insert entry) ∧ (t.insert entry).Sound ∧
      t.height ≤ (t.insert entry).height ∧ (t.insert entry).height ≤ t.height + 1 := by
  induction t with
  | none => exact ⟨rfl, sound_node sound_none sound_none (by simp) (by simp), by simp,
      show 1 ≤ 0 + 1 from le_rfl⟩
  | some e l r height size ihl ihr =>
      obtain ⟨hheight, hle, hge⟩ := h.heights
      dsimp only [insertChecked, insert]
      cases cmp entry.1 e.1 with
      | lt =>
          obtain ⟨hchecked, hsound, hlower, hupper⟩ := ihl h.left
          have hmends := mends e hsound h.right (by omega) (by omega)
          obtain ⟨hlow, hup, hstill⟩ := hmends.bounds
          generalize (node e (insert entry l) r).balance = b at *
          dsimp only
          rw [hchecked]
          exact ⟨hmends.checked, hmends.sound, by omega, by omega⟩
      | gt =>
          obtain ⟨hchecked, hsound, hlower, hupper⟩ := ihr h.right
          have hmends := mends e h.left hsound (by omega) (by omega)
          obtain ⟨hlow, hup, hstill⟩ := hmends.bounds
          generalize (node e l (insert entry r)).balance = b at *
          dsimp only
          rw [hchecked]
          exact ⟨hmends.checked, hmends.sound, by omega, by omega⟩
      | eq =>
          refine ⟨rfl, sound_node h.left h.right hle hge, ?_, ?_⟩
          · show _ ≤ (node entry l r).height
            rw [hheight, height_node]
          · show (node entry l r).height ≤ _
            rw [hheight, height_node]
            omega

/-- What is left of `remove` once the key was looked for below: its flag, and the node put
together again if it was found. -/
theorem removeChecked_lt {key : K} {e : K × V} (hlt : key < e.1) (l r : Link K V)
    (height size : ℕ) {x : Link K V × Bool} (hx : removeChecked key l = Option.some x) :
    removeChecked key (.some e l r height size) =
      if x.2 then (balanceChecked (node e x.1 r)).map (·, true)
      else Option.some (.some e l r height size, false) := by
  dsimp only [removeChecked]
  rw [(cmp_eq_lt_iff _ _).mpr hlt, hx]
  obtain ⟨l', _ | _⟩ := x
  · rfl
  · show (balanceChecked (node e l' r) >>= fun b => Option.some (b, true)) = _
    rw [if_pos rfl, Option.map_eq_bind]
    rfl

theorem removeChecked_gt {key : K} {e : K × V} (hgt : e.1 < key) (l r : Link K V)
    (height size : ℕ) {x : Link K V × Bool} (hx : removeChecked key r = Option.some x) :
    removeChecked key (.some e l r height size) =
      if x.2 then (balanceChecked (node e l x.1)).map (·, true)
      else Option.some (.some e l r height size, false) := by
  dsimp only [removeChecked]
  rw [(cmp_eq_gt_iff _ _).mpr hgt, hx]
  obtain ⟨r', _ | _⟩ := x
  · rfl
  · show (balanceChecked (node e l r') >>= fun b => Option.some (b, true)) = _
    rw [if_pos rfl, Option.map_eq_bind]
    rfl

/-- How `remove` leaves a tree: the checked function agrees, and the height went down by
one at most. -/
structure Removes (key : K) (t : Link K V) : Prop where
  checked : removeChecked key t = Option.some (t.remove key)
  sound : (t.remove key).1.Sound
  upper : (t.remove key).1.height ≤ t.height
  lower : t.height ≤ (t.remove key).1.height + 1

theorem removes_root {e : K × V} {l r : Link K V} {height size : ℕ}
    (h : (Link.some e l r height size).Sound) : Removes e.1 (.some e l r height size) := by
  obtain ⟨hheight, hle, hge⟩ := h.heights
  have hself : cmp e.1 e.1 = .eq := (cmp_eq_eq_iff _ _).mpr rfl
  cases l with
  | none =>
      rw [height_none] at hheight
      have hremove : (Link.some e .none r height size).remove e.1 = (r, true) := by
        dsimp only [remove]
        rw [hself]
      refine ⟨?_, ?_, ?_, ?_⟩ <;> rw [hremove]
      · dsimp only [removeChecked]
        rw [hself]
      · exact h.right
      · show r.height ≤ _
        omega
      · show _ ≤ r.height + 1
        omega
  | some le ll lr lh ls =>
      cases r with
      | none =>
          rw [height_none] at hheight
          have hremove : (Link.some e (.some le ll lr lh ls) .none height size).remove e.1 =
              (.some le ll lr lh ls, true) := by
            dsimp only [remove]
            rw [hself]
          refine ⟨?_, ?_, ?_, ?_⟩ <;> rw [hremove]
          · dsimp only [removeChecked]
            rw [hself]
          · exact h.left
          · show (Link.some le ll lr lh ls).height ≤ _
            omega
          · show _ ≤ (Link.some le ll lr lh ls).height + 1
            omega
      | some re rl rr rh rs =>
          obtain ⟨hchecked, hsound, hupper, hlower⟩ := removeMin_sound h.right rfl
          have hmends := mends (successor re rl) h.left hsound (by omega) (by omega)
          obtain ⟨hlow, hup, hstill⟩ := hmends.bounds
          have hremove : (Link.some e (.some le ll lr lh ls) (.some re rl rr rh rs) height
              size).remove e.1 = ((node (successor re rl) (.some le ll lr lh ls)
                (removeMin (.some re rl rr rh rs))).balance, true) := by
            dsimp only [remove]
            rw [hself]
          refine ⟨?_, ?_, ?_, ?_⟩ <;> rw [hremove]
          · dsimp only [removeChecked]
            rw [hself]
            dsimp only
            rw [hchecked, Option.bind_eq_bind, Option.bind_some, hmends.checked]
            rfl
          · exact hmends.sound
          · show (node _ _ _).balance.height ≤ _
            omega
          · show _ ≤ (node _ _ _).balance.height + 1
            omega

/-- `remove` panics nowhere and takes at most one off the height. -/
theorem remove_sound (key : K) {t : Link K V} (h : t.Sound) : Removes key t := by
  induction t with
  | none => exact ⟨rfl, sound_none, le_rfl, by simp⟩
  | some e l r height size ihl ihr =>
      obtain ⟨hheight, hle, hge⟩ := h.heights
      rcases lt_trichotomy key e.1 with hlt | rfl | hgt
      · obtain ⟨hchecked, hsound, hupper, hlower⟩ := ihl h.left
        have hstep := removeChecked_lt hlt l r height size hchecked
        have hmends := mends e hsound h.right (by omega) (by omega)
        obtain ⟨hlow, hup, hstill⟩ := hmends.bounds
        refine ⟨?_, ?_, ?_, ?_⟩ <;> rw [remove_lt hlt]
        · rw [hstep, hmends.checked]
          split_ifs <;> rfl
        all_goals split_ifs
        · exact hmends.sound
        · exact h
        · show (node _ _ _).balance.height ≤ _
          omega
        · exact le_rfl
        · show _ ≤ (node _ _ _).balance.height + 1
          omega
        · exact Nat.le_succ _
      · exact removes_root h
      · obtain ⟨hchecked, hsound, hupper, hlower⟩ := ihr h.right
        have hstep := removeChecked_gt hgt l r height size hchecked
        have hmends := mends e h.left hsound (by omega) (by omega)
        obtain ⟨hlow, hup, hstill⟩ := hmends.bounds
        refine ⟨?_, ?_, ?_, ?_⟩ <;> rw [remove_gt hgt]
        · rw [hstep, hmends.checked]
          split_ifs <;> rfl
        all_goals split_ifs
        · exact hmends.sound
        · exact h
        · show (node _ _ _).balance.height ≤ _
          omega
        · exact le_rfl
        · show _ ≤ (node _ _ _).balance.height + 1
          omega
        · exact Nat.le_succ _

end Link

end Lug.Cavlc
