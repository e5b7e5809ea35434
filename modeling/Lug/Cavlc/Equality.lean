import Lug.Cavlc.Value

/-!
Equality of values is equality of the documents they show, whatever the shapes of the two
trees.
-/

namespace Lug

open SortedMap

namespace Json

/-- There are no doubles in it. -/
inductive FloatFree : Json → Prop
  | null : FloatFree .null
  | bool (b : Bool) : FloatFree (.bool b)
  | number (n : ℤ) : FloatFree (.number (.int n))
  | string (s : String) : FloatFree (.string s)
  | array {items : List Json} (h : ∀ j ∈ items, FloatFree j) : FloatFree (.array items)
  | object {fields : List (String × Json)} (h : ∀ f ∈ fields, FloatFree f.2) :
      FloatFree (.object fields)

theorem eqItems_eq {items others : List Json} (hitems : ∀ j ∈ items, ∀ b, j.eq b = true → j = b)
    (h : eqItems items others = true) : items = others := by
  induction items generalizing others with
  | nil =>
      cases others with
      | nil => rfl
      | cons y ys => cases h
  | cons x xs ih =>
      cases others with
      | nil => cases h
      | cons y ys =>
          rw [eqItems, Bool.and_eq_true] at h
          rw [hitems x List.mem_cons_self y h.1,
            ih (fun j hj => hitems j (List.mem_cons_of_mem _ hj)) h.2]

theorem eqFields_eq {fields others : List (String × Json)}
    (hfields : ∀ f ∈ fields, ∀ b, eq f.2 b = true → f.2 = b)
    (h : eqFields fields others = true) : fields = others := by
  induction fields generalizing others with
  | nil =>
      cases others with
      | nil => rfl
      | cons y ys => cases h
  | cons x xs ih =>
      obtain ⟨k, x⟩ := x
      cases others with
      | nil => cases h
      | cons y ys =>
          obtain ⟨l, y⟩ := y
          rw [eqFields, Bool.and_eq_true, Bool.and_eq_true] at h
          obtain ⟨⟨hkey, hvalue⟩, hrest⟩ := h
          have hxy : x = y := hfields (k, x) List.mem_cons_self y hvalue
          rw [eq_of_beq hkey, hxy, ih (fun f hf => hfields f (List.mem_cons_of_mem _ hf)) hrest]

/-- Comparing with a value that has no doubles in it is asking whether it is the same. -/
theorem FloatFree.eq_of_eq {a : Json} (ha : FloatFree a) : ∀ b, a.eq b = true → a = b := by
  induction ha with
  | null =>
      intro b h
      cases b with
      | null => rfl
      | _ => cases h
  | bool x =>
      intro b h
      cases b with
      | bool y => rw [eq_of_beq h]
      | _ => cases h
  | number _ =>
      intro b h
      cases b with
      | number m =>
          cases m with
          | int m => rw [eq_of_beq h]
          | float _ => cases h
      | _ => cases h
  | string s =>
      intro b h
      cases b with
      | string t => rw [eq_of_beq h]
      | _ => cases h
  | array _ ih =>
      intro b h
      cases b with
      | array others => rw [eqItems_eq ih h]
      | _ => cases h
  | object _ ih =>
      intro b h
      cases b with
      | object others => rw [eqFields_eq ih h]
      | _ => cases h

theorem eq_self (j : Json) : j.eq j = true := by
  induction j using Json.induction with
  | null => rfl
  | bool b => exact beq_self_eq_true b
  | number n =>
      cases n with
      | int n => exact beq_self_eq_true n
      | float bits =>
          rw [eq, Number.eq, beq_self_eq_true]
          rfl
  | string s => exact beq_self_eq_true s
  | array items ih =>
      rw [eq]
      induction items with
      | nil => rfl
      | cons j items ih' =>
          rw [List.forall_mem_cons] at ih
          rw [eqItems, ih.1, ih' ih.2]
          rfl
  | object fields ih =>
      rw [eq]
      induction fields with
      | nil => rfl
      | cons f fields ih' =>
          rw [List.forall_mem_cons] at ih
          rw [eqFields, beq_self_eq_true, ih.1, ih' ih.2]
          rfl

theorem FloatFree.eq_iff {a b : Json} (ha : FloatFree a) : a.eq b = true ↔ a = b := by
  refine ⟨ha.eq_of_eq b, ?_⟩
  rintro rfl
  exact a.eq_self

/-- Equal documents stand under the same keys. -/
abbrev Alike (x y : Option Json) : Prop := Option.Rel (fun a b => eq a b = true) x y

theorem alike_self (x : Option Json) : Alike x x := by
  cases x with
  | none => exact .none
  | some j => exact .some j.eq_self

/-- Objects are equal if what stands under each key is. -/
theorem eqFields_iff {xs ys : List (String × Json)} (hx : Sorted xs) (hy : Sorted ys) :
    eqFields xs ys = true ↔ ∀ key, Alike (xs.lookup key) (ys.lookup key) := by
  induction xs generalizing ys with
  | nil =>
      cases ys with
      | nil => exact ⟨fun _ _ => .none, fun _ => rfl⟩
      | cons f ys =>
          refine ⟨nofun, fun h => ?_⟩
          have hkey := h f.1
          rw [List.lookup_cons, beq_self_eq_true] at hkey
          cases hkey
  | cons e xs ih =>
      obtain ⟨k, x⟩ := e
      cases ys with
      | nil =>
          refine ⟨nofun, fun h => ?_⟩
          have hkey := h k
          rw [List.lookup_cons, beq_self_eq_true] at hkey
          cases hkey
      | cons f ys =>
          obtain ⟨l, y⟩ := f
          have hx' := sorted_cons.mp hx
          have hy' := sorted_cons.mp hy
          rw [eqFields, Bool.and_eq_true, Bool.and_eq_true, ih hx'.2 hy'.2]
          constructor
          · rintro ⟨⟨hkey, hvalue⟩, hrest⟩ key
            rw [List.lookup_cons, List.lookup_cons, ← eq_of_beq hkey]
            by_cases hk : key = k
            · rw [hk, beq_self_eq_true]
              exact .some hvalue
            · rw [beq_eq_false_iff_ne.mpr hk]
              exact hrest key
          · intro h
            have hkl : k = l := by
              by_contra hne
              have hleft := h k
              rw [List.lookup_cons, List.lookup_cons, beq_self_eq_true,
                beq_eq_false_iff_ne.mpr hne] at hleft
              have hright := h l
              rw [List.lookup_cons, List.lookup_cons, beq_self_eq_true,
                beq_eq_false_iff_ne.mpr (Ne.symm hne)] at hright
              generalize hys : ys.lookup k = oy at hleft
              generalize hxs : xs.lookup l = ox at hright
              cases hleft with
              | some _ =>
                  cases hright with
                  | some _ =>
                      have hlt : k < l := hx'.1 _ (mem_of_lookup hxs)
                      have hgt : l < k := hy'.1 _ (mem_of_lookup hys)
                      exact hlt.not_gt hgt
            obtain rfl := hkl
            refine ⟨⟨beq_self_eq_true k, ?_⟩, fun key => ?_⟩
            · have hkey := h k
              rw [List.lookup_cons, List.lookup_cons, beq_self_eq_true] at hkey
              cases hkey with
              | some hvalue => exact hvalue
            · by_cases hk : key = k
              · rw [hk, lookup_eq_none_iff.mpr fun e he => (hx'.1 e he).ne',
                  lookup_eq_none_iff.mpr fun e he => (hy'.1 e he).ne']
                exact .none
              · have hkey := h key
                rw [List.lookup_cons, List.lookup_cons, beq_eq_false_iff_ne.mpr hk] at hkey
                exact hkey

end Json

namespace Cavlc

/-! ### Values -/

/-- What is left of the second list, as long as the first one stands in front of it. -/
def eqEach : List (String × Kind) → List (String × Kind) → Option (List (String × Kind))
  | [], others => some others
  | _ :: _, [] => none
  | (key, value) :: rest, (key', value') :: others =>
      if key == key' && value.eq value' then eqEach rest others else none

theorem eqEach_append (xs ys others : List (String × Kind)) :
    eqEach (xs ++ ys) others = (eqEach xs others).bind (eqEach ys) := by
  induction xs generalizing others with
  | nil => rfl
  | cons e xs ih =>
      cases others with
      | nil => rfl
      | cons f others =>
          rw [List.cons_append, eqEach, eqEach]
          split_ifs
          · exact ih others
          · rfl

/-- Walking the tree is walking its entries. -/
theorem eqEntries_eq (map : Link String Kind) (others : List (String × Kind)) :
    Kind.eqEntries map others = eqEach map.toList others := by
  induction map generalizing others with
  | none => rfl
  | some e l r height size ihl ihr =>
      obtain ⟨key, value⟩ := e
      rw [Kind.eqEntries, ihl, Link.toList_some, eqEach_append]
      cases eqEach l.toList others with
      | none => rfl
      | some left =>
          cases left with
          | nil => rfl
          | cons f left =>
              obtain ⟨key', value'⟩ := f
              show (if (key == key' && value.eq value') = true then _ else _) =
                if (key == key' && value.eq value') = true then _ else _
              split_ifs
              · exact ihr left
              · rfl

theorem eqEach_isEmpty {xs others : List (String × Kind)}
    (h : ∀ e ∈ xs, ∀ f ∈ others, e.2.eq f.2 = e.2.toJson.eq f.2.toJson) :
    (eqEach xs others).any List.isEmpty =
      Json.eqFields (mapValues Kind.toJson xs) (mapValues Kind.toJson others) := by
  induction xs generalizing others with
  | nil => cases others <;> rfl
  | cons e xs ih =>
      obtain ⟨key, value⟩ := e
      cases others with
      | nil => rfl
      | cons f others =>
          obtain ⟨key', value'⟩ := f
          have hhead := h _ List.mem_cons_self _ List.mem_cons_self
          have hrest := ih fun e he f hf =>
            h e (List.mem_cons_of_mem _ he) f (List.mem_cons_of_mem _ hf)
          dsimp only at hhead
          rw [eqEach, mapValues, mapValues, List.map_cons, List.map_cons, Json.eqFields, hhead]
          split_ifs with heq
          · rw [heq, Bool.true_and]
            exact hrest
          · rw [eq_false_of_ne_true heq, Bool.false_and]
            rfl

theorem eqFields_length {xs ys : List (String × Json)} (h : Json.eqFields xs ys = true) :
    xs.length = ys.length := by
  induction xs generalizing ys with
  | nil =>
      cases ys with
      | nil => rfl
      | cons f ys => cases h
  | cons e xs ih =>
      cases ys with
      | nil => cases h
      | cons f ys =>
          rw [Json.eqFields, Bool.and_eq_true] at h
          rw [List.length_cons, List.length_cons, ih h.2]

/-- Values are equal if their documents are. -/
theorem Kind.WellFormed.eq_eq {a b : Kind} (ha : a.WellFormed) (hb : b.WellFormed) :
    a.eq b = a.toJson.eq b.toJson := by
  induction ha generalizing b with
  | @atom value leaf _ =>
      cases hb with
      | atom => rfl
      | object =>
          rw [toJson_object, toJson_atom]
          cases value with
          | object fields => exact absurd rfl (leaf fields)
          | _ => rfl
  | @object map cached _ _ ih =>
      cases hb with
      | atom leaf => exact eq_atom leaf _
      | @object others cached' _ hall' =>
          rw [toJson_object, toJson_object, Kind.eq, Json.eq, eqEntries_eq,
            eqEach_isEmpty fun e he f hf => ih e he (hall' f hf)]
          cases heq : Json.eqFields (mapValues toJson map.toList)
              (mapValues toJson others.toList) with
          | false => rw [Bool.and_false]
          | true =>
              have hlength := eqFields_length heq
              rw [mapValues, mapValues, List.length_map, List.length_map] at hlength
              rw [cached.size_eq, cached'.size_eq, hlength, beq_self_eq_true]
              rfl

end Cavlc

end Lug
