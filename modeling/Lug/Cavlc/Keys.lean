import Lug.Cavlc.Edit
import Lug.Lib.Edits

/-!
What a patch does to each key of an object. A valid patch has one operation for a key at
most, so what it leaves under a key depends on nothing but what stood there.
-/

namespace Lug.Cavlc

open SortedMap Edits

/-! ### One operation for each key -/

theorem repeated_none {seen keys : List String} :
    Patch.repeated seen keys = none ↔ keys.Nodup ∧ ∀ key ∈ keys, key ∉ seen := by
  induction keys generalizing seen with
  | nil => simp [Patch.repeated]
  | cons key rest ih =>
      rw [Patch.repeated, List.nodup_cons, List.forall_mem_cons]
      by_cases hmem : key ∈ seen
      · rw [if_pos hmem]
        exact ⟨nofun, fun h => absurd hmem h.2.1⟩
      · rw [if_neg hmem, ih]
        constructor
        · rintro ⟨hnodup, hnone⟩
          exact ⟨⟨fun hkey => hnone key hkey List.mem_cons_self, hnodup⟩, hmem,
            fun k hk hseen => hnone k hk (List.mem_cons_of_mem _ hseen)⟩
        · rintro ⟨⟨hkey, hnodup⟩, -, hnone⟩
          refine ⟨hnodup, fun k hk hcons => ?_⟩
          cases List.mem_cons.mp hcons with
          | inl heq => exact hkey (heq ▸ hk)
          | inr hseen => exact hnone k hk hseen

theorem validate_ok {α : Type} {isObject : α → Bool} {create : List (String × α)}
    {update : List (String × Update α)} {delete : List String} :
    (Patch.mk create update delete).validate isObject = .ok () ↔
      (create.map Prod.fst ++ update.map Prod.fst ++ delete).Nodup ∧
        Patch.validateUpdates isObject update = .ok () := by
  rw [Patch.validate]
  cases hkeys : Patch.repeated [] (create.map Prod.fst ++ update.map Prod.fst ++ delete) with
  | some key =>
      refine ⟨nofun, fun h => ?_⟩
      rw [repeated_none.mpr ⟨h.1, fun _ _ => List.not_mem_nil⟩] at hkeys
      cases hkeys
  | none => exact ⟨fun h => ⟨(repeated_none.mp hkeys).1, h⟩, fun h => h.2⟩

theorem Patch.validateUpdates_ok {α : Type} {isObject : α → Bool} {update : List (String × Update α)} :
    Patch.validateUpdates isObject update = .ok () ↔
      ∀ e ∈ update, Patch.validateUpdate isObject e.1 e.2 = .ok () := by
  induction update with
  | nil => exact ⟨fun _ => by simp, fun _ => rfl⟩
  | cons e rest ih =>
      obtain ⟨key, u⟩ := e
      rw [Patch.validateUpdates, List.forall_mem_cons, ← ih]
      cases Patch.validateUpdate isObject key u with
      | error e =>
          refine ⟨nofun, fun h => ?_⟩
          cases h.1
      | ok _ => exact ⟨fun h => ⟨rfl, h⟩, fun h => h.2⟩

/-! ### The loops as edits of keys -/

section Sheets

variable {path : List String} {original : List (String × Json)} {s : Sheet}

/-- Whether a sheet is as it was is known. -/
structure Kept (original : List (String × Json)) (s : Sheet) : Prop where
  sorted : Sorted s.fields
  same : s.same = true → s.fields = original

def shown (s : Sheet) (key : String) : Option Json := s.fields.lookup key

/-- What an update does to a child, in Rust. -/
def nextEdit (path : List String) (e : String × Update Json) : Edit Json :=
  Edits.update fun current =>
    ((Patch.editNext (path ++ [e.1]) e.2 current).map fun o => o.getD current).toOption

/-- What `apply_at` does to each key. -/
def sheetEdits (path : List String) (create : List (String × Json))
    (update : List (String × Update Json)) (delete : List String) : List (String × Edit Json) :=
  (create.map fun e => (e.1, Edits.create e.2)) ++
    ((update.map fun e => (e.1, nextEdit path e)) ++ delete.map fun key => (key, Edits.delete))

theorem made_insert {key : String} {v : Json} {f : Edit Json} (h : Kept original s)
    (hf : f (s.fields.lookup key) = some (some v)) :
    Made (Kept original) shown key f s (s.insert key v) where
  kept := ⟨sorted_insert h.sorted, nofun⟩
  done := by
    show f (s.fields.lookup key) = some ((SortedMap.insert key v s.fields).lookup key)
    rw [hf, lookup_insert_self]
  same := fun _ hk => lookup_insert_of_ne hk

theorem editCreate_runs {create : List (String × Json)} (h : (create.map Prod.fst).Nodup)
    (hs : Kept original s) :
    Runs (Kept original) shown (create.map fun e => (e.1, Edits.create e.2)) (shown s)
      (Patch.editCreate path create s) := by
  refine Runs.loop (fun _ => rfl) (fun e rest s hs => ?_) h hs
  rw [Patch.editCreate]
  cases hlookup : s.fields.lookup e.1 with
  | some old => exact .inl ⟨by rw [shown, hlookup]; rfl, _, if_pos Option.isSome_some⟩
  | none =>
      exact .inr ⟨s.insert e.1 e.2, made_insert hs (by rw [hlookup]; rfl), if_neg (by simp)⟩

theorem editUpdate_runs {update : List (String × Update Json)} (h : (update.map Prod.fst).Nodup)
    (hs : Kept original s) :
    Runs (Kept original) shown (update.map fun e => (e.1, nextEdit path e)) (shown s)
      (Patch.editUpdate path update s) := by
  refine Runs.loop (fun _ => by rw [Patch.editUpdate]) (fun e rest s hs => ?_) h hs
  obtain ⟨key, u⟩ := e
  rw [Patch.editUpdate, shown]
  cases hlookup : s.fields.lookup key with
  | none => exact .inl ⟨rfl, _, rfl⟩
  | some current =>
      dsimp only
      cases hnext : Patch.editNext (path ++ [key]) u current with
      | error e =>
          refine .inl ⟨?_, e, rfl⟩
          rw [nextEdit, Edits.update, hnext]
          rfl
      | ok next =>
          cases next with
          | none =>
              refine .inr ⟨s, ⟨hs, ?_, fun _ _ => rfl⟩, rfl⟩
              rw [shown, hlookup, nextEdit, Edits.update, hnext]
              rfl
          | some v =>
              refine .inr ⟨s.insert key v, made_insert hs ?_, rfl⟩
              rw [hlookup, nextEdit, Edits.update, hnext]
              rfl

theorem editDelete_runs {delete : List String} (h : delete.Nodup) (hs : Kept original s) :
    Runs (Kept original) shown (delete.map fun key => (key, Edits.delete)) (shown s)
      (Patch.editDelete path delete s) := by
  refine Runs.loop (fun _ => rfl) (fun key rest s hs => ?_) (by rwa [List.map_id']) hs
  rw [Patch.editDelete]
  cases hlookup : s.fields.lookup key with
  | none => exact .inl ⟨by rw [shown, hlookup]; rfl, _, if_pos rfl⟩
  | some old =>
      refine .inr ⟨s.erase key, ⟨⟨sorted_erase hs.sorted, fun hsame => ?_⟩, ?_, fun k hk => ?_⟩,
        if_neg (by simp)⟩
      · rw [Sheet.erase, hlookup, Option.isNone_some, Bool.and_false] at hsame
        cases hsame
      · show Edits.delete (s.fields.lookup key) = some ((erase key s.fields).lookup key)
        rw [hlookup, lookup_erase, if_pos rfl]
        rfl
      · show (erase key s.fields).lookup k = s.fields.lookup k
        rw [lookup_erase]
        exact if_neg hk

/-- The loops of `apply_at`, one after the other. -/
def editParts (path : List String) (create : List (String × Json))
    (update : List (String × Update Json)) (delete : List String) (s : Sheet) :
    Except Error Sheet := do
  let s ← Patch.editCreate path create s
  let s ← Patch.editUpdate path update s
  Patch.editDelete path delete s

theorem editParts_runs (path : List String) {create : List (String × Json)}
    {update : List (String × Update Json)} {delete : List String}
    (hnodup : (create.map Prod.fst ++ (update.map Prod.fst ++ delete)).Nodup)
    (hs : Kept original s) :
    Runs (Kept original) shown (sheetEdits path create update delete) (shown s)
      (editParts path create update delete s) := by
  obtain ⟨hcreate, hrest, -⟩ := List.nodup_append.mp hnodup
  obtain ⟨hupdate, hdelete, -⟩ := List.nodup_append.mp hrest
  refine (editCreate_runs hcreate hs).append (fun s' hs' => ?_) ?_
  · refine (editUpdate_runs hupdate hs').append (fun s'' hs'' => editDelete_runs hdelete hs'') ?_
    simpa [Function.comp_def] using hrest
  · simpa [Function.comp_def] using hnodup

/-- What an edit of an object leaves there. -/
theorem editAt_object {create : List (String × Json)} {update : List (String × Update Json)}
    {delete : List String} (hs : Kept original ⟨original, true⟩)
    (hnodup : (create.map Prod.fst ++ (update.map Prod.fst ++ delete)).Nodup) :
    (Patch.editAt path (.mk create update delete) (.object original)).map
        (fun o => o.getD (.object original)) =
      (editParts path create update delete ⟨original, true⟩).map fun s => .object s.fields := by
  have hruns := editParts_runs path hnodup hs
  have hbind : Patch.editAt path (.mk create update delete) (.object original) =
      (editParts path create update delete ⟨original, true⟩).map fun s =>
        if s.same || (original.isEmpty && s.fields.isEmpty) then none
        else some (.object s.fields) := by
    rw [Patch.editAt, editParts]
    cases Patch.editCreate path create ⟨original, true⟩ with
    | error e => rfl
    | ok s₁ =>
        show (Patch.editUpdate path update s₁ >>= _) =
          Except.map _ (Patch.editUpdate path update s₁ >>= _)
        cases Patch.editUpdate path update s₁ with
        | error e => rfl
        | ok s₂ =>
            show (Patch.editDelete path delete s₂ >>= _) =
              Except.map _ (Patch.editDelete path delete s₂)
            cases Patch.editDelete path delete s₂ <;> rfl
  rw [hbind]
  cases hparts : editParts path create update delete ⟨original, true⟩ with
  | error e => rfl
  | ok s =>
      rw [hparts] at hruns
      have hkept := hruns.1
      show Except.ok ((if _ then _ else _ : Option Json).getD _) = Except.ok _
      congr 1
      split_ifs with hsame
      · rw [Option.getD_none]
        congr 1
        rw [Bool.or_eq_true, Bool.and_eq_true, List.isEmpty_iff, List.isEmpty_iff] at hsame
        cases hsame with
        | inl hsame => exact (hkept.same hsame).symm
        | inr hempty => rw [hempty.1, hempty.2]
      · rfl

end Sheets

/-! ### What a patch does to a key -/

/-- What holds of every leaf, and of a patch once it holds of all its updates, holds of every
update. -/
@[elab_as_elim]
theorem Update.induction {α : Type} {motive : Update α → Prop}
    (value : ∀ child, motive (.value child))
    (object : ∀ create update delete, (∀ e ∈ update, motive e.2) →
      motive (.object (.mk create update delete))) : ∀ u, motive u
  | .value child => value child
  | .object (.mk create update delete) =>
      object create update delete fun e _ => Update.induction value object e.2
decreasing_by
  have hlt := List.sizeOf_lt_of_mem ‹_›
  obtain ⟨k, u⟩ := e
  simp only [Update.object.sizeOf_spec, Patch.mk.sizeOf_spec, Prod.mk.sizeOf_spec] at hlt ⊢
  omega

/-- An operation on a key. -/
inductive Op (α : Type)
  | create (value : α)
  | update (u : Update α)
  | delete

def Op.map {α β : Type} (f : α → β) : Op α → Op β
  | .create v => .create (f v)
  | .update u => .update (Patch.mapUpdate f u)
  | .delete => .delete

namespace Patch

variable {α : Type}

def keys : Patch α → List String
  | .mk create update delete => create.map Prod.fst ++ update.map Prod.fst ++ delete

/-- The operation on a key, if there is one. -/
def op : Patch α → String → Option (Op α)
  | .mk create update delete, key =>
      match create.lookup key with
      | some value => some (.create value)
      | none =>
          match update.lookup key with
          | some u => some (.update u)
          | none => if key ∈ delete then some .delete else none

variable {create : List (String × α)} {update : List (String × Update α)} {delete : List String}
  {key : String}

theorem lookup_isSome {β : Type} {xs : List (String × β)} :
    (xs.lookup key).isSome ↔ key ∈ xs.map Prod.fst := by
  rw [Option.isSome_iff_ne_none, ne_eq, lookup_eq_none_iff, List.mem_map]
  push Not
  exact Iff.rfl

theorem op_none : (Patch.mk create update delete).op key = none ↔
    key ∉ (Patch.mk create update delete).keys := by
  rw [op, keys, List.mem_append, List.mem_append, ← lookup_isSome, ← lookup_isSome]
  cases create.lookup key with
  | some value => simp
  | none =>
      cases update.lookup key with
      | some u => simp
      | none => simp

theorem op_create {v : α} : (Patch.mk create update delete).op key = some (.create v) ↔
    create.lookup key = some v := by
  rw [op]
  cases create.lookup key with
  | some value => simp
  | none =>
      cases update.lookup key with
      | some u => simp
      | none => simp

theorem op_update (h : (Patch.mk create update delete).keys.Nodup) {u : Update α} :
    (Patch.mk create update delete).op key = some (.update u) ↔ update.lookup key = some u := by
  rw [op]
  cases hcreate : create.lookup key with
  | some value =>
      refine ⟨nofun, fun hupdate => ?_⟩
      have hleft : key ∈ create.map Prod.fst := lookup_isSome.mp (by rw [hcreate]; rfl)
      have hright : key ∈ update.map Prod.fst := lookup_isSome.mp (by rw [hupdate]; rfl)
      rw [keys, List.append_assoc, List.nodup_append] at h
      exact absurd rfl (h.2.2 key hleft key (List.mem_append_left _ hright))
  | none =>
      cases update.lookup key with
      | some u => simp
      | none => simp

theorem op_delete (h : (Patch.mk create update delete).keys.Nodup) :
    (Patch.mk create update delete).op key = some .delete ↔ key ∈ delete := by
  rw [keys, List.nodup_append] at h
  have hapart : key ∈ delete → create.lookup key = none ∧ update.lookup key = none := by
    intro hdelete
    refine ⟨?_, ?_⟩
    · rw [← Option.not_isSome_iff_eq_none, lookup_isSome]
      exact fun hcreate => h.2.2 key (List.mem_append_left _ hcreate) key hdelete rfl
    · rw [← Option.not_isSome_iff_eq_none, lookup_isSome]
      exact fun hupdate => h.2.2 key (List.mem_append_right _ hupdate) key hdelete rfl
  constructor
  · intro hop
    rw [op] at hop
    split at hop
    · cases hop
    · split at hop
      · cases hop
      · split_ifs at hop with hdelete
        exact hdelete
  · intro hdelete
    obtain ⟨hcreate, hupdate⟩ := hapart hdelete
    rw [op, hcreate, hupdate]
    exact if_pos hdelete

/-! ### Other leaves -/

theorem keys_map {β : Type} (f : α → β) (p : Patch α) : (p.map f).keys = p.keys := by
  obtain ⟨create, update, delete⟩ := p
  rw [map, keys, keys, mapUpdates_keys]
  simp [mapValues]

theorem lookup_mapUpdates {β : Type} (f : α → β) (update : List (String × Update α)) :
    (mapUpdates f update).lookup key = (update.lookup key).map (mapUpdate f) := by
  induction update with
  | nil => rfl
  | cons e rest ih =>
      obtain ⟨k, u⟩ := e
      rw [mapUpdates, List.lookup_cons, List.lookup_cons]
      by_cases hk : key = k
      · rw [hk, beq_self_eq_true]
        rfl
      · rw [beq_eq_false_iff_ne.mpr hk]
        exact ih

theorem op_map {β : Type} (f : α → β) (p : Patch α) (key : String) :
    (p.map f).op key = (p.op key).map (Op.map f) := by
  obtain ⟨create, update, delete⟩ := p
  rw [map, op, op, lookup_mapValues, lookup_mapUpdates]
  cases create.lookup key with
  | some v => rfl
  | none =>
      cases update.lookup key with
      | some u => rfl
      | none =>
          show (if key ∈ delete then _ else _) = Option.map _ (if key ∈ delete then _ else _)
          split_ifs <;> rfl

/-- What becomes of a child that is updated. -/
def done (path : List String) (u : Update Json) (current : Json) : Option Json :=
  ((editNext path u current).map fun o => o.getD current).toOption

/-- What becomes of what stands under a key. -/
def turn (path : List String) (key : String) : Option (Op Json) → Edit Json
  | none => some
  | some (.create v) => Edits.create v
  | some (.update u) => Edits.update (done (path ++ [key]) u)
  | some .delete => Edits.delete

section Turn

variable {path : List String} {create : List (String × Json)}
  {update : List (String × Update Json)} {delete : List String} {fields : List (String × Json)}

/-- The edits of the loops are the operations on the keys. -/
theorem mem_sheetEdits (h : (Patch.mk create update delete).keys.Nodup) {e : String × Edit Json} :
    e ∈ sheetEdits path create update delete ↔ ∃ o,
      (Patch.mk create update delete).op e.1 = some o ∧ e.2 = turn path e.1 (some o) := by
  have hnodup := h
  rw [keys, List.append_assoc, List.nodup_append, List.nodup_append] at hnodup
  obtain ⟨hcreate, ⟨hupdate, -⟩, -⟩ := hnodup
  rw [sheetEdits, List.mem_append, List.mem_append]
  constructor
  · rintro (hmem | hmem | hmem)
    · obtain ⟨f, hf, rfl⟩ := List.mem_map.mp hmem
      exact ⟨.create f.2, op_create.mpr (lookup_of_mem_nodup hcreate hf), rfl⟩
    · obtain ⟨f, hf, rfl⟩ := List.mem_map.mp hmem
      exact ⟨.update f.2, (op_update h).mpr (lookup_of_mem_nodup hupdate hf), rfl⟩
    · obtain ⟨key, hkey, rfl⟩ := List.mem_map.mp hmem
      exact ⟨.delete, (op_delete h).mpr hkey, rfl⟩
  · obtain ⟨key, f⟩ := e
    rintro ⟨o, ho, hedit⟩
    dsimp only at ho hedit
    subst hedit
    cases o with
    | create v => exact .inl (List.mem_map.mpr ⟨_, mem_of_lookup (op_create.mp ho), rfl⟩)
    | update u => exact .inr (.inl (List.mem_map.mpr ⟨_, mem_of_lookup ((op_update h).mp ho), rfl⟩))
    | delete => exact .inr (.inr (List.mem_map.mpr ⟨key, (op_delete h).mp ho, rfl⟩))

/-- Making the edits is turning every key. -/
theorem turns_iff (h : (Patch.mk create update delete).keys.Nodup) {g g' : String → Option Json} :
    Turns (sheetEdits path create update delete) g g' ↔
      ∀ key, turn path key ((Patch.mk create update delete).op key) (g key) = some (g' key) := by
  constructor
  · intro hturns key
    cases ho : (Patch.mk create update delete).op key with
    | some o =>
        exact hturns.done (key, turn path key (some o)) ((mem_sheetEdits h).mpr ⟨o, ho, rfl⟩)
    | none =>
        refine congrArg some (hturns.same key fun e he heq => ?_).symm
        obtain ⟨o, ho', -⟩ := (mem_sheetEdits h).mp he
        rw [heq, ho] at ho'
        cases ho'
  · intro hturn
    refine ⟨fun e he => ?_, fun key hkey => ?_⟩
    · obtain ⟨o, ho, hedit⟩ := (mem_sheetEdits h).mp he
      have hone := hturn e.1
      rw [ho] at hone
      rw [hedit, hone]
    · have hone := hturn key
      cases ho : (Patch.mk create update delete).op key with
      | some o =>
          exact absurd rfl
            (hkey (key, turn path key (some o)) ((mem_sheetEdits h).mpr ⟨o, ho, rfl⟩))
      | none =>
          rw [ho] at hone
          exact (Option.some.inj hone).symm

theorem stuck_iff (h : (Patch.mk create update delete).keys.Nodup) {g : String → Option Json} :
    Stuck (sheetEdits path create update delete) g ↔
      ∃ key, turn path key ((Patch.mk create update delete).op key) (g key) = none := by
  constructor
  · rintro ⟨e, he, hnone⟩
    obtain ⟨o, ho, hedit⟩ := (mem_sheetEdits h).mp he
    exact ⟨e.1, by rw [ho, ← hedit, hnone]⟩
  · rintro ⟨key, hnone⟩
    cases ho : (Patch.mk create update delete).op key with
    | some o =>
        rw [ho] at hnone
        exact ⟨(key, turn path key (some o)), (mem_sheetEdits h).mpr ⟨o, ho, rfl⟩, hnone⟩
    | none =>
        rw [ho] at hnone
        cases hnone

/-- A patch is applied to an object or not, key by key. -/
theorem done_object (h : (Patch.mk create update delete).keys.Nodup) (hsorted : Sorted fields) :
    match done path (.object (.mk create update delete)) (.object fields) with
    | none =>
        ∃ key, turn path key ((Patch.mk create update delete).op key) (fields.lookup key) = none
    | some j => ∃ fields', j = .object fields' ∧ Sorted fields' ∧ ∀ key,
        turn path key ((Patch.mk create update delete).op key) (fields.lookup key) =
          some (fields'.lookup key) := by
  have hkept : Kept fields ⟨fields, true⟩ := ⟨hsorted, fun _ => rfl⟩
  have hnodup := h
  rw [keys, List.append_assoc] at hnodup
  have hruns := editParts_runs path hnodup hkept
  rw [done, editNext, editAt_object hkept hnodup]
  generalize editParts path create update delete ⟨fields, true⟩ = x at hruns
  cases x with
  | error e => exact (stuck_iff h).mp hruns
  | ok s => exact ⟨s.fields, rfl, hruns.1.sorted, (turns_iff h).mp hruns.2⟩

theorem done_object_iff (h : (Patch.mk create update delete).keys.Nodup) (hsorted : Sorted fields)
    {j : Json} :
    done path (.object (.mk create update delete)) (.object fields) = some j ↔
      ∃ fields', j = .object fields' ∧ Sorted fields' ∧ ∀ key,
        turn path key ((Patch.mk create update delete).op key) (fields.lookup key) =
          some (fields'.lookup key) := by
  have hdone := @done_object path create update delete fields h hsorted
  constructor
  · intro heq
    rw [heq] at hdone
    exact hdone
  · rintro ⟨fields', rfl, hsorted', hall⟩
    cases heq : done path (.object (.mk create update delete)) (.object fields) with
    | none =>
        rw [heq] at hdone
        obtain ⟨key, hnone⟩ := hdone
        rw [hall key] at hnone
        cases hnone
    | some j =>
        rw [heq] at hdone
        obtain ⟨fields'', rfl, hsorted'', hall'⟩ := hdone
        rw [hsorted''.ext hsorted' fun key => Option.some.inj ((hall' key).symm.trans (hall key))]

theorem exists_done (h : (Patch.mk create update delete).keys.Nodup) (hsorted : Sorted fields)
    (hall : ∀ key,
      turn path key ((Patch.mk create update delete).op key) (fields.lookup key) ≠ none) :
    ∃ fields', done path (.object (.mk create update delete)) (.object fields) =
      some (.object fields') := by
  have hdone := @done_object path create update delete fields h hsorted
  cases heq : done path (.object (.mk create update delete)) (.object fields) with
  | none =>
      rw [heq] at hdone
      exact absurd hdone.choose_spec (hall hdone.choose)
  | some j =>
      rw [heq] at hdone
      obtain ⟨fields', rfl, -⟩ := hdone
      exact ⟨fields', rfl⟩

theorem done_leaf {p : Patch Json} {current : Json} (h : current.isObject = false) :
    done path (.object p) current = none := by
  obtain ⟨create, update, delete⟩ := p
  cases current with
  | object fields => cases h
  | _ => rfl

end Turn

end Patch

end Lug.Cavlc
