import Lug.Cavlc.Equality
import Lug.Cavlc.Keys
import Lug.Cavlc.History

/-!
What a patch is for, on nested finite maps: what it asks of a document, and the document it
makes of it. `apply` succeeds where the patch is valid and its demands are met, and its result
is that document; it hands the input back just where the two are equal.
-/

namespace Lug.Cavlc

open SortedMap Edits

namespace Patch

/-! ### The reference -/

mutual

/-- There is an object, and each operation finds under its key what it asks for. -/
def Meets : Patch Json → Json → Prop
  | .mk create update delete, .object fields =>
      (∀ e ∈ create, fields.lookup e.1 = none) ∧ MeetsUpdates update fields ∧
        ∀ key ∈ delete, fields.lookup key ≠ none
  | _, _ => False

def MeetsUpdates : List (String × Update Json) → List (String × Json) → Prop
  | [], _ => True
  | (key, u) :: rest, fields =>
      (∃ current, fields.lookup key = some current ∧ MeetsUpdate u current) ∧
        MeetsUpdates rest fields

/-- An update does not turn an object into a leaf, nor a leaf into an object. -/
def MeetsUpdate : Update Json → Json → Prop
  | .object p, current => Meets p current
  | .value _, current => current.isObject = false

end

mutual

/-- The fields that are not deleted, those with an update updated, and the new ones. -/
def reference : Patch Json → Json → Json
  | .mk create update delete, .object fields =>
      .object (ofList (((fields.filter fun f => f.1 ∉ delete).map fun f =>
        (f.1, referenceAt update f.1 f.2)) ++ create))
  | _, j => j

def referenceAt : List (String × Update Json) → String → Json → Json
  | [], _, current => current
  | (key', u) :: rest, key, current =>
      if key = key' then referenceUpdate u current else referenceAt rest key current

def referenceUpdate : Update Json → Json → Json
  | .object p, current => reference p current
  | .value child, _ => child

end

variable {create : List (String × Json)} {update : List (String × Update Json)}
  {delete : List String} {fields fields' : List (String × Json)} {key : String}

theorem meetsUpdates_iff : MeetsUpdates update fields ↔
    ∀ e ∈ update, ∃ current, fields.lookup e.1 = some current ∧ MeetsUpdate e.2 current := by
  induction update with
  | nil => exact ⟨fun _ => by simp, fun _ => trivial⟩
  | cons e rest ih => rw [MeetsUpdates, ih, List.forall_mem_cons]

theorem referenceAt_eq (update : List (String × Update Json)) (key : String) (current : Json) :
    referenceAt update key current =
      ((update.lookup key).map fun u => referenceUpdate u current).getD current := by
  induction update with
  | nil => rfl
  | cons e rest ih =>
      obtain ⟨key', u⟩ := e
      rw [referenceAt, List.lookup_cons]
      by_cases hkey : key = key'
      · rw [if_pos hkey, hkey, beq_self_eq_true]
        rfl
      · rw [if_neg hkey, beq_eq_false_iff_ne.mpr hkey]
        exact ih

/-- What an operation asks of what stands under its key. -/
def Asks : Option (Op Json) → Option Json → Prop
  | none, _ => True
  | some (.create _), x => x = none
  | some (.update u), x => ∃ current, x = some current ∧ MeetsUpdate u current
  | some .delete, x => x ≠ none

/-- What an operation makes of what stands under its key. -/
def makes : Option (Op Json) → Option Json → Option Json
  | none, x => x
  | some (.create v), _ => some v
  | some (.update u), x => x.map (referenceUpdate u)
  | some .delete, _ => none

theorem meets_iff (h : (Patch.mk create update delete).keys.Nodup) :
    Meets (.mk create update delete) (.object fields) ↔
      ∀ key, Asks ((Patch.mk create update delete).op key) (fields.lookup key) := by
  rw [Meets, meetsUpdates_iff]
  have hnodup := h
  rw [keys, List.append_assoc, List.nodup_append, List.nodup_append] at hnodup
  obtain ⟨hcreate, ⟨hupdate, -⟩, -⟩ := hnodup
  constructor
  · rintro ⟨hc, hu, hd⟩ key
    cases ho : (Patch.mk create update delete).op key with
    | none => trivial
    | some o =>
        cases o with
        | create v => exact hc _ (mem_of_lookup (op_create.mp ho))
        | update u => exact hu _ (mem_of_lookup ((op_update h).mp ho))
        | delete => exact hd key ((op_delete h).mp ho)
  · intro hall
    refine ⟨fun e he => ?_, fun e he => ?_, fun key hkey => ?_⟩
    · have hkey := hall e.1
      rw [op_create.mpr (lookup_of_mem_nodup hcreate he)] at hkey
      exact hkey
    · have hkey := hall e.1
      rw [(op_update h).mpr (lookup_of_mem_nodup hupdate he)] at hkey
      exact hkey
    · have hkey' := hall key
      rw [(op_delete h).mpr hkey] at hkey'
      exact hkey'

theorem lookup_edited (g : String → Json → Json) :
    ((fields.filter fun f => f.1 ∉ delete).map fun f => (f.1, g f.1 f.2)).lookup key =
      if key ∈ delete then none else (fields.lookup key).map (g key) := by
  induction fields with
  | nil =>
      split_ifs
      · rfl
      · rfl
  | cons f fields ih =>
      obtain ⟨k, j⟩ := f
      rw [List.filter_cons, List.lookup_cons]
      by_cases hk : key = k
      · subst hk
        rw [beq_self_eq_true]
        by_cases hdelete : key ∈ delete
        · rw [if_neg (by simpa using hdelete), ih, if_pos hdelete, if_pos hdelete]
        · rw [if_pos (by simpa using hdelete), List.map_cons, List.lookup_cons, beq_self_eq_true,
            if_neg hdelete]
          rfl
      · rw [beq_eq_false_iff_ne.mpr hk, ← ih]
        split_ifs
        · rw [List.map_cons, List.lookup_cons, beq_eq_false_iff_ne.mpr hk]
        · rfl

/-- The parts of the reference, for a key. -/
theorem makes_eq (h : (Patch.mk create update delete).keys.Nodup)
    (hasks : Asks ((Patch.mk create update delete).op key) (fields.lookup key)) :
    (if key ∈ delete then none else (fields.lookup key).map (referenceAt update key)).or
        (create.lookup key) =
      makes ((Patch.mk create update delete).op key) (fields.lookup key) := by
  have hcreate : (∀ v, (Patch.mk create update delete).op key ≠ some (.create v)) →
      create.lookup key = none := fun hne =>
    Option.eq_none_iff_forall_ne_some.mpr fun v hv => hne v (op_create.mpr hv)
  have hkept : (Patch.mk create update delete).op key ≠ some .delete → key ∉ delete :=
    fun hne hdelete => hne ((op_delete h).mpr hdelete)
  have hupdate : (∀ u, (Patch.mk create update delete).op key ≠ some (.update u)) →
      referenceAt update key = id := fun hne => by
    have hnone : update.lookup key = none :=
      Option.eq_none_iff_forall_ne_some.mpr fun u hu => hne u ((op_update h).mpr hu)
    funext current
    rw [referenceAt_eq, hnone]
    rfl
  cases ho : (Patch.mk create update delete).op key with
  | none =>
      rw [if_neg (hkept (by rw [ho]; exact nofun)),
        hcreate (by rw [ho]; exact nofun), hupdate (by rw [ho]; exact nofun), Option.map_id,
        Option.or_none]
      rfl
  | some o =>
      cases o with
      | create v =>
          rw [ho] at hasks
          rw [if_neg (hkept (by rw [ho]; exact nofun)),
            op_create.mp ho, show fields.lookup key = none from hasks]
          rfl
      | update u =>
          have hat : referenceAt update key = referenceUpdate u := by
            funext current
            rw [referenceAt_eq, (op_update h).mp ho]
            rfl
          rw [if_neg (hkept (by rw [ho]; exact nofun)),
            hcreate (by rw [ho]; exact nofun), hat, Option.or_none]
          rfl
      | delete =>
          rw [if_pos ((op_delete h).mp ho), hcreate (by rw [ho]; exact nofun)]
          rfl

/-- What stands under each key of the reference. -/
theorem reference_object (h : (Patch.mk create update delete).keys.Nodup) (hsorted : Sorted fields)
    (hasks : ∀ key, Asks ((Patch.mk create update delete).op key) (fields.lookup key)) :
    ∃ fields', reference (.mk create update delete) (.object fields) = .object fields' ∧
      Sorted fields' ∧ ∀ key, fields'.lookup key =
        makes ((Patch.mk create update delete).op key) (fields.lookup key) := by
  refine ⟨_, by rw [reference], sorted_ofList, fun key => ?_⟩
  have hnodup := h
  rw [keys, List.append_assoc, List.nodup_append] at hnodup
  have hkept : Sorted ((fields.filter fun f => f.1 ∉ delete).map fun f =>
      (f.1, referenceAt update f.1 f.2)) := by
    rw [Sorted, List.map_map]
    exact hsorted.sublist List.filter_sublist
  rw [lookup_ofList, List.lookup_append, lookup_edited]
  · exact makes_eq h (hasks key)
  · rw [List.map_append, List.nodup_append]
    refine ⟨hkept.imp fun hlt => hlt.ne, hnodup.1, ?_⟩
    rintro k hleft _ hright rfl
    -- a key that is created is not there
    obtain ⟨v, hv⟩ := Option.isSome_iff_exists.mp (lookup_isSome.mpr hright)
    have habsent := hasks k
    rw [op_create.mpr hv] at habsent
    rw [← lookup_isSome, lookup_edited, show fields.lookup k = none from habsent] at hleft
    split_ifs at hleft
    · cases hleft
    · cases hleft

/-! ### The edit against it -/

variable {path : List String} {u : Update Json} {current j : Json}

theorem done_eq : done path u current = some j ↔
    ∃ o, editNext path u current = .ok o ∧ o.getD current = j := by
  rw [done]
  cases editNext path u current with
  | error e =>
      refine ⟨(fun h => by cases h), ?_⟩
      rintro ⟨_, h, _⟩
      cases h
  | ok o =>
      refine ⟨fun h => ⟨o, rfl, Option.some.inj h⟩, ?_⟩
      rintro ⟨_, ho, rfl⟩
      cases ho
      rfl

/-- An edit goes through if what it asks for is there, makes the reference, and leaves things
as they are if that is what they were. -/
structure Exact (path : List String) (u : Update Json) (current : Json) : Prop where
  meets : done path u current ≠ none ↔ MeetsUpdate u current
  made : ∀ j, done path u current = some j → (referenceUpdate u current).eq j = true
  same : ∀ o, editNext path u current = .ok o →
    (o.getD current).eq current = true → o = none

theorem exact_value (child : Json) : Exact path (.value child) current := by
  cases hobject : current.isObject with
  | true =>
      have hedit : editNext path (.value child) current =
          .error (.precondition path "cannot replace an object; Delete it before Create") := by
        rw [editNext, hobject]
        rfl
      refine ⟨?_, ?_, ?_⟩
      · rw [done, hedit, MeetsUpdate, hobject]
        exact ⟨fun h => absurd rfl h, (fun h => by cases h)⟩
      · rw [done, hedit]
        exact (fun _ h => by cases h)
      · rw [hedit]
        exact (fun _ h => by cases h)
  | false =>
      have hedit : editNext path (.value child) current =
          if child.eq current then .ok none else .ok (some child) := by
        rw [editNext, hobject]
        rfl
      refine ⟨?_, ?_, ?_⟩
      · rw [done, hedit, MeetsUpdate, hobject]
        refine ⟨fun _ => rfl, fun _ => ?_⟩
        split_ifs
        · exact (fun h => by cases h)
        · exact (fun h => by cases h)
      · intro j hj
        obtain ⟨o, ho, rfl⟩ := done_eq.mp hj
        rw [hedit] at ho
        rw [referenceUpdate]
        split_ifs at ho with heq
        · cases ho
          exact heq
        · cases ho
          exact child.eq_self
      · intro o ho heq
        rw [hedit] at ho
        split_ifs at ho with hne
        · cases ho
          rfl
        · cases ho
          exact absurd heq hne

section Turn

variable {o : Option (Op Json)} {x y : Option Json}

theorem turn_asks (h : ∀ u current, o = some (.update u) → x = some current →
    Exact (path ++ [key]) u current) : turn path key o x ≠ none ↔ Asks o x := by
  cases o with
  | none => exact ⟨fun _ => trivial, fun _ => nofun⟩
  | some o =>
      cases o with
      | create v =>
          cases x with
          | none => exact ⟨fun _ => rfl, fun _ => nofun⟩
          | some current => exact ⟨fun hturn => absurd rfl hturn, nofun⟩
      | delete =>
          cases x with
          | none => exact ⟨fun hturn => absurd rfl hturn, fun hasks => absurd rfl hasks⟩
          | some current => exact ⟨fun _ => nofun, fun _ => nofun⟩
      | update u =>
          cases x with
          | none =>
              refine ⟨fun hturn => absurd rfl hturn, ?_⟩
              rintro ⟨current, hnone, -⟩
              cases hnone
          | some current =>
              have hmeets := (h u current rfl rfl).meets
              show (done (path ++ [key]) u current).map some ≠ none ↔ _
              rw [ne_eq, Option.map_eq_none_iff, ← ne_eq, hmeets]
              constructor
              · exact fun hmeets => ⟨current, rfl, hmeets⟩
              · rintro ⟨_, hsome, hmeets⟩
                cases hsome
                exact hmeets

theorem turn_makes (h : ∀ u current, o = some (.update u) → x = some current →
    Exact (path ++ [key]) u current) (hturn : turn path key o x = some y) :
    Json.Alike (makes o x) y := by
  cases o with
  | none =>
      cases hturn
      exact Json.alike_self x
  | some o =>
      cases o with
      | create v =>
          cases x with
          | none =>
              cases hturn
              exact Json.alike_self (some v)
          | some current => cases hturn
      | delete =>
          cases x with
          | none => cases hturn
          | some current =>
              cases hturn
              exact .none
      | update u =>
          cases x with
          | none => cases hturn
          | some current =>
              obtain ⟨j, hj, rfl⟩ := Option.map_eq_some_iff.mp hturn
              exact .some ((h u current rfl rfl).made j hj)

end Turn

theorem editUpdate_same {s : Sheet}
    (h : ∀ e ∈ update, ∃ current, s.fields.lookup e.1 = some current ∧
      editNext (path ++ [e.1]) e.2 current = .ok none) : editUpdate path update s = .ok s := by
  induction update with
  | nil => rw [editUpdate]
  | cons e rest ih =>
      obtain ⟨key, u⟩ := e
      rw [List.forall_mem_cons] at h
      obtain ⟨⟨current, hlookup, hnext⟩, hrest⟩ := h
      rw [editUpdate, hlookup]
      dsimp only
      rw [hnext]
      exact ih hrest

/-- Where every key comes to what it was, nothing was edited. -/
theorem editAt_same (h : (Patch.mk create update delete).keys.Nodup)
    (hexact : ∀ key u current, update.lookup key = some u → fields.lookup key = some current →
      Exact (path ++ [key]) u current)
    (hturn : ∀ key, turn path key ((Patch.mk create update delete).op key) (fields.lookup key) =
      some (fields'.lookup key))
    (halike : ∀ key, Json.Alike (fields'.lookup key) (fields.lookup key)) :
    editAt path (.mk create update delete) (.object fields) = .ok none := by
  have hnodup := h
  rw [keys, List.append_assoc, List.nodup_append, List.nodup_append] at hnodup
  obtain ⟨hcreate, ⟨hupdate, -⟩, -⟩ := hnodup
  have hnone : create = [] := by
    refine List.eq_nil_iff_forall_not_mem.mpr fun e he => ?_
    have hkey := hturn e.1
    have heq := halike e.1
    rw [op_create.mpr (lookup_of_mem_nodup hcreate he)] at hkey
    generalize fields.lookup e.1 = x at hkey heq
    generalize fields'.lookup e.1 = y at hkey heq
    cases x with
    | none =>
        cases hkey
        cases heq
    | some current => cases hkey
  have hkept : delete = [] := by
    refine List.eq_nil_iff_forall_not_mem.mpr fun key hdelete => ?_
    have hkey := hturn key
    have heq := halike key
    rw [(op_delete h).mpr hdelete] at hkey
    generalize fields.lookup key = x at hkey heq
    generalize fields'.lookup key = y at hkey heq
    cases x with
    | none => cases hkey
    | some current =>
        cases hkey
        cases heq
  have hsame : editUpdate path update ⟨fields, true⟩ = .ok ⟨fields, true⟩ := by
    refine editUpdate_same fun e he => ?_
    have hlookup := lookup_of_mem_nodup hupdate he
    have hkey := hturn e.1
    have heq := halike e.1
    rw [(op_update h).mpr hlookup] at hkey
    cases hx : fields.lookup e.1 with
    | none =>
        rw [hx] at hkey
        cases hkey
    | some current =>
        rw [hx] at hkey heq
        obtain ⟨j, hj, hsome⟩ := Option.map_eq_some_iff.mp hkey
        rw [← hsome] at heq
        obtain ⟨o, ho, rfl⟩ := done_eq.mp hj
        cases heq with
        | some heq =>
            refine ⟨current, rfl, ?_⟩
            rw [ho, (hexact _ _ _ hlookup hx).same o ho heq]
  subst hnone hkept
  rw [editAt]
  show (editUpdate path update ⟨fields, true⟩ >>= _) = _
  rw [hsame]
  rfl

theorem exact_object (h : (Patch.mk create update delete).keys.Nodup) (hsorted : Sorted fields)
    (hexact : ∀ key u current, update.lookup key = some u → fields.lookup key = some current →
      Exact (path ++ [key]) u current) :
    Exact path (.object (.mk create update delete)) (.object fields) := by
  have hops : ∀ key u current, (Patch.mk create update delete).op key = some (.update u) →
      fields.lookup key = some current → Exact (path ++ [key]) u current :=
    fun key u current ho => hexact key u current ((op_update h).mp ho)
  have hasks : done path (.object (.mk create update delete)) (.object fields) ≠ none ↔
      ∀ key, Asks ((Patch.mk create update delete).op key) (fields.lookup key) := by
    constructor
    · intro hdone key
      obtain ⟨j, hj⟩ := Option.ne_none_iff_exists'.mp hdone
      obtain ⟨fields', -, -, hturn⟩ := (done_object_iff h hsorted).mp hj
      rw [← turn_asks (hops key), hturn key]
      exact nofun
    · intro hall
      obtain ⟨fields', hdone⟩ := @exists_done path create update delete fields h hsorted fun key =>
        (turn_asks (hops key)).mpr (hall key)
      rw [hdone]
      exact nofun
  refine ⟨hasks.trans (meets_iff h).symm, fun j hj => ?_, fun o ho heq => ?_⟩
  · have hall := hasks.mp (by rw [hj]; exact nofun)
    obtain ⟨made, hmade, hsorted', hlookup⟩ := reference_object h hsorted hall
    obtain ⟨fields', rfl, hsorted'', hturn⟩ := (done_object_iff h hsorted).mp hj
    rw [referenceUpdate, hmade, Json.eq, Json.eqFields_iff hsorted' hsorted'']
    intro key
    rw [hlookup key]
    exact turn_makes (hops key) (hturn key)
  · obtain ⟨fields', hfields', hsorted', hturn⟩ :=
      (done_object_iff h hsorted).mp (done_eq.mpr ⟨o, ho, rfl⟩)
    rw [hfields', Json.eq, Json.eqFields_iff hsorted' hsorted] at heq
    rw [editNext, editAt_same h hexact hturn heq] at ho
    exact (Except.ok.inj ho).symm

/-- Valid edits of canonical documents do what the reference says. -/
theorem exact_of_valid (u : Update Json) (hvalid : validateUpdate Json.isObject key u = .ok ())
    (hj : current.Canonical) : Exact path u current := by
  induction u using Update.induction generalizing path key current with
  | value child => exact exact_value child
  | object create update delete ih =>
      obtain ⟨hnodup, hupdates⟩ := validate_ok.mp hvalid
      cases hobject : current.isObject with
      | false =>
          have hnone : ∀ o, editNext path (.object (.mk create update delete)) current ≠ .ok o := by
            intro o ho
            have hdone := @done_leaf path (.mk create update delete) current hobject
            rw [done, ho] at hdone
            cases hdone
          refine ⟨?_, ?_, fun o ho => absurd ho (hnone o)⟩
          · rw [done_leaf hobject, MeetsUpdate]
            cases current with
            | object fields => cases hobject
            | _ => exact ⟨fun h => absurd rfl h, (fun h => by cases h)⟩
          · rw [done_leaf hobject]
            exact (fun _ h => by cases h)
      | true =>
          cases hj with
          | @object fields hsorted hall =>
              refine exact_object hnodup hsorted fun key u current hu hcurrent => ?_
              exact ih _ (mem_of_lookup hu) (validateUpdates_ok.mp hupdates _ (mem_of_lookup hu))
                (hall _ (mem_of_lookup hcurrent))
          | _ => cases hobject

end Patch

/-! ### `apply` -/

namespace OrderedPatch

variable {p : OrderedPatch}

/-- A patch that passes `validate`. -/
def Valid (p : OrderedPatch) : Prop := p.patch.validate (fun v => v.asObject.isSome) = .ok ()

theorem valid_iff : p.Valid ↔ p.toJson.validate Json.isObject = .ok () := by
  have hisObject : (fun v : Value => v.toJson.isObject) = fun v => v.asObject.isSome :=
    funext fun v => v.shows.isObject.symm
  rw [Valid, toJson, Patch.validate_map, hisObject]

theorem exact_edit (h : p.Valid) (v : Value) : Patch.Exact [] (.object p.toJson) v.toJson := by
  have hvalid : Patch.validateUpdate Json.isObject "" (.object p.toJson) = .ok () :=
    valid_iff.mp h
  exact Patch.exact_of_valid _ hvalid v.canonical

theorem valid_of_apply {v : Value} {o : Option Value} (h : p.apply v = .ok o) : p.Valid := by
  have hedit := p.apply_edit v
  rw [h] at hedit
  obtain ⟨_, hok, -⟩ := hedit.ok_left
  obtain ⟨_, hvalid, -⟩ := Except.bind_eq_ok.mp hok
  exact valid_iff.mpr hvalid

/-- A valid patch is applied to the document. -/
theorem apply_editNext (h : p.Valid) (v : Value) :
    Agree (Option.Rel fun w j => Value.toJson w = j) (p.apply v)
      (Patch.editNext [] (.object p.toJson) v.toJson) := by
  have hedit := p.apply_edit v
  rw [Patch.edit, valid_iff.mp h] at hedit
  exact hedit

theorem exists_apply (v : Value) :
    (∃ o, p.apply v = .ok o) ↔ p.Valid ∧ p.toJson.Meets v.toJson := by
  constructor
  · rintro ⟨o, ho⟩
    have hvalid := valid_of_apply ho
    have hedit := apply_editNext hvalid v
    rw [ho] at hedit
    obtain ⟨o', ho', -⟩ := hedit.ok_left
    refine ⟨hvalid, (exact_edit hvalid v).meets.mp ?_⟩
    rw [Patch.done_eq.mpr ⟨o', ho', rfl⟩]
    exact nofun
  · rintro ⟨hvalid, hmeets⟩
    obtain ⟨j, hj⟩ := Option.ne_none_iff_exists'.mp ((exact_edit hvalid v).meets.mpr hmeets)
    obtain ⟨o', ho', -⟩ := Patch.done_eq.mp hj
    have hedit := apply_editNext hvalid v
    rw [ho'] at hedit
    obtain ⟨o, ho, -⟩ := hedit.symm.ok_left
    exact ⟨o, ho⟩

theorem apply_made {v : Value} {o : Option Value} (h : p.apply v = .ok o) :
    (p.toJson.reference v.toJson).eq (o.getD v).toJson = true ∧
      (o = none ↔ (o.getD v).toJson.eq v.toJson = true) := by
  have hvalid := valid_of_apply h
  have hedit := apply_editNext hvalid v
  rw [h] at hedit
  obtain ⟨o', ho', hrel⟩ := hedit.ok_left
  have hgetD : (o.getD v).toJson = o'.getD v.toJson := by
    cases hrel with
    | none => rfl
    | some heq => exact heq
  have hnone : o = none ↔ o' = none := by
    cases hrel with
    | none => exact ⟨fun _ => rfl, fun _ => rfl⟩
    | some _ => exact ⟨nofun, nofun⟩
  rw [hgetD, hnone]
  refine ⟨(exact_edit hvalid v).made _ (Patch.done_eq.mpr ⟨o', ho', rfl⟩), ?_,
    (exact_edit hvalid v).same o' ho'⟩
  rintro rfl
  exact Json.eq_self _

theorem batch_apply {b b' : Batch} (h : b.apply p = .ok b') :
    b'.patches = b.patches ↔ b'.working.toJson.eq b.working.toJson = true := by
  rw [Batch.apply] at h
  cases happly : p.apply b.working with
  | error e =>
      rw [happly] at h
      cases h
  | ok o =>
      have hmade := (apply_made happly).2
      rw [happly] at h
      cases o with
      | none =>
          cases h
          exact ⟨fun _ => Json.eq_self _, fun _ => rfl⟩
      | some next =>
          cases h
          refine ⟨fun hpatches => ?_, fun heq => ?_⟩
          · simp at hpatches
          · cases hmade.mpr heq

theorem store_apply {s : Store} {r : ApplyResult} (h : (s.apply p).1 = .ok r) :
    r.record = none ↔ r.snapshot.root.toJson.eq s.snapshot.root.toJson = true := by
  rw [Store.apply] at h
  cases hbatch : s.beginBatch.apply p with
  | error e =>
      rw [hbatch] at h
      cases h
  | ok b =>
      rw [hbatch] at h
      have hiff := batch_apply hbatch
      cases Batch.apply_cases hbatch with
      | inl heq =>
          subst heq
          simp only [Store.applyBatch, Store.beginBatch, ne_eq, not_true_eq_false, if_false,
            List.isEmpty_nil, if_true] at h
          cases h
          exact ⟨fun _ => Json.eq_self _, fun _ => rfl⟩
      | inr hstep =>
          obtain ⟨u, -, rfl⟩ := hstep
          simp only [Store.applyBatch, Store.beginBatch, ne_eq, not_true_eq_false, if_false,
            List.nil_append, List.isEmpty_cons, Bool.false_eq_true] at h
          split_ifs at h
          cases h
          refine ⟨(fun h => by cases h), fun heq => ?_⟩
          cases hiff.mpr heq

/-- `apply` goes through where the patch is valid and everything it asks for is there, makes
the reference, and hands its input back if and only if the result equals it as JSON. -/
theorem apply_reference (p : OrderedPatch) :
    (∀ v, (∃ o, p.apply v = .ok o) ↔ p.Valid ∧ p.toJson.Meets v.toJson) ∧
    (∀ v o, p.apply v = .ok o → (p.toJson.reference v.toJson).eq (o.getD v).toJson = true ∧
      (o = none ↔ (o.getD v).toJson.eq v.toJson = true)) ∧
    (∀ b b' : Batch, b.apply p = .ok b' →
      (b'.patches = b.patches ↔ b'.working.toJson.eq b.working.toJson = true)) ∧
    (∀ (s : Store) r, (s.apply p).1 = .ok r →
      (r.record = none ↔ r.snapshot.root.toJson.eq s.snapshot.root.toJson = true)) ∧
    ∀ a b : Value, a.kind.eq b.kind = a.toJson.eq b.toJson ∧
      (a.toJson.FloatFree → (a.toJson.eq b.toJson = true ↔ a.toJson = b.toJson)) :=
  ⟨exists_apply, fun _ _ => apply_made, fun _ _ => batch_apply, fun _ _ => store_apply,
    fun a b => ⟨a.wellFormed.eq_eq b.wellFormed, Json.FloatFree.eq_iff⟩⟩

end OrderedPatch

end Lug.Cavlc
