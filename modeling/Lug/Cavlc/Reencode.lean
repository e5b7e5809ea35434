import Lug.Cavlc.Wire

/-!
What becomes of the document of a patch that is decoded and encoded again: every
operation that lists nothing is left out, at every depth, and nothing else.
-/

namespace Lug.Cavlc

open SortedMap

namespace Patch

/-- An operation that lists nothing. -/
def isVoid : Json → Bool
  | .object fields => fields.isEmpty
  | .array items => items.isEmpty
  | _ => false

mutual

/-- The document of an update, or of a patch, without its void operations. -/
def prune : Json → Json
  | .object fields => .object (pruneOperations fields)
  | j => j

def pruneOperations : List (String × Json) → List (String × Json)
  | [] => []
  | (key, value) :: fields =>
      let rest := pruneOperations fields
      if isVoid value then rest
      else (key, if key = "Update" then pruneUpdates value else value) :: rest

/-- A map of updates, each without its void operations. -/
def pruneUpdates : Json → Json
  | .object fields => .object (pruneEach fields)
  | j => j

def pruneEach : List (String × Json) → List (String × Json)
  | [] => []
  | (key, value) :: fields => (key, prune value) :: pruneEach fields

end

theorem pruneEach_eq (fields : List (String × Json)) : pruneEach fields = mapValues prune fields := by
  induction fields with
  | nil => rfl
  | cons f fields ih =>
      obtain ⟨key, value⟩ := f
      rw [pruneEach, ih]
      rfl

theorem pruneOperations_sublist (fields : List (String × Json)) :
    ((pruneOperations fields).map Prod.fst).Sublist (fields.map Prod.fst) := by
  induction fields with
  | nil => exact List.Sublist.refl _
  | cons f fields ih =>
      obtain ⟨key, value⟩ := f
      rw [pruneOperations]
      split
      · exact ih.cons _
      · exact ih.cons_cons _

theorem sorted_pruneOperations {fields : List (String × Json)} (sorted : Sorted fields) :
    Sorted (pruneOperations fields) :=
  List.Pairwise.sublist (pruneOperations_sublist fields) sorted

theorem lookup_pruneOperations {fields : List (String × Json)} (sorted : Sorted fields)
    (key : String) : (pruneOperations fields).lookup key =
      (fields.lookup key).bind fun value => if isVoid value then none
        else some (if key = "Update" then pruneUpdates value else value) := by
  induction fields with
  | nil => rfl
  | cons f fields ih =>
      obtain ⟨k, value⟩ := f
      obtain ⟨hfirst, hrest⟩ := sorted_cons.mp sorted
      rw [pruneOperations, List.lookup_cons]
      by_cases hkey : key = k
      · subst hkey
        have hnone : (pruneOperations fields).lookup key = none := by
          rw [lookup_eq_none_iff]
          intro x hx
          have hmem := (pruneOperations_sublist fields).subset (List.mem_map_of_mem hx)
          obtain ⟨y, hy, hxy⟩ := List.mem_map.mp hmem
          rw [← hxy]
          exact (hfirst y hy).ne'
        by_cases hvoid : isVoid value
        · simp [hvoid, hnone]
        · simp [hvoid]
      · have hne : (key == k) = false := by simpa using hkey
        rw [hne]
        by_cases hvoid : isVoid value
        · simp [hvoid, ih hrest]
        · simp [hvoid, hne, ih hrest, List.lookup_cons]

variable [TextCodec]

theorem map_string_of_mapM {items : List Json} {delete : List String}
    (h : items.mapM readString = .ok delete) : items = delete.map .string := by
  induction items generalizing delete with
  | nil =>
      cases h
      rfl
  | cons item items ih =>
      rw [List.mapM_cons] at h
      obtain ⟨s, hs, h⟩ := Except.bind_eq_ok.mp h
      obtain ⟨rest, hrest, h⟩ := Except.bind_eq_ok.mp h
      cases h
      cases item with
      | string t =>
          cases hs
          rw [ih hrest, List.map_cons]
      | _ => cases hs

theorem readEach_prune {fields : List (String × Json)}
    (h : ∀ f ∈ fields, ∀ u, readUpdate f.2 = .ok u → (encodeUpdate u).normal = prune f.2)
    {us : List (String × Update Json)} (hread : readEach fields = .ok us) :
    mapValues Json.normal (encodeUpdates us) = pruneEach fields := by
  induction fields generalizing us with
  | nil =>
      cases hread
      rfl
  | cons f fields ih =>
      obtain ⟨key, value⟩ := f
      rw [readEach] at hread
      obtain ⟨u, hu, hread⟩ := Except.bind_eq_ok.mp hread
      obtain ⟨rest, hrest, hread⟩ := Except.bind_eq_ok.mp hread
      cases hread
      rw [Except.mapError_eq_ok] at hu
      have hfirst := h (key, value) List.mem_cons_self u hu
      have hlater := ih (fun f hf => h f (List.mem_cons_of_mem _ hf)) hrest
      rw [encodeUpdates, pruneEach, ← hlater, ← hfirst]
      rfl

/-- Encoding what was read prunes it. -/
theorem readUpdate_prune {j : Json} (h : j.Canonical) :
    (∀ u, readUpdate j = .ok u → (encodeUpdate u).normal = prune j) ∧
      ∀ us, readUpdates j = .ok us → (Json.object (encodeUpdates us)).normal = pruneUpdates j ∧
        us.isEmpty = isVoid j := by
  induction h with
  | @object fields sorted hall ih =>
      constructor
      · intro u hu
        rw [readUpdate] at hu
        obtain ⟨p, hassemble, rfl⟩ := Except.map_eq_ok.mp hu
        obtain ⟨create, update, delete, rfl, hcreate, hupdate, hdelete, hknown⟩ :=
          assemble_ok hassemble
        have hcanonical : ∀ {key value}, fields.lookup key = some value → value.normal = value :=
          fun hvalue => (hall _ (mem_of_lookup hvalue)).normal_eq
        rw [encodeUpdate, normal_encode, prune]
        congr 1
        refine Sorted.ext sorted_ofList (sorted_pruneOperations sorted) fun key => ?_
        rw [lookup_pruneOperations sorted]
        by_cases hkey : key = "Create" ∨ key = "Update" ∨ key = "Delete"
        · rcases hkey with rfl | rfl | rfl
          · rw [lookup_create]
            rcases take_ok hcreate with ⟨hnone, rfl⟩ | ⟨value, hvalue, hread⟩
            · simp [hnone]
            · cases value with
              | object fields =>
                  cases hread
                  simp [hvalue, isVoid, hcanonical hvalue]
              | _ => cases hread
          · rw [lookup_update]
            rcases takeUpdate_ok hupdate with ⟨hnone, rfl⟩ | ⟨value, hvalue, hread⟩
            · simp [hnone]
            · obtain ⟨hpruned, hvoid⟩ := (ih _ (mem_of_lookup hvalue)).2 update hread
              simp [hvalue, hpruned, hvoid]
          · rw [lookup_delete]
            rcases take_ok hdelete with ⟨hnone, rfl⟩ | ⟨value, hvalue, hread⟩
            · simp [hnone]
            · cases value with
              | array items =>
                  obtain rfl := map_string_of_mapM hread
                  simp [hvalue, isVoid, hcanonical hvalue]
              | _ => cases hread
        · push Not at hkey
          obtain ⟨hc, hu, hd⟩ := hkey
          have hnone : fields.lookup key = none := by
            rw [lookup_eq_none_iff]
            rintro f hf rfl
            rcases hknown f hf with h | h | h
            · exact hc h
            · exact hu h
            · exact hd h
          rw [hnone, lookup_document, Option.bind_none, Option.map_eq_none_iff,
            lookup_eq_none_iff]
          intro e he
          rw [List.mem_append, List.mem_append] at he
          rcases he with (he | he) | he
          · rw [mem_field he]
            exact hc.symm
          · rw [mem_field he]
            exact hu.symm
          · rw [mem_field he]
            exact hd.symm
      · intro us hus
        rw [readUpdates] at hus
        have heach := readEach_prune (fun f hf => (ih f hf).1) hus
        have hsorted : Sorted (pruneEach fields) := by
          rw [pruneEach_eq, sorted_mapValues]
          exact sorted
        rw [Json.normal_object, heach, ofList_of_sorted hsorted, pruneUpdates]
        refine ⟨rfl, ?_⟩
        have hlength := congrArg List.length heach
        simp only [mapValues, List.length_map, pruneEach_eq] at hlength
        have hkeys := congrArg List.length (encodeUpdates_keys us)
        simp only [List.length_map] at hkeys
        rw [isVoid]
        cases us <;> cases fields <;> simp_all
  | array hall _ =>
      refine ⟨fun u hu => ?_, fun _ h => by cases h⟩
      cases hu
      exact (Json.Canonical.array hall).normal_eq
  | _ =>
      refine ⟨fun u hu => ?_, fun _ h => by cases h⟩
      cases hu
      rfl

/-- The JSON of a patch that was decoded, encoded and read back. -/
theorem read_prune {j : Json} (h : j.Canonical) {p : Patch Json} (hread : read j = .ok p) :
    (encode p).normal = prune j := by
  cases h with
  | object sorted hall =>
      rw [read, Except.mapError_eq_ok] at hread
      have hupdate := (readUpdate_prune (.object sorted hall)).1 (.object p)
      exact hupdate (by rw [readUpdate, hread]; rfl)
  | _ => cases hread

theorem readEach_all {fields : List (String × Json)}
    (h : ∀ f ∈ fields, ∀ u, readUpdate f.2 = .ok u → AllUpdate Json.Canonical u)
    {us : List (String × Update Json)} (hread : readEach fields = .ok us) :
    AllUpdates Json.Canonical us := by
  induction fields generalizing us with
  | nil =>
      cases hread
      trivial
  | cons f fields ih =>
      obtain ⟨key, value⟩ := f
      rw [readEach] at hread
      obtain ⟨u, hu, hread⟩ := Except.bind_eq_ok.mp hread
      obtain ⟨rest, hrest, hread⟩ := Except.bind_eq_ok.mp hread
      cases hread
      rw [Except.mapError_eq_ok] at hu
      exact ⟨h (key, value) List.mem_cons_self u hu,
        ih (fun f hf => h f (List.mem_cons_of_mem _ hf)) hrest⟩

/-- The leaves of what is read are parts of the document. -/
theorem readUpdate_all {j : Json} (h : j.Canonical) :
    (∀ u, readUpdate j = .ok u → AllUpdate Json.Canonical u) ∧
      ∀ us, readUpdates j = .ok us → AllUpdates Json.Canonical us := by
  induction h with
  | @object fields sorted hall ih =>
      constructor
      · intro u hu
        rw [readUpdate] at hu
        obtain ⟨p, hassemble, rfl⟩ := Except.map_eq_ok.mp hu
        obtain ⟨create, update, delete, rfl, hcreate, hupdate, -⟩ := assemble_ok hassemble
        refine ⟨?_, ?_⟩
        · rcases take_ok hcreate with ⟨-, rfl⟩ | ⟨value, hvalue, hread⟩
          · simp
          · cases hall _ (mem_of_lookup hvalue) with
            | object _ hleaves =>
                cases hread
                exact hleaves
            | _ => cases hread
        · rcases takeUpdate_ok hupdate with ⟨-, rfl⟩ | ⟨value, hvalue, hread⟩
          · trivial
          · exact (ih _ (mem_of_lookup hvalue)).2 _ hread
      · intro us hus
        rw [readUpdates] at hus
        exact readEach_all (fun f hf => (ih f hf).1) hus
  | array hall _ =>
      refine ⟨fun u hu => ?_, fun _ h => by cases h⟩
      cases hu
      exact .array hall
  | null =>
      refine ⟨fun u hu => ?_, fun _ h => by cases h⟩
      cases hu
      exact .null
  | bool b =>
      refine ⟨fun u hu => ?_, fun _ h => by cases h⟩
      cases hu
      exact .bool b
  | number n =>
      refine ⟨fun u hu => ?_, fun _ h => by cases h⟩
      cases hu
      exact .number n
  | string s =>
      refine ⟨fun u hu => ?_, fun _ h => by cases h⟩
      cases hu
      exact .string s

theorem read_all {j : Json} (h : j.Canonical) {p : Patch Json} (hread : read j = .ok p) :
    p.All Json.Canonical := by
  cases h with
  | object sorted hall =>
      rw [read, Except.mapError_eq_ok] at hread
      have hupdate := (readUpdate_all (.object sorted hall)).1 (.object p)
      exact hupdate (by rw [readUpdate, hread]; rfl)
  | _ => cases hread

end Patch

/-- What storage gives back of a patch that arrived as this document. -/
theorem OrderedPatch.toVec_prune [TextCodec] (h : TextCodec.RoundTrips) {j : Json}
    (hj : j.Canonical) {p : OrderedPatch} (hp : Serde.fromValue j = .ok p) {b : Bytes}
    (hb : Serde.toVec p = .ok b) : TextCodec.fromSlice b = .ok (Patch.prune j) := by
  have hread : ∃ q, Patch.read j = .ok q ∧ p.toJson = q := by
    change ofJson j = .ok p at hp
    unfold ofJson at hp
    split at hp
    · cases hp
    · rename_i q hq
      cases hp
      rw [hj.normal_eq] at hq
      exact ⟨q, hq, Patch.map_map_of_all (fun _ => Value.toJson_ofJson) _ (Patch.read_all hj hq)⟩
  obtain ⟨q, hq, hsays⟩ := hread
  cases hb
  rw [h, hsays, Patch.read_prune hj hq]

end Lug.Cavlc
