import Mathlib.Data.List.Basic
import Mathlib.Data.List.Perm.Basic

/-!
Records whose fields are named: a field is read from under its name, wherever it
stands, a name that stands twice is refused, and names nobody asks for are passed over.
-/

namespace Fields

variable {K V α β : Type*} [DecidableEq K]

/-- What stands under a name. -/
def under (k : K) (fields : List (K × V)) : List V := (fields.filter (·.1 = k)).map Prod.snd

/-- A field that may be absent. -/
def optional (read : V → Option α) (k : K) (fields : List (K × V)) : Option (Option α) :=
  match under k fields with
  | [] => some none
  | [v] => (read v).map some
  | _ => none

def required (read : V → Option α) (k : K) (fields : List (K × V)) : Option α :=
  (optional read k fields).join

/-- A field that is `d` where it is absent. -/
def defaulted (read : V → Option α) (d : α) (k : K) (fields : List (K × V)) : Option α :=
  (optional read k fields).map (·.getD d)

section Under

variable {k : K} {v : V} {fields fields' : List (K × V)}

theorem under_append (k : K) (fields fields' : List (K × V)) :
    under k (fields ++ fields') = under k fields ++ under k fields' := by
  rw [under, List.filter_append, List.map_append]
  rfl

theorem under_eq_nil : under k fields = [] ↔ ∀ f ∈ fields, f.1 ≠ k := by
  rw [under, List.map_eq_nil_iff, List.filter_eq_nil_iff]
  simp only [decide_eq_true_eq]

theorem mem_under : v ∈ under k fields ↔ (k, v) ∈ fields := by
  simp [under]

theorem under_perm (h : fields.Perm fields') : (under k fields).Perm (under k fields') :=
  (h.filter _).map _

/-- Under a name that is not taken out stands what stood there. -/
theorem under_filter {p : K → Bool} (hk : p k = true) :
    under k (fields.filter (p ·.1)) = under k fields := by
  rw [under, under, List.filter_filter]
  congr 1
  refine List.filter_congr fun f _ => ?_
  by_cases hf : f.1 = k
  · simp [hf, hk]
  · simp [hf]

theorem under_of_mem (hnodup : (fields.map Prod.fst).Nodup) (hmem : (k, v) ∈ fields) :
    under k fields = [v] := by
  induction fields with
  | nil => cases hmem
  | cons f fields ih =>
      rw [List.map_cons, List.nodup_cons] at hnodup
      obtain ⟨hfresh, hnodup⟩ := hnodup
      have hsplit : under k (f :: fields) = under k [f] ++ under k fields :=
        under_append k [f] fields
      rw [hsplit]
      cases hmem with
      | head =>
          have hrest : under k fields = [] :=
            under_eq_nil.mpr fun g hg heq => hfresh (List.mem_map.mpr ⟨g, hg, heq⟩)
          rw [hrest]
          simp [under]
      | tail _ hmem =>
          have hhead : under k [f] = [] := under_eq_nil.mpr fun g hg heq => by
            rw [List.mem_singleton] at hg
            subst hg
            exact hfresh (heq ▸ List.mem_map_of_mem hmem)
          rw [hhead, ih hnodup hmem, List.nil_append]

theorem lookup_eq_head? (k : K) (fields : List (K × V)) :
    fields.lookup k = (under k fields).head? := by
  induction fields with
  | nil => rfl
  | cons f fields ih =>
      have hsplit : under k (f :: fields) = under k [f] ++ under k fields :=
        under_append k [f] fields
      obtain ⟨l, w⟩ := f
      rw [hsplit, List.lookup_cons]
      by_cases hl : l = k
      · subst hl
        simp [under]
      · have hne : (k == l) = false := beq_false_of_ne (Ne.symm hl)
        rw [hne, ih]
        simp [under, hl]

/-- Of distinct names, what stands under one is what it is looked up as. -/
theorem under_of_nodup (hnodup : (fields.map Prod.fst).Nodup) (k : K) :
    under k fields = (fields.lookup k).toList := by
  by_cases habsent : ∀ f ∈ fields, f.1 ≠ k
  · rw [lookup_eq_head?, under_eq_nil.mpr habsent]
    rfl
  · push Not at habsent
    obtain ⟨⟨l, w⟩, hmem, rfl⟩ := habsent
    rw [lookup_eq_head?, under_of_mem hnodup hmem]
    rfl

end Under

section Read

variable {read : V → Option α} {k : K} {v : V} {a d : α} {fields : List (K × V)}

theorem optional_nil (h : under k fields = []) : optional read k fields = some none := by
  rw [optional, h]

theorem optional_one (h : under k fields = [v]) :
    optional read k fields = (read v).map some := by
  rw [optional, h]

theorem required_one (h : under k fields = [v]) : required read k fields = read v := by
  rw [required, optional_one h]
  cases read v <;> rfl

theorem defaulted_nil (h : under k fields = []) : defaulted read d k fields = some d := by
  rw [defaulted, optional_nil h]
  rfl

theorem defaulted_one (h : under k fields = [v]) : defaulted read d k fields = read v := by
  rw [defaulted, optional_one h]
  cases read v <;> rfl

section Congr

variable {fields' : List (K × V)} (h : under k fields = under k fields')
include h

end Congr

variable (hnodup : (fields.map Prod.fst).Nodup)
include hnodup

theorem required_of_nodup : required read k fields = (fields.lookup k).bind read := by
  have hunder := under_of_nodup hnodup k
  cases hlookup : fields.lookup k with
  | none =>
      rw [hlookup] at hunder
      rw [required, optional_nil hunder]
      rfl
  | some v =>
      rw [hlookup] at hunder
      rw [required_one hunder]
      rfl

end Read

/-- A list of fields spells a record out: each of its fields stands there once, unless it
is one that may be left out, and no other field of its kind does. -/
structure Spells (names : List K) (written : List (K × V)) (left : K → Prop)
    (fields : List (K × V)) : Prop where
  present : ∀ f ∈ written, under f.1 fields = [f.2] ∨ left f.1 ∧ under f.1 fields = []
  absent : ∀ k ∈ names, k ∉ written.map Prod.fst → under k fields = []

namespace Spells

variable {names : List K} {written fields others : List (K × V)} {left : K → Prop} {k : K} {v : V}

/-- In any order, with fields of other names among them. -/
theorem of_perm (hnodup : (written.map Prod.fst).Nodup) (hperm : fields.Perm (written ++ others))
    (hwritten : ∀ f ∈ others, f.1 ∉ written.map Prod.fst) (hnames : ∀ f ∈ others, f.1 ∉ names) :
    Spells names written left fields where
  present f hf := by
    refine .inl (List.perm_singleton.mp ((under_perm hperm).trans (List.Perm.of_eq ?_)))
    have hothers : under f.1 others = [] := under_eq_nil.mpr fun g hg heq =>
      hwritten g hg (heq ▸ List.mem_map_of_mem hf)
    rw [under_append, hothers, List.append_nil]
    exact under_of_mem hnodup hf
  absent k hk habsent := by
    refine List.Perm.eq_nil ((under_perm hperm).trans (List.Perm.of_eq ?_))
    have hothers : under k others = [] := under_eq_nil.mpr fun g hg heq =>
      hnames g hg (heq ▸ hk)
    rw [under_append, hothers, List.append_nil]
    exact under_eq_nil.mpr fun f hf heq => habsent (heq ▸ List.mem_map_of_mem hf)

theorem refl (hnodup : (written.map Prod.fst).Nodup) : Spells names written left written :=
  of_perm hnodup (List.Perm.of_eq (List.append_nil written).symm)
    (fun _ h => absurd h List.not_mem_nil) fun _ h => absurd h List.not_mem_nil

theorem one (h : Spells names written left fields) (hmem : (k, v) ∈ written) (hleft : ¬left k) :
    under k fields = [v] :=
  (h.present _ hmem).resolve_right fun habsent => hleft habsent.1

variable {read : V → Option α} {a d : α}

theorem required (h : Spells names written left fields) (hmem : (k, v) ∈ written)
    (hleft : ¬left k) (hread : read v = some a) : Fields.required read k fields = some a := by
  rw [required_one (h.one hmem hleft), hread]

/-- A field with a default may be left out where it is the default. -/
theorem defaulted (h : Spells names written left fields) (hmem : (k, v) ∈ written)
    (hleft : left k → a = d) (hread : read v = some a) :
    Fields.defaulted read d k fields = some a := by
  cases h.present _ hmem with
  | inl hone => rw [defaulted_one hone, hread]
  | inr hnone => rw [defaulted_nil hnone.2, hleft hnone.1]

theorem defaulted_absent (h : Spells names written left fields) (hk : k ∈ names)
    (habsent : k ∉ written.map Prod.fst) : Fields.defaulted read d k fields = some d :=
  defaulted_nil (h.absent k hk habsent)

end Spells

end Fields
