import Lug.Cavlc.Store
import Lug.Core.Archive
import Lug.Core.Noop
import Lug.Core.Recovery
import Lug.Core.Text

/-!
Both structures the server runs, the counter and the store, recover: a log over
either can be opened again from its storage and goes on as it was.
-/

namespace Lug

open Reducible ReducibleContract StorageContract Resumable Cavlc

/-- Counters that agree are the same counter. -/
instance {P : Type} : Resumable (Counting P) where
  Alike := Eq
  alike_of_same h := h
  alike_symm := Eq.symm
  alike_trans := Eq.trans
  alike_view h := h ▸ .refl _
  alike_apply {d e} h p := by
    subst h
    rw [Counting.apply_eq]
    split_ifs
    · exact .ok (.some (.refl _))
    · exact .error _
  alike_apply_state h p := same_apply_state (D := Counting P) h p
  resume_ok v := ⟨⟨v.version⟩, rfl, fun d h => by
    obtain ⟨version⟩ := d
    exact congrArg Counting.mk h.version⟩

namespace Cavlc.Store

/-- Stores whose last snapshots show the same mint the same from patches that say
the same. -/
theorem apply_alike {s t : Store} (h : SameView s.snapshot t.snapshot) {p q : OrderedPatch}
    (hpq : p.toJson = q.toJson) :
    Agree (Option.Rel SameView) (Reducible.apply s p).1 (Reducible.apply t q).1 ∧
      SameView (Reducible.apply s p).2.snapshot (Reducible.apply t q).2.snapshot := by
  have hversion : s.snapshot.version = t.snapshot.version := h.version
  have hroot : s.snapshot.root.toJson = t.snapshot.root.toJson := h.state
  have hedit : Agree (Option.Rel fun v w => Value.toJson v = Value.toJson w)
      (p.apply s.snapshot.root) (q.apply t.snapshot.root) := by
    have hp := p.apply_edit s.snapshot.root
    have hq := (q.apply_edit t.snapshot.root).symm
    rw [hpq, hroot] at hp
    refine hp.trans hq fun a b c hab hcb => ?_
    cases hab with
    | none =>
        cases hcb
        exact .none
    | some hab =>
        cases hcb with
        | some hcb => exact .some (hab.trans hcb.symm)
  rw [apply_eq, apply_eq]
  generalize p.apply s.snapshot.root = x at hedit ⊢
  generalize q.apply t.snapshot.root = y at hedit ⊢
  cases hedit with
  | error e => exact ⟨.error e, h⟩
  | ok hrel =>
      cases hrel with
      | none => exact ⟨.ok .none, h⟩
      | @some v w hvw =>
          have hminted : SameView (⟨s.snapshot.version + 1, v⟩ : Snapshot)
              ⟨t.snapshot.version + 1, w⟩ := ⟨congrArg (· + 1) hversion, hvw⟩
          simp only [hversion]
          split_ifs
          · refine ⟨.ok (.some ?_), ?_⟩
            · rwa [hversion] at hminted
            · rwa [snapshot_push, snapshot_push]
          · exact ⟨.error _, h⟩

instance : Resumable Store where
  Alike s t := SameView s.snapshot t.snapshot
  alike_of_same h := h ▸ .refl _
  alike_symm := SameView.symm
  alike_trans := SameView.trans
  alike_view h := h
  alike_apply h _ := (apply_alike h rfl).1
  alike_apply_state h _ := (apply_alike h rfl).2
  resume_ok v := ⟨resume 0 v, rfl, fun _ h => h⟩

end Cavlc.Store

section Decodes

variable [TextCodec]

/-- A counter never looks at its patches. -/
theorem Noop.decodes (h : TextCodec.RoundTrips) : Decodes Noop where
  encodes p := ⟨TextCodec.toVec p, rfl⟩
  decodes {d p b v} hb happly := by
    have hsame : apply d p = apply d p.normal :=
      (Counting.apply_eq d p).trans (Counting.apply_eq d p.normal).symm
    cases hb
    refine ⟨p.normal, h p, ?_, ?_⟩
    · rw [← hsame]
      exact alike_apply (alike_refl d) p
    · rw [← hsame]
      exact alike_refl _

/-- A patch that minted a version was valid, so it decodes to one that says the
same. -/
theorem Cavlc.Store.decodes (h : TextCodec.RoundTrips) : Decodes Store where
  encodes p := ⟨TextCodec.toVec p.toJson.encode, rfl⟩
  decodes {s p b v} hb happly := by
    obtain ⟨-, root, hroot, -, -⟩ := Store.apply_minted happly
    have hedit := p.apply_edit s.snapshot.root
    rw [hroot] at hedit
    obtain ⟨o, ho, -⟩ := hedit.ok_left
    obtain ⟨_, hvalid, _⟩ := Except.bind_eq_ok.mp ho
    obtain ⟨q, hq, hsays⟩ := OrderedPatch.fromSlice_toVec h hvalid hb
    have halike := Store.apply_alike (s := s) (.refl _) hsays.symm
    exact ⟨q, hq, halike.1, halike.2⟩

/-- Whatever a log over either structure went through, opening its storage again
gives the same log. -/
theorem open_recovers (h : TextCodec.RoundTrips) :
    (∀ (S : Type) [Storage S Tick] [StorageContract S] (zero : Noop), Log.Recovers S zero) ∧
      ∀ (S : Type) [Storage S Snapshot] [StorageContract S] (zero : Store),
        Log.Recovers S zero :=
  ⟨fun _ _ _ zero => Log.recovers_of_decodes (Noop.decodes h) zero,
    fun _ _ _ zero => Log.recovers_of_decodes (Store.decodes h) zero⟩

end Decodes

attribute [local instance] codec

/-- A patch that creates one field. -/
def creates : OrderedPatch where
  patch := .mk [("a", Value.ofJson (.bool true))] [] []
  ordered := ⟨by simp [SortedMap.Sorted], SortedMap.sorted_nil, trivial⟩

/-- The log over a store that an empty archive opens. -/
def emptyLog : Log Store (Archive Snapshot false) := ⟨.new 0, Archive.empty, 0, 0⟩

theorem emptyLog_sound : emptyLog.Sound ⟨[], none⟩ where
  holds := Archive.holds_new [] []
  version := rfl
  top := rfl
  fits := le_rfl
  run := trivial
  counter := by simp [emptyLog]

/-- A store that recorded one patch and checkpointed it, opened again. -/
theorem open_recovers_creates : ∃ l', Log.open (Store.new 0)
      (emptyLog.run [.append [creates] .durable, .checkpoint]).storage = .ok l' ∧
    l'.watermark = 1 := by
  have hrecovers := (open_recovers codec_roundTrips).2 (Archive Snapshot false) (Store.new 0)
    Archive.empty emptyLog [.append [creates] .durable, .checkpoint] _
    (Archive.holds_new [] []) rfl rfl
  obtain ⟨l', hopen, hwatermark, -, -⟩ := hrecovers
  exact ⟨l', hopen, hwatermark.trans rfl⟩

end Lug
