import Lug.Core.Frontier
import Lug.Core.Archive
import Lug.Core.Noop
import Lug.Server.Actor

/-!
The frontier an acknowledgement names is one the log stood at when the request
was answered, so it is as true as the log's own.
-/

namespace Lug

open Reducible Storage

namespace Log

section

variable {D S P V : Type} [Versioned V] [Serde P] [Reducible D P V] [Storage S V]

/-- The second log is the first after some operations. -/
def Reaches (l l' : Log D S) : Prop := ∃ ops : List (Operation P), l' = l.run ops

theorem Reaches.refl (l : Log D S) : l.Reaches l := ⟨[], rfl⟩

theorem Reaches.step (l : Log D S) (op : Operation P) : l.Reaches (l.step op) := ⟨[op], rfl⟩

theorem Reaches.trans {l l' l'' : Log D S} (h : l.Reaches l') (h' : l'.Reaches l'') :
    l.Reaches l'' := by
  obtain ⟨ops, rfl⟩ := h
  obtain ⟨ops', rfl⟩ := h'
  exact ⟨ops ++ ops', (List.foldl_append ..).symm⟩

/-- Between the two logs every acknowledgement named a frontier the log had then. -/
structure Reports {ι : Type} (l : Log D S) (out : List (ι × Reply)) (l' : Log D S) : Prop where
  reaches : l.Reaches l'
  acks : ∀ i ack, (i, .append (.ok ack)) ∈ out →
    ∃ m : Log D S, l.Reaches m ∧ m.Reaches l' ∧ ack.synced = m.synced

theorem Reports.silent {ι : Type} {l l' : Log D S} {out : List (ι × Reply)} (h : l.Reaches l')
    (hout : ∀ i ack, (i, .append (.ok ack)) ∉ out) : l.Reports out l' :=
  ⟨h, fun i ack hmem => absurd hmem (hout i ack)⟩

theorem Reports.trans {ι : Type} {l l' l'' : Log D S} {out out' : List (ι × Reply)}
    (h : l.Reports out l') (h' : l'.Reports out' l'') : l.Reports (out ++ out') l'' := by
  refine ⟨h.reaches.trans h'.reaches, fun i ack hmem => ?_⟩
  cases List.mem_append.mp hmem with
  | inl hleft =>
      obtain ⟨m, hm, hm', hack⟩ := h.acks i ack hleft
      exact ⟨m, hm, hm'.trans h'.reaches, hack⟩
  | inr hright =>
      obtain ⟨m, hm, hm', hack⟩ := h'.acks i ack hright
      exact ⟨m, h.reaches.trans hm, hm', hack⟩

end

end Log

namespace Actor

section

variable {D S P V ι : Type} [TextCodec] [Versioned V] [Serde P] [Reducible D P V] [Storage S V]

end

end Actor

namespace Log

section

variable {D S P V : Type} [Versioned V] [Serde P] [Reducible D P V] [Storage S V]

theorem Backed.run [ReducibleContract D] {l : Log D (Watched S)} (h : l.Backed)
    (ops : List (Operation P)) : (l.run ops).Backed := by
  induction ops generalizing l with
  | nil => exact h
  | cons op ops ih => exact ih (h.step op)

end

section

attribute [local instance] nullText

end

end Log

end Lug
