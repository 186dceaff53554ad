-- Majorities of a finite quorum. A write needs more than half of the quorum
-- and a read more than half of it less one, so that any two majorities meet,
-- and a read meets every write.
import Mathlib.Data.Finset.Card

namespace majority

variable {Id : Type*} {Q M R : Finset Id}

/-- More than half of the quorum. -/
def Majority (Q M : Finset Id) : Prop := M ⊆ Q ∧ Q.card / 2 < M.card

/-- Enough of the quorum for a read. -/
def ReadQuorum (Q R : Finset Id) : Prop := R ⊆ Q ∧ (Q.card - 1) / 2 < R.card

theorem Majority.nonempty (hM : Majority Q M) : M.Nonempty := by
  have := hM.2
  exact Finset.card_pos.mp (by omega)

variable [DecidableEq Id]

theorem meet_of_card (hM : M ⊆ Q) (hR : R ⊆ Q) (h : Q.card < M.card + R.card) :
    ∃ s ∈ M, s ∈ R := by
  have hu := Finset.card_union_add_card_inter M R
  have hle := Finset.card_le_card (Finset.union_subset hM hR)
  have hpos : 0 < (M ∩ R).card := by omega
  obtain ⟨s, hs⟩ := Finset.card_pos.mp hpos
  exact ⟨s, Finset.mem_inter.mp hs⟩

theorem Majority.meet (hM : Majority Q M) (hR : Majority Q R) : ∃ s ∈ M, s ∈ R := by
  have := hM.2
  have := hR.2
  exact meet_of_card hM.1 hR.1 (by omega)

theorem Majority.meet_read (hM : Majority Q M) (hR : ReadQuorum Q R) : ∃ s ∈ M, s ∈ R := by
  have := hM.2
  have := hR.2
  exact meet_of_card hM.1 hR.1 (by omega)

theorem Majority.of_list {l : List Id} (hn : l.Nodup) (hl : ∀ s ∈ l, s ∈ Q)
    (h : Q.card / 2 < l.length) : Majority Q l.toFinset := by
  refine ⟨fun s hs => hl s (List.mem_toFinset.mp hs), ?_⟩
  rwa [List.toFinset_card_of_nodup hn]

theorem ReadQuorum.of_list {l : List Id} (hn : l.Nodup) (hl : ∀ s ∈ l, s ∈ Q)
    (h : (Q.card - 1) / 2 < l.length) : ReadQuorum Q l.toFinset := by
  refine ⟨fun s hs => hl s (List.mem_toFinset.mp hs), ?_⟩
  rwa [List.toFinset_card_of_nodup hn]

end majority
