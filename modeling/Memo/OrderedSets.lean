-- Sets as the standard library has them: each element once, in ascending order.
import Memo.MultiIndex

open multi_index

namespace ordered_sets

variable {K : Type} [LinearOrder K] {k x y : K} {l : List K}

/-- `std::set`. -/
structure OrderedSet (K : Type) [LinearOrder K] where
  elements : List K
  ascending : elements.Pairwise (· < ·)
deriving DecidableEq

namespace OrderedSet

variable {s : OrderedSet K}

instance : Membership K (OrderedSet K) := ⟨fun s k => k ∈ s.elements⟩

theorem mem_def : k ∈ s ↔ k ∈ s.elements := Iff.rfl

def empty : OrderedSet K := ⟨[], List.Pairwise.nil⟩

@[simp] theorem not_mem_empty : k ∉ (empty : OrderedSet K) := List.not_mem_nil

theorem mem_place_id : x ∈ place id k l ↔ x = k ∨ x ∈ l := by
  simp only [place, id_eq, List.mem_append, List.mem_cons, List.mem_filter, decide_eq_true_eq]
  constructor
  · rintro (⟨hx, -⟩ | rfl | ⟨hx, -⟩)
    · exact Or.inr hx
    · exact Or.inl rfl
    · exact Or.inr hx
  · rintro (rfl | hx)
    · exact Or.inr (Or.inl rfl)
    · rcases lt_trichotomy x k with hlt | rfl | hgt
      · exact Or.inl ⟨hx, hlt⟩
      · exact Or.inr (Or.inl rfl)
      · exact Or.inr (Or.inr ⟨hx, hgt⟩)

/-- An element that is there already is not added. -/
def emplace (s : OrderedSet K) (k : K) : OrderedSet K :=
  ⟨place id k s.elements, place_ordered k s.ascending⟩

def erase (s : OrderedSet K) (k : K) : OrderedSet K :=
  ⟨s.elements.filter (· ≠ k), s.ascending.filter _⟩

@[simp] theorem mem_emplace : x ∈ s.emplace k ↔ x = k ∨ x ∈ s := mem_place_id

@[simp] theorem mem_erase : x ∈ s.erase k ↔ x ∈ s ∧ x ≠ k := by
  simp [mem_def, erase]

theorem pairwise_of_total {R : K → K → Prop} (h : ∀ x ∈ s, ∀ y ∈ s, x ≠ y → R x y ∨ R y x)
    (hR : ∀ x ∈ s, ∀ y ∈ s, R x y → x < y) : s.elements.Pairwise R := by
  refine s.ascending.imp_of_mem fun {x y} hx hy hlt => ?_
  rcases h x hx y hy hlt.ne with hxy | hyx
  · exact hxy
  · exact absurd (hR y hy x hx hyx) hlt.asymm

end OrderedSet

end ordered_sets
