-- Changes of a set: each says of an element that it was added or removed. The last
-- change of an element decides whether it is in the set. A batch that keeps one
-- change of each element keeps the first.
import Mathlib.Data.Finset.Basic

namespace changes

variable {A : Type*} [DecidableEq A]

/-- The first change of an element. -/
def first (a : A) (cs : List (A × Bool)) : Option Bool :=
  (cs.find? fun c => c.1 = a).map (·.2)

/-- The last change of an element. -/
def last (a : A) (cs : List (A × Bool)) : Option Bool := first a cs.reverse

/-- The set once the changes are made, one after the other. -/
def replay (cs : List (A × Bool)) (s : Finset A) : Finset A :=
  cs.foldl (fun s c => if c.2 then insert c.1 s else s.erase c.1) s

/-- A change is put in a map that may have one of that element: then nothing is. -/
def emplace (m : List (A × Bool)) (c : A × Bool) : List (A × Bool) :=
  if ∃ c' ∈ m, c'.1 = c.1 then m else m ++ [c]

/-- The map of some changes. -/
def coalesce (cs : List (A × Bool)) : List (A × Bool) := cs.foldl emplace []

theorem first_append (a : A) (cs ds : List (A × Bool)) :
    first a (cs ++ ds) = (first a cs).or (first a ds) := by
  unfold first
  rw [List.find?_append]
  cases cs.find? fun c => c.1 = a <;> rfl

theorem last_append (a : A) (cs ds : List (A × Bool)) :
    last a (cs ++ ds) = (last a ds).or (last a cs) := by
  unfold last
  rw [List.reverse_append, first_append]

theorem last_singleton (a : A) (c : A × Bool) :
    last a [c] = if c.1 = a then some c.2 else none := by
  unfold last first
  by_cases h : c.1 = a
  · simp [h]
  · simp [h]

theorem last_snoc (a : A) (cs : List (A × Bool)) (c : A × Bool) :
    last a (cs ++ [c]) = if c.1 = a then some c.2 else last a cs := by
  rw [last_append, last_singleton]
  split <;> rfl

theorem first_none {a : A} {cs : List (A × Bool)} : first a cs = none ↔ ∀ c ∈ cs, c.1 ≠ a := by
  unfold first
  simp

theorem last_none {a : A} {cs : List (A × Bool)} : last a cs = none ↔ ∀ c ∈ cs, c.1 ≠ a := by
  unfold last
  rw [first_none]
  simp

theorem first_none_iff {a : A} {cs : List (A × Bool)} : first a cs = none ↔ last a cs = none := by
  rw [first_none, last_none]

theorem mem_replay {a : A} {cs : List (A × Bool)} {s : Finset A} :
    a ∈ replay cs s ↔ last a cs = some true ∨ last a cs = none ∧ a ∈ s := by
  unfold replay
  induction cs using List.reverseRecOn with
  | nil => simp [last, first]
  | append_singleton cs c ih =>
    rw [List.foldl_append, List.foldl_cons, List.foldl_nil, last_snoc]
    by_cases ha : c.1 = a
    · cases hc : c.2
      · simp [ha]
      · simp [ha]
    · cases hc : c.2
      · simp only [Bool.false_eq_true, if_false, if_neg ha, Finset.mem_erase, ih]
        exact and_iff_right fun h => ha h.symm
      · simp only [if_true, if_neg ha, Finset.mem_insert, ih]
        exact or_iff_right fun h => ha h.symm

theorem last_emplace (a : A) (m : List (A × Bool)) (c : A × Bool) :
    last a (emplace m c) = (last a m).or (first a [c]) := by
  have hsingle : first a [c] = last a [c] := rfl
  unfold emplace
  by_cases hin : ∃ c' ∈ m, c'.1 = c.1
  · rw [if_pos hin]
    by_cases hc : c.1 = a
    · obtain ⟨c', hmem, heq⟩ := hin
      have hsome : last a m ≠ none := fun h => last_none.mp h c' hmem (heq.trans hc)
      obtain ⟨f, hf⟩ := Option.ne_none_iff_exists'.mp hsome
      rw [hf]
      rfl
    · rw [hsingle, last_singleton, if_neg hc, Option.or_none]
  · rw [if_neg hin, last_append, hsingle]
    by_cases hc : c.1 = a
    · have hnone : last a m = none := last_none.mpr fun c' hmem heq =>
        hin ⟨c', hmem, heq.trans hc.symm⟩
      rw [hnone, Option.or_none, Option.none_or]
    · rw [last_singleton, if_neg hc, Option.none_or, Option.or_none]

theorem last_coalesce (a : A) (cs : List (A × Bool)) : last a (coalesce cs) = first a cs := by
  unfold coalesce
  induction cs using List.reverseRecOn with
  | nil => rfl
  | append_singleton cs c ih =>
    rw [List.foldl_append, List.foldl_cons, List.foldl_nil, last_emplace, first_append, ih]

end changes
