-- Vectors whose order does not matter. An element is removed from one by a swap with the
-- last element, which is then popped.
import Mathlib.Data.List.Perm.Basic

namespace vectors

variable {X : Type*} {p : X → Bool} {l : List X} {i : Nat}

/-- The element is swapped with the last one, and popped. -/
def swap_pop (i : Nat) (l : List X) : List X :=
  match l.getLast? with
  | some last => (l.set i last).dropLast
  | none => []

/-- The loop that removes elements. After a removal it looks at the same place again. -/
def remove_loop (p : X → Bool) : Nat → Nat → List X → List X
  | 0, _, l => l
  | n + 1, i, l =>
    match l[i]? with
    | none => l
    | some x => if p x then remove_loop p n i (swap_pop i l) else remove_loop p n (i + 1) l

/-- The elements of which `p` holds are removed, in as many turns as there are elements. -/
def remove_if (p : X → Bool) (l : List X) : List X := remove_loop p l.length 0 l

theorem swap_pop_concat (init : List X) (last : X) (i : Nat) :
    swap_pop i (init ++ [last]) = if i = init.length then init else init.set i last := by
  unfold swap_pop
  rw [List.getLast?_concat]
  dsimp only
  split
  · rename_i hi
    rw [hi, List.set_append_right _ _ (Nat.le_refl _), Nat.sub_self, List.set_cons_zero,
      List.dropLast_concat]
  · rename_i hi
    rcases Nat.lt_or_gt_of_ne hi with hlt | hgt
    · rw [List.set_append_left _ _ hlt, List.dropLast_concat]
    · rw [List.set_eq_of_length_le (by simp; omega), List.dropLast_concat,
        List.set_eq_of_length_le (by omega)]

theorem swap_pop_perm (hi : i < l.length) : (swap_pop i l).Perm (l.eraseIdx i) := by
  rcases List.eq_nil_or_concat l with rfl | ⟨init, last, rfl⟩
  · exact absurd hi (Nat.not_lt_zero i)
  · rw [List.concat_eq_append] at hi ⊢
    rw [swap_pop_concat]
    rw [List.length_append, List.length_singleton] at hi
    split
    · rename_i heq
      rw [heq, List.eraseIdx_append_of_length_le (Nat.le_refl _), Nat.sub_self]
      simp
    · have hlt : i < init.length := by omega
      rw [List.eraseIdx_append_of_lt_length hlt]
      have hset : i < (init.set i last).length := by
        rw [List.length_set]
        exact hlt
      have hperm := List.getElem_cons_eraseIdx_perm hset
      rw [List.getElem_set_self, List.eraseIdx_set_eq] at hperm
      exact hperm.symm.trans (List.perm_append_singleton _ _).symm

theorem take_swap_pop (hi : i < l.length) : (swap_pop i l).take i = l.take i := by
  rcases List.eq_nil_or_concat l with rfl | ⟨init, last, rfl⟩
  · exact absurd hi (Nat.not_lt_zero i)
  · rw [List.concat_eq_append] at hi ⊢
    rw [swap_pop_concat]
    rw [List.length_append, List.length_singleton] at hi
    rw [List.take_append_of_le_length (by omega)]
    split
    · rfl
    · exact List.take_set_of_le (Nat.le_refl i)

theorem drop_swap_pop (hi : i < l.length) : ((swap_pop i l).drop i).Perm (l.drop (i + 1)) := by
  have hperm := swap_pop_perm hi
  rw [← List.take_append_drop i (swap_pop i l), take_swap_pop hi, List.eraseIdx_eq_take_drop_succ]
    at hperm
  exact (List.perm_append_left_iff _).mp hperm

theorem remove_loop_perm (n : Nat) (h : l.length ≤ i + n) :
    (remove_loop p n i l).Perm (l.take i ++ (l.drop i).filter fun x => !p x) := by
  induction n generalizing i l with
  | zero =>
    have hlen : l.length ≤ i := h
    unfold remove_loop
    rw [List.take_of_length_le hlen, List.drop_of_length_le hlen]
    simp
  | succ n ih =>
    unfold remove_loop
    cases hx : l[i]? with
    | none =>
      have hlen : l.length ≤ i := List.getElem?_eq_none_iff.mp hx
      rw [List.take_of_length_le hlen, List.drop_of_length_le hlen]
      simp
    | some x =>
      obtain ⟨hi, hxi⟩ := List.getElem?_eq_some_iff.mp hx
      have hdrop : l.drop i = x :: l.drop (i + 1) := by
        rw [List.drop_eq_getElem_cons hi, hxi]
      dsimp only
      rw [hdrop, List.filter_cons]
      split
      · rename_i hp
        have hlen : (swap_pop i l).length = l.length - 1 := by
          rw [(swap_pop_perm hi).length_eq, List.length_eraseIdx_of_lt hi]
        have hrest := ih (i := i) (l := swap_pop i l) (by omega)
        rw [take_swap_pop hi] at hrest
        rw [hp]
        exact hrest.trans (((drop_swap_pop hi).filter _).append_left _)
      · rename_i hp
        have hrest := ih (i := i + 1) (l := l) (by omega)
        rw [List.take_add_one, hx, Option.toList_some, List.append_assoc] at hrest
        rw [Bool.not_eq_true] at hp
        rw [hp]
        exact hrest

theorem remove_if_perm : (remove_if p l).Perm (l.filter fun x => !p x) := by
  have h := remove_loop_perm (p := p) (l := l) (i := 0) l.length (by omega)
  rw [List.take_zero, List.nil_append, List.drop_zero] at h
  exact h

theorem mem_remove_if {x : X} : x ∈ remove_if p l ↔ x ∈ l ∧ p x = false := by
  rw [remove_if_perm.mem_iff, List.mem_filter, Bool.not_eq_true']

end vectors
