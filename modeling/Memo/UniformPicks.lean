-- `elle::pick_n` over all the draws of its generator: the draws that lead to a set of indexes
-- are as many for every set of that size.
import Mathlib.Algebra.BigOperators.Fin
import Memo.Sampling

open sampling Nat

namespace elle

variable {count size n v w : Nat} {taken : List Nat} {s t : Finset Nat} {b : Nat → Nat}

/-- The draws of a call. The k-th one lies in [0, size - 1 - k]. -/
abbrev Sequence (count size : Nat) : Type := (k : Fin count) → Fin (size - k)

/-- `elle::pick_n`, of indexes, with what its generator draws. -/
def pick_n (count size : Nat) (draws : Sequence count size) : List Nat :=
  (pick_indexes count size (List.ofFn fun k => (draws k : Nat))).1

/-- How many sequences of draws lead to a set. -/
def ways (count size : Nat) (s : Finset Nat) : Nat :=
  (Finset.univ.filter fun draws : Sequence count size =>
    (pick_n count size draws).toFinset = s).card

/-! ## One draw -/

theorem skip_strictMono (taken : List Nat) : StrictMono fun v => skip v taken := by
  induction taken with
  | nil => exact strictMono_id
  | cons r taken ih =>
    intro v w hlt
    have hstep : (if r ≤ v then v + 1 else v) < if r ≤ w then w + 1 else w := by
      split_ifs <;> omega
    exact ih hstep

theorem image_skip (h : Indexes size taken) :
    (Finset.range (size - taken.length)).image (fun v => skip v taken) =
      Finset.range size \ taken.toFinset := by
  have hnodup : taken.Nodup := h.sorted.imp fun hlt => hlt.ne
  have hsub : taken.toFinset ⊆ Finset.range size := fun i hi =>
    Finset.mem_range.2 (h.bounded i (List.mem_toFinset.1 hi))
  apply Finset.eq_of_subset_of_card_le
  · intro i hi
    obtain ⟨v, hv, rfl⟩ := Finset.mem_image.1 hi
    obtain ⟨-, hhigh, hnot⟩ := skip_spec h.sorted v
    have hlt := Finset.mem_range.1 hv
    rw [Finset.mem_sdiff, Finset.mem_range, List.mem_toFinset]
    exact ⟨by omega, hnot⟩
  · rw [Finset.card_image_of_injective _ (skip_strictMono taken).injective,
      Finset.card_sdiff_of_subset hsub, Finset.card_range, Finset.card_range,
      List.toFinset_card_of_nodup hnodup]

theorem card_draws_into (h : Indexes size taken) (hs : s ⊆ Finset.range size)
    (ht : taken.toFinset ⊆ s) :
    ((Finset.range (size - taken.length)).filter fun v => skip v taken ∈ s).card =
      s.card - taken.length := by
  have hnodup : taken.Nodup := h.sorted.imp fun hlt => hlt.ne
  have himage : ((Finset.range (size - taken.length)).filter fun v => skip v taken ∈ s).image
      (fun v => skip v taken) = s \ taken.toFinset := by
    ext i
    have hfree := Finset.ext_iff.1 (image_skip h) i
    simp only [Finset.mem_image, Finset.mem_filter, Finset.mem_sdiff] at hfree ⊢
    constructor
    · rintro ⟨v, ⟨hv, hvs⟩, rfl⟩
      exact ⟨hvs, (hfree.1 ⟨v, hv, rfl⟩).2⟩
    · rintro ⟨his, hnot⟩
      obtain ⟨v, hv, rfl⟩ := hfree.2 ⟨hs his, hnot⟩
      exact ⟨v, ⟨hv, his⟩, rfl⟩
  rw [← Finset.card_image_of_injective _ (skip_strictMono taken).injective, himage,
    Finset.card_sdiff_of_subset ht, List.toFinset_card_of_nodup hnodup]

/-! ## The loop -/

/-- How many draws, with these bounds, take the loop from some indexes to a set. -/
def ways_from (size : Nat) (b : Nat → Nat) (n : Nat) (taken : List Nat) (s : Finset Nat) : Nat :=
  ∑ draws : (k : Fin n) → Fin (b k),
    if (pick_loop size n taken (List.ofFn fun k => (draws k : Nat))).1.toFinset = s then 1 else 0

/-- The indexes that are taken and one more. -/
def taking (v : Nat) (taken : List Nat) : List Nat :=
  (taken ++ [skip v taken]).insertionSort (· ≤ ·)

@[simp] theorem mem_taking {i : Nat} : i ∈ taking v taken ↔ i ∈ taken ∨ i = skip v taken := by
  rw [taking, (List.perm_insertionSort _ _).mem_iff, List.mem_append, List.mem_singleton]

@[simp] theorem taking_length : (taking v taken).length = taken.length + 1 := by
  rw [taking, List.length_insertionSort, List.length_append, List.length_singleton]

theorem ways_from_succ (hb : b 0 = size - taken.length) :
    ways_from size b (n + 1) taken s = ∑ v ∈ Finset.range (size - taken.length),
      ways_from size (fun k => b (k + 1)) n (taking v taken) s := by
  have hsum : ways_from size b (n + 1) taken s =
      ∑ v : Fin (b 0), ways_from size (fun k => b (k + 1)) n (taking v taken) s := by
    unfold ways_from
    rw [← (Fin.consEquiv fun k : Fin (n + 1) => Fin (b k)).sum_comp, Fintype.sum_prod_type]
    refine Finset.sum_congr rfl fun v _ => Finset.sum_congr rfl fun draws _ => ?_
    have hv : (v : Nat) % (size - taken.length) = v := Nat.mod_eq_of_lt (hb ▸ v.isLt)
    simp only [Fin.consEquiv, Equiv.coe_fn_mk, List.ofFn_succ, Fin.cons_zero, Fin.cons_succ,
      pick_loop, pick_one, hv]
    rfl
  rw [hsum, Finset.sum_range fun v => ways_from size (fun k => b (k + 1)) n (taking v taken) s,
    ← hb]

theorem ways_from_of_not_subset (h : Indexes size taken) (hn : taken.length + n ≤ size)
    (ht : ¬ taken.toFinset ⊆ s) : ways_from size b n taken s = 0 := by
  refine Finset.sum_eq_zero fun draws _ => if_neg ?_
  rintro rfl
  obtain ⟨-, -, hkept, -⟩ := pick_loop_spec h hn (List.ofFn fun k => (draws k : Nat))
  exact ht fun i hi => List.mem_toFinset.2 (hkept i (List.mem_toFinset.1 hi))

theorem ways_from_eq (h : Indexes size taken) (hb : ∀ k < n, b k = size - (taken.length + k))
    (hs : s ⊆ Finset.range size) (ht : taken.toFinset ⊆ s) (hcard : s.card = taken.length + n) :
    ways_from size b n taken s = n ! := by
  have hle : s.card ≤ size := by simpa using Finset.card_le_card hs
  have hnodup : taken.Nodup := h.sorted.imp fun hlt => hlt.ne
  induction n generalizing taken b with
  | zero =>
    have hall : taken.toFinset = s :=
      Finset.eq_of_subset_of_card_le ht (by rw [List.toFinset_card_of_nodup hnodup]; omega)
    simp [ways_from, pick_loop, hall]
  | succ n ih =>
    have hnext : ∀ v ∈ Finset.range (size - taken.length),
        ways_from size (fun k => b (k + 1)) n (taking v taken) s =
          if skip v taken ∈ s then n ! else 0 := by
      intro v hv
      have hindexes : Indexes size (taking v taken) := h.snoc (Finset.mem_range.1 hv)
      split_ifs with hin
      · have hsub : (taking v taken).toFinset ⊆ s := by
          intro i hi
          rcases mem_taking.1 (List.mem_toFinset.1 hi) with hi | rfl
          · exact ht (List.mem_toFinset.2 hi)
          · exact hin
        refine ih hindexes (fun k hk => ?_) hsub (by rw [hcard, taking_length]; omega)
          (hindexes.sorted.imp fun hlt => hlt.ne)
        rw [hb (k + 1) (by omega), taking_length]
        congr 1
        omega
      · refine ways_from_of_not_subset hindexes (by rw [taking_length]; omega) fun hsub => hin ?_
        exact hsub (List.mem_toFinset.2 (mem_taking.2 (Or.inr rfl)))
    rw [ways_from_succ (hb 0 (by omega)), Finset.sum_congr rfl hnext, ← Finset.sum_filter,
      Finset.sum_const, card_draws_into h hs ht, hcard, smul_eq_mul, Nat.factorial_succ]
    congr 1
    omega

/-! ## The sets -/

theorem ways_eq (h : count < size) (hs : s ∈ (Finset.range size).powersetCard count) :
    ways count size s = count ! := by
  obtain ⟨hsub, hcard⟩ := Finset.mem_powersetCard.1 hs
  have hempty : Indexes size [] := ⟨List.Pairwise.nil, by simp⟩
  rw [← ways_from_eq hempty (b := fun k => size - k) (by simp) hsub (by simp)
    (by simpa using hcard)]
  simp only [ways, ways_from, pick_n, pick_indexes, Finset.card_filter, if_pos h]

/-- The indexes that are picked are in order, and every set of as many indexes is picked for the
same number of sequences of draws. -/
theorem random_selection_is_unbiased (h : count ≤ size) :
    (∀ draws : Sequence count size, (pick_n count size draws).Pairwise (· < ·) ∧
      (pick_n count size draws).length = count ∧ ∀ i ∈ pick_n count size draws, i < size) ∧
    (∀ s ∈ (Finset.range size).powersetCard count, ∀ t ∈ (Finset.range size).powersetCard count,
      ways count size s = ways count size t) ∧
    (count < size → ∀ s ∈ (Finset.range size).powersetCard count,
      ways count size s = count !) := by
  refine ⟨fun draws => ?_, fun s hs t ht => ?_, fun hlt s hs => ways_eq hlt hs⟩
  · obtain ⟨hindexes, hlength⟩ := pick_indexes_spec h (List.ofFn fun k => (draws k : Nat))
    exact ⟨hindexes.sorted, hlength, hindexes.bounded⟩
  · rcases h.lt_or_eq with hlt | rfl
    · rw [ways_eq hlt hs, ways_eq hlt ht]
    · -- there is one set of all the indexes
      have hself : (Finset.range count).powersetCard count = {Finset.range count} := by
        have hpower := Finset.powersetCard_self (Finset.range count)
        rwa [Finset.card_range] at hpower
      rw [hself, Finset.mem_singleton] at hs ht
      rw [hs, ht]

/-- Two of three: each pair for two of the six sequences of draws. -/
theorem two_of_three_is_unbiased : ways 2 3 {0, 2} = 2 ∧ ways 2 3 {1, 2} = 2 := by
  obtain ⟨-, -, hways⟩ := random_selection_is_unbiased (show 2 ≤ 3 by decide)
  exact ⟨hways (by decide) {0, 2} (by decide), hways (by decide) {1, 2} (by decide)⟩

end elle
