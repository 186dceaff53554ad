-- Random samples. The draws are what a generator gives, one after the other. A sample has as many
-- elements as it is asked for, each of them once, and any element may be in it.
import Mathlib.Data.List.Perm.Subperm
import Mathlib.Data.List.Sort
import Memo.Vectors

open vectors

namespace sampling

variable {X : Type*} {l src : List X} {size n v : Nat} {taken : List Nat}

/-- What a generator will give. -/
abbrev Draws : Type := List Nat

/-- `elle::pick_one`, in [0, size - 1]. -/
def pick_one (size : Nat) : Draws → Nat × Draws
  | [] => (0, [])
  | d :: ds => (d % size, ds)

/-! ## Indexes -/

/-- An index moves up past those that are taken. -/
def skip (v : Nat) (taken : List Nat) : Nat :=
  taken.foldl (fun v r => if r ≤ v then v + 1 else v) v

/-- The loop of `elle::pick_n`. -/
def pick_loop (size : Nat) : Nat → List Nat → Draws → List Nat × Draws
  | 0, taken, ds => (taken, ds)
  | n + 1, taken, ds =>
    let (v, ds) := pick_one (size - taken.length) ds
    pick_loop size n ((taken ++ [skip v taken]).insertionSort (· ≤ ·)) ds

/-- `elle::pick_n`, of indexes. -/
def pick_indexes (count size : Nat) (ds : Draws) : List Nat × Draws :=
  if count < size then pick_loop size count [] ds else (List.range size, ds)

/-- Indexes in order, each of them once. -/
structure Indexes (size : Nat) (taken : List Nat) : Prop where
  sorted : taken.Pairwise (· < ·)
  bounded : ∀ i ∈ taken, i < size

theorem skip_of_lt (h : ∀ r ∈ taken, v < r) : skip v taken = v := by
  induction taken with
  | nil => rfl
  | cons r taken ih =>
    have hr := h r List.mem_cons_self
    rw [skip, List.foldl_cons, if_neg (by omega)]
    exact ih fun s hs => h s (List.mem_cons_of_mem _ hs)

theorem skip_spec (h : taken.Pairwise (· < ·)) (v : Nat) :
    v ≤ skip v taken ∧ skip v taken ≤ v + taken.length ∧ skip v taken ∉ taken := by
  induction taken generalizing v with
  | nil => simp [skip]
  | cons r taken ih =>
    obtain ⟨hr, hrest⟩ := List.pairwise_cons.1 h
    by_cases hle : r ≤ v
    · have hskip : skip v (r :: taken) = skip (v + 1) taken := by
        simp [skip, hle]
      obtain ⟨hlow, hhigh, hnot⟩ := ih hrest (v + 1)
      rw [hskip, List.length_cons, List.mem_cons]
      refine ⟨by omega, by omega, ?_⟩
      rintro (heq | hmem)
      · omega
      · exact hnot hmem
    · have hskip : skip v (r :: taken) = v := by
        apply skip_of_lt
        intro s hs
        rcases List.mem_cons.1 hs with rfl | hs
        · omega
        · have := hr s hs
          omega
      rw [hskip, List.mem_cons]
      refine ⟨le_rfl, by omega, ?_⟩
      rintro (heq | hmem)
      · omega
      · have := hr v hmem
        omega

theorem pick_one_lt (hsize : 0 < size) (ds : Draws) : (pick_one size ds).1 < size := by
  cases ds with
  | nil => exact hsize
  | cons d ds => exact Nat.mod_lt _ hsize

theorem Indexes.snoc (h : Indexes size taken) (hv : v < size - taken.length) :
    Indexes size ((taken ++ [skip v taken]).insertionSort (· ≤ ·)) := by
  obtain ⟨-, hhigh, hnot⟩ := skip_spec h.sorted v
  have hperm := List.perm_insertionSort (· ≤ ·) (taken ++ [skip v taken])
  constructor
  · have hnodup : ((taken ++ [skip v taken]).insertionSort (· ≤ ·)).Nodup := by
      rw [hperm.nodup_iff, List.nodup_append]
      refine ⟨h.sorted.imp fun h => by omega, List.nodup_singleton _, ?_⟩
      intro i hi j hj heq
      rw [List.mem_singleton.1 hj] at heq
      exact hnot (heq ▸ hi)
    exact (List.pairwise_insertionSort (· ≤ ·) _).and hnodup |>.imp fun h => by omega
  · intro i hi
    rcases List.mem_append.1 (hperm.mem_iff.1 hi) with hi | hi
    · exact h.bounded i hi
    · rw [List.mem_singleton.1 hi]
      omega

theorem pick_loop_spec (h : Indexes size taken) (hn : taken.length + n ≤ size) (ds : Draws) :
    Indexes size (pick_loop size n taken ds).1 ∧
      (pick_loop size n taken ds).1.length = taken.length + n ∧
      (∀ i ∈ taken, i ∈ (pick_loop size n taken ds).1) ∧
      (pick_loop size n taken ds).2 = ds.drop n := by
  induction n generalizing taken ds with
  | zero => exact ⟨h, rfl, fun _ hi => hi, rfl⟩
  | succ n ih =>
    have hv : (pick_one (size - taken.length) ds).1 < size - taken.length :=
      pick_one_lt (by omega) ds
    have hperm := List.perm_insertionSort (· ≤ ·)
      (taken ++ [skip (pick_one (size - taken.length) ds).1 taken])
    have hlength := hperm.length_eq
    rw [List.length_append, List.length_singleton] at hlength
    obtain ⟨hindexes, hcount, hkept, hdraws⟩ :=
      ih (h.snoc hv) (by omega) (pick_one (size - taken.length) ds).2
    refine ⟨hindexes, hcount.trans (by omega), fun i hi => hkept i ?_, hdraws.trans ?_⟩
    · exact hperm.mem_iff.2 (List.mem_append_left _ hi)
    · cases ds <;> simp [pick_one]

theorem pick_indexes_spec (hn : n ≤ size) (ds : Draws) :
    Indexes size (pick_indexes n size ds).1 ∧ (pick_indexes n size ds).1.length = n := by
  unfold pick_indexes
  split
  · have hempty : Indexes size [] := ⟨List.Pairwise.nil, by simp⟩
    obtain ⟨hindexes, hlength, -⟩ := pick_loop_spec hempty (n := n) (by simpa using hn) ds
    exact ⟨hindexes, by simpa using hlength⟩
  · refine ⟨⟨List.pairwise_lt_range, fun i hi => List.mem_range.1 hi⟩, ?_⟩
    rw [List.length_range]
    omega

theorem exists_pick_indexes (hpos : 0 < n) (hn : n ≤ size) {i : Nat} (hi : i < size) :
    ∃ ds, ∀ rest, i ∈ (pick_indexes n size (ds ++ rest)).1 ∧
      (pick_indexes n size (ds ++ rest)).2 = rest := by
  by_cases hlt : n < size
  · -- The first draw is the index, and the others are of no matter.
    refine ⟨i :: List.replicate (n - 1) 0, fun rest => ?_⟩
    obtain ⟨n, rfl⟩ := Nat.exists_eq_succ_of_ne_zero (by omega : n ≠ 0)
    have hempty : Indexes size [] := ⟨List.Pairwise.nil, by simp⟩
    have hone : Indexes size [i] := ⟨List.pairwise_singleton _ _, by simpa using hi⟩
    obtain ⟨-, -, hkept, hdraws⟩ := pick_loop_spec hone (n := n)
      (by rw [List.length_singleton]; omega) (List.replicate n 0 ++ rest)
    have hfirst : pick_indexes (n + 1) size (i :: (List.replicate n 0 ++ rest)) =
        pick_loop size n [i] (List.replicate n 0 ++ rest) := by
      simp [pick_indexes, hlt, pick_loop, pick_one, skip, Nat.mod_eq_of_lt hi]
    simp only [Nat.succ_eq_add_one, Nat.add_sub_cancel, List.cons_append]
    rw [hfirst]
    exact ⟨hkept i (List.mem_singleton_self i), hdraws.trans (by simp)⟩
  · refine ⟨[], fun rest => ?_⟩
    simp only [pick_indexes, if_neg hlt, List.nil_append, List.mem_range]
    exact ⟨hi, trivial⟩

/-! ## Samples -/

/-- A sample of `n` elements, or of all of them when there are fewer. -/
structure Sample (n : Nat) (src l : List X) : Prop where
  nodup : l.Nodup
  subset : ∀ x ∈ l, x ∈ src
  length : l.length = min n src.length

/-- `elle::select`. -/
def select (src : List X) (indexes : List Nat) : List X := indexes.filterMap (src[·]?)

theorem select_sample (hsrc : src.Nodup) (h : Indexes src.length taken) :
    Sample taken.length src (select src taken) := by
  refine ⟨?_, ?_, ?_⟩
  · refine List.Nodup.filterMap ?_ (h.sorted.imp fun h => by omega)
    intro i j x hi hj
    obtain ⟨hlt, -⟩ := List.getElem?_eq_some_iff.1 hi
    exact (List.getElem?_inj hlt hsrc).1 (hi.trans hj.symm)
  · intro x hx
    obtain ⟨i, -, hi⟩ := List.mem_filterMap.1 hx
    exact List.mem_of_getElem? hi
  · have hle : taken.length ≤ src.length := by
      have hnodup : taken.Nodup := h.sorted.imp fun h => by omega
      have hsub : taken ⊆ List.range src.length := fun i hi =>
        List.mem_range.2 (h.bounded i hi)
      simpa using (List.Nodup.subperm hnodup hsub).length_le
    rw [select, List.length_filterMap_eq_countP, Nat.min_eq_left hle, List.countP_eq_length]
    intro i hi
    simpa using h.bounded i hi

theorem mem_select {i : Nat} {x : X} (hi : i ∈ taken) (hx : src[i]? = some x) :
    x ∈ select src taken := List.mem_filterMap.2 ⟨i, hi, hx⟩

/-- `pick_n`, of elements. -/
def pick_n (n : Nat) (src : List X) (ds : Draws) : List X × Draws :=
  let (indexes, ds) := pick_indexes n src.length ds
  (select src indexes, ds)

/-- `remove_n`. -/
def remove_n : Nat → List X → Draws → List X × Draws
  | 0, l, ds => (l, ds)
  | n + 1, l, ds =>
    let (v, ds) := pick_one l.length ds
    remove_n n (swap_pop v l) ds

/-- As many elements as there is room for: those that are kept are drawn, or those that are not,
whichever are fewer. -/
def some_of (n : Nat) (src : List X) (ds : Draws) : List X × Draws :=
  if n < src.length then
    if n < src.length - n then pick_n n src ds else remove_n (src.length - n) src ds
  else (src, ds)

theorem pick_n_sample (hsrc : src.Nodup) (hn : n ≤ src.length) (ds : Draws) :
    Sample n src (pick_n n src ds).1 := by
  obtain ⟨hindexes, hlength⟩ := pick_indexes_spec hn ds
  have hsample := select_sample hsrc hindexes
  rw [hlength] at hsample
  exact hsample

theorem exists_pick_n (hpos : 0 < n) (hn : n ≤ src.length) {x : X} (hx : x ∈ src) :
    ∃ ds, ∀ rest, x ∈ (pick_n n src (ds ++ rest)).1 ∧ (pick_n n src (ds ++ rest)).2 = rest := by
  obtain ⟨i, hi, rfl⟩ := List.mem_iff_getElem.1 hx
  obtain ⟨ds, hds⟩ := exists_pick_indexes hpos hn hi
  refine ⟨ds, fun rest => ⟨mem_select (hds rest).1 (List.getElem?_eq_getElem hi), (hds rest).2⟩⟩

theorem swap_pop_length (hv : v < l.length) : (swap_pop v l).length = l.length - 1 := by
  rw [(swap_pop_perm hv).length_eq, List.length_eraseIdx_of_lt hv]

theorem remove_n_sample (hl : l.Nodup) (hn : n ≤ l.length) (ds : Draws) :
    (remove_n n l ds).1.Nodup ∧ (∀ x ∈ (remove_n n l ds).1, x ∈ l) ∧
      (remove_n n l ds).1.length = l.length - n := by
  induction n generalizing l ds with
  | zero => exact ⟨hl, fun _ hx => hx, rfl⟩
  | succ n ih =>
    have hv : (pick_one l.length ds).1 < l.length := pick_one_lt (by omega) ds
    have hperm := swap_pop_perm hv
    have hlength := swap_pop_length hv
    obtain ⟨hnodup, hsubset, hcount⟩ :=
      ih (hperm.nodup_iff.2 (hl.sublist (List.eraseIdx_sublist _ _))) (by omega)
        (pick_one l.length ds).2
    refine ⟨hnodup, fun x hx => ?_, hcount.trans (by omega)⟩
    exact List.mem_of_mem_eraseIdx (hperm.mem_iff.1 (hsubset x hx))

theorem exists_remove_n (hn : n < l.length) {x : X} (hx : x ∈ l) :
    ∃ ds, ∀ rest, x ∈ (remove_n n l (ds ++ rest)).1 ∧ (remove_n n l (ds ++ rest)).2 = rest := by
  induction n generalizing l with
  | zero => exact ⟨[], fun rest => ⟨hx, rfl⟩⟩
  | succ n ih =>
    -- An index that is not the one of the element.
    obtain ⟨i, hi, hxi⟩ := List.mem_iff_getElem.1 hx
    obtain ⟨v, hv, hne⟩ : ∃ v, v < l.length ∧ i ≠ v := by
      by_cases hzero : i = 0
      · exact ⟨1, by omega, by omega⟩
      · exact ⟨0, by omega, hzero⟩
    have hkept : x ∈ swap_pop v l := by
      rw [(swap_pop_perm hv).mem_iff, List.mem_eraseIdx_iff_getElem]
      exact ⟨i, hi, hne, hxi⟩
    obtain ⟨ds, hds⟩ := ih (by rw [swap_pop_length hv]; omega) hkept
    refine ⟨v :: ds, fun rest => ?_⟩
    rw [List.cons_append, remove_n, pick_one, Nat.mod_eq_of_lt hv]
    exact hds rest

theorem some_of_sample (hsrc : src.Nodup) (ds : Draws) : Sample n src (some_of n src ds).1 := by
  unfold some_of
  split_ifs with hmore hfew
  · exact pick_n_sample hsrc (by omega) ds
  · obtain ⟨hnodup, hsubset, hlength⟩ :=
      remove_n_sample hsrc (n := src.length - n) (by omega) ds
    exact ⟨hnodup, hsubset, by omega⟩
  · exact ⟨hsrc, fun _ hx => hx, show src.length = min n src.length by omega⟩

theorem exists_some_of (hpos : 0 < n) {x : X} (hx : x ∈ src) :
    ∃ ds, ∀ rest, x ∈ (some_of n src (ds ++ rest)).1 ∧ (some_of n src (ds ++ rest)).2 = rest := by
  unfold some_of
  split_ifs with hmore hfew
  · exact exists_pick_n hpos (by omega) hx
  · exact exists_remove_n (by omega) hx
  · exact ⟨[], fun rest => ⟨hx, rfl⟩⟩

end sampling
