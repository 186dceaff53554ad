-- Dictionaries. Values are numbered as they come, in a table, and the index has the numbers of
-- the values that came so far. A number is an integer, and is looked up as one.
import Mathlib.Data.List.Nodup
import Mathlib.Data.List.Perm.Basic

namespace dictionaries

variable {K V W : Type*} [BEq K] {table rest : List V} {index : List (K × Int)}
variable {R : K → V → Prop} {k : K} {v : V} {i : Int}

/-- The element at a number, if there is one. -/
def at? (table : List V) (i : Int) : Option V := if i < 0 then none else table[i.toNat]?

theorem at?_natCast (table : List V) (n : Nat) : at? table n = table[n]? := by
  unfold at?
  rw [if_neg (by omega), Int.toNat_natCast]

theorem at?_nonneg (h : at? table i = some v) : 0 ≤ i := by
  unfold at? at h
  split at h
  · exact absurd h.symm (Option.some_ne_none v)
  · omega

theorem at?_mem (h : at? table i = some v) : v ∈ table := by
  unfold at? at h
  split at h
  · exact absurd h.symm (Option.some_ne_none v)
  · exact List.mem_of_getElem? h

theorem at?_append (h : at? table i = some v) : at? (table ++ rest) i = some v := by
  have hi := at?_nonneg h
  unfold at? at *
  rw [if_neg (by omega)] at *
  obtain ⟨hlt, -⟩ := List.getElem?_eq_some_iff.mp h
  rw [List.getElem?_append_left hlt]
  exact h

theorem at?_length : at? (table ++ [v]) table.length = some v := by
  rw [at?_natCast, List.getElem?_concat_length]

/-- The number of a key is that of a value that it goes with. -/
def Indexes (R : K → V → Prop) (index : List (K × Int)) (table : List V) : Prop :=
  ∀ k i, index.lookup k = some i → ∃ v, at? table i = some v ∧ R k v

theorem Indexes.nil : Indexes R [] table := nofun

theorem Indexes.grow (h : Indexes R index table) : Indexes R index (table ++ rest) := by
  intro k i hk
  obtain ⟨v, hv, hR⟩ := h k i hk
  exact ⟨v, at?_append hv, hR⟩

theorem Indexes.push [LawfulBEq K] (h : Indexes R index table) (hR : R k v) :
    Indexes R ((k, (table.length : Int)) :: index) (table ++ [v]) := by
  intro k' i hk
  rw [List.lookup_cons] at hk
  split at hk
  · rename_i heq
    rw [beq_iff_eq] at heq
    rw [heq, ← Option.some.inj hk]
    exact ⟨v, at?_length, hR⟩
  · exact h.grow k' i hk

theorem lookup_push_self [LawfulBEq K] : ((k, i) :: index).lookup k = some i := by
  rw [List.lookup_cons, beq_self_eq_true]

theorem lookup_push {k' : K} {j : Int} (h : (index.lookup k').isSome) :
    (((k, j) :: index).lookup k').isSome := by
  rw [List.lookup_cons]
  split
  · rfl
  · exact h

theorem mapM_eq_some {f : V → Option W} {l : List V} {r : List W} :
    l.mapM f = some r ↔ List.Forall₂ (fun x y => f x = some y) l r := by
  induction l generalizing r with
  | nil =>
    rw [List.mapM_nil, List.forall₂_nil_left_iff]
    exact ⟨fun h => (Option.some.inj h).symm, fun h => congrArg some h.symm⟩
  | cons x l ih =>
    rw [List.mapM_cons, List.forall₂_cons_left_iff]
    constructor
    · intro h
      obtain ⟨y, hy, h⟩ := Option.bind_eq_some_iff.mp h
      obtain ⟨r', hr, h⟩ := Option.bind_eq_some_iff.mp h
      exact ⟨y, r', hy, ih.mp hr, (Option.some.inj h).symm⟩
    · rintro ⟨y, r', hy, hr, rfl⟩
      rw [hy, ih.mpr hr]
      rfl

theorem mapM_isSome_iff {f : V → Option W} {l : List V} :
    (l.mapM f).isSome ↔ ∀ x ∈ l, (f x).isSome := by
  induction l with
  | nil => simp
  | cons x l ih =>
    rw [List.mapM_cons, List.forall_mem_cons, ← ih]
    cases f x with
    | none => simp
    | some y => cases l.mapM f <;> simp

theorem mapM_eq_map {f : V → Option W} {g : V → W} {l : List V}
    (h : ∀ x ∈ l, f x = some (g x)) : l.mapM f = some (l.map g) := by
  rw [mapM_eq_some, List.forall₂_map_right_iff, List.forall₂_same]
  exact h

theorem mapM_perm {f : V → Option W} {l l' : List V} {r : List W} (hl : l'.Perm l)
    (h : l.mapM f = some r) : ∃ r', l'.mapM f = some r' ∧ r'.Perm r := by
  obtain ⟨r', hr, hperm⟩ := List.perm_comp_forall₂ hl (mapM_eq_some.mp h)
  exact ⟨r', mapM_eq_some.mpr hr, hperm⟩

/-! ## Maps -/

theorem map_eq_self_iff {X : Type*} {f : X → X} {l : List X} :
    l.map f = l ↔ ∀ x ∈ l, f x = x := by
  have h := List.map_inj_left (l := l) (f := f) (g := id)
  rw [List.map_id] at h
  exact h

theorem find?_filter_of_nodup {X A : Type*} [DecidableEq A] (key : X → A) {l : List X}
    (h : (l.map key).Nodup) (p : X → Bool) (a : A) :
    (l.filter p).find? (fun x => key x = a) = (l.find? fun x => key x = a).filter p := by
  induction l with
  | nil => rfl
  | cons x l ih =>
    rw [List.map_cons, List.nodup_cons] at h
    by_cases hx : key x = a
    · rw [List.find?_cons_of_pos (by simpa using hx), Option.filter_some, List.filter_cons]
      split
      · rw [List.find?_cons_of_pos (by simpa using hx)]
      · rw [ih h.2, List.find?_eq_none.mpr, Option.filter_none]
        intro y hy
        simp only [decide_eq_true_eq]
        rintro rfl
        exact h.1 (hx ▸ List.mem_map_of_mem hy)
    · rw [List.find?_cons_of_neg (by simpa using hx), List.filter_cons, ← ih h.2]
      split
      · rw [List.find?_cons_of_neg (by simpa using hx)]
      · rfl

end dictionaries
