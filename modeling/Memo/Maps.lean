-- Maps as the standard library has them: one keeps its entries in the order of
-- the keys, the other one in the order they came. An entry whose key is there
-- already is left out. A map can be filled from its own entries.
import Mathlib.Data.List.Lex
import Mathlib.Data.List.Nodup

namespace maps

variable {κ α β : Type*}

/-! ## Entries in the order of their keys -/

section Sorted

variable [LT κ] [DecidableLT κ] [DecidableEq κ]

/-- `std::map::emplace`. -/
def insert (k : κ) (x : α) : List (κ × α) → List (κ × α)
  | [] => [(k, x)]
  | e :: l => if k = e.1 then e :: l else if k < e.1 then (k, x) :: e :: l else e :: insert k x l

/-- The keys ascend. -/
def Ascending (l : List (κ × α)) : Prop := (l.map Prod.fst).Pairwise (· < ·)

theorem insert_fst (k : κ) (x : α) (l : List (κ × α)) :
    ∀ k' ∈ (insert k x l).map Prod.fst, k' = k ∨ k' ∈ l.map Prod.fst := by
  induction l with
  | nil => simp [insert]
  | cons e l ih =>
    intro k' hk'
    unfold insert at hk'
    split_ifs at hk'
    · exact Or.inr hk'
    · simpa using hk'
    · simp only [List.map_cons, List.mem_cons] at hk' ⊢
      rcases hk' with hk' | hk'
      · exact Or.inr (Or.inl hk')
      · rcases ih k' hk' with h | h
        · exact Or.inl h
        · exact Or.inr (Or.inr h)

variable [Std.Asymm ((· < ·) : κ → κ → Prop)]

theorem insert_last {k : κ} {l : List (κ × α)} (h : ∀ k' ∈ l.map Prod.fst, k' < k) (x : α) :
    insert k x l = l ++ [(k, x)] := by
  induction l with
  | nil => rfl
  | cons e l ih =>
    have he : e.1 < k := h e.1 (by simp)
    have hne : k ≠ e.1 := by
      intro heq
      rw [heq] at he
      exact Std.Asymm.asymm _ _ he he
    unfold insert
    rw [if_neg hne, if_neg (Std.Asymm.asymm _ _ he), List.cons_append,
      ih fun k' hk' => h k' (by simp only [List.map_cons, List.mem_cons, hk', or_true])]

variable [Std.Trichotomous ((· < ·) : κ → κ → Prop)]
variable [Trans ((· < ·) : κ → κ → Prop) ((· < ·) : κ → κ → Prop) ((· < ·) : κ → κ → Prop)]

theorem insert_ascending {l : List (κ × α)} (h : Ascending l) (k : κ) (x : α) :
    Ascending (insert k x l) := by
  unfold Ascending at *
  induction l with
  | nil => simp [insert]
  | cons e l ih =>
    rw [List.map_cons, List.pairwise_cons] at h
    unfold insert
    split_ifs with heq hlt
    · rw [List.map_cons, List.pairwise_cons]
      exact h
    · simp only [List.map_cons, List.pairwise_cons, List.mem_cons]
      refine ⟨?_, h⟩
      rintro k' (rfl | hk')
      · exact hlt
      · exact Trans.trans hlt (h.1 k' hk')
    · rw [List.map_cons, List.pairwise_cons]
      refine ⟨?_, ih h.2⟩
      intro k' hk'
      rcases insert_fst k x l k' hk' with rfl | hk'
      · rcases Std.Trichotomous.rel_or_eq_or_rel_swap (r := ((· < ·) : κ → κ → Prop))
          (a := k') (b := e.1) with h' | h' | h'
        · exact absurd h' hlt
        · exact absurd h' heq
        · exact h'
      · exact h.1 k' hk'

end Sorted

/-- A map in the order of its keys. -/
@[ext]
structure Map (κ α : Type*) [LT κ] where
  entries : List (κ × α)
  ascending : Ascending entries
deriving DecidableEq

namespace Map

variable [LT κ] [DecidableLT κ] [DecidableEq κ] [Std.Asymm ((· < ·) : κ → κ → Prop)]
variable [Std.Trichotomous ((· < ·) : κ → κ → Prop)]
variable [Trans ((· < ·) : κ → κ → Prop) ((· < ·) : κ → κ → Prop) ((· < ·) : κ → κ → Prop)]

def empty : Map κ α := ⟨[], by simp [Ascending]⟩

def emplace (m : Map κ α) (e : κ × α) : Map κ α :=
  ⟨insert e.1 e.2 m.entries, insert_ascending m.ascending e.1 e.2⟩

/-- The map that entries make, one after the other. -/
def of (l : List (κ × α)) : Map κ α := l.foldl emplace empty

theorem foldl_emplace (m : Map κ α) {l : List (κ × α)} (h : Ascending (m.entries ++ l)) :
    (l.foldl emplace m).entries = m.entries ++ l := by
  induction l generalizing m with
  | nil => simp
  | cons e l ih =>
    have hlast : (m.emplace e).entries = m.entries ++ [e] := by
      apply insert_last
      intro k' hk'
      unfold Ascending at h
      rw [List.map_append, List.pairwise_append] at h
      exact h.2.2 k' hk' e.1 (by simp)
    have h' : Ascending ((m.emplace e).entries ++ l) := by
      rw [hlast, List.append_assoc]
      exact h
    rw [List.foldl_cons, ih (m.emplace e) h', hlast, List.append_assoc]
    rfl

theorem of_entries {l : List (κ × α)} (h : Ascending l) : (of l).entries = l :=
  foldl_emplace empty h

theorem of_own_entries (m : Map κ α) : of m.entries = m := Map.ext (of_entries m.ascending)

end Map

/-! ## Entries in the order they came -/

/-- A map with an order of its own. -/
@[ext]
structure Assoc (κ α : Type*) where
  entries : List (κ × α)
  distinct : (entries.map Prod.fst).Nodup
deriving DecidableEq

namespace Assoc

variable [DecidableEq κ]

def empty : Assoc κ α := ⟨[], List.nodup_nil⟩

def emplace (m : Assoc κ α) (e : κ × α) : Assoc κ α :=
  if h : e.1 ∈ m.entries.map Prod.fst then m
  else ⟨m.entries ++ [e], by
    rw [List.map_append, List.nodup_append]
    refine ⟨m.distinct, List.nodup_singleton e.1, ?_⟩
    rintro k hk k' hk' rfl
    rw [List.map_singleton, List.mem_singleton] at hk'
    exact h (hk' ▸ hk)⟩

def of (l : List (κ × α)) : Assoc κ α := l.foldl emplace empty

theorem foldl_emplace (m : Assoc κ α) {l : List (κ × α)}
    (h : ((m.entries ++ l).map Prod.fst).Nodup) :
    (l.foldl emplace m).entries = m.entries ++ l := by
  induction l generalizing m with
  | nil => simp
  | cons e l ih =>
    have hlast : (m.emplace e).entries = m.entries ++ [e] := by
      unfold emplace
      rw [List.map_append, List.nodup_append] at h
      rw [dif_neg fun hmem => h.2.2 e.1 hmem e.1 (by simp) rfl]
    have h' : (((m.emplace e).entries ++ l).map Prod.fst).Nodup := by
      rw [hlast, List.append_assoc]
      exact h
    rw [List.foldl_cons, ih (m.emplace e) h', hlast, List.append_assoc]
    rfl

theorem of_own_entries (m : Assoc κ α) : of m.entries = m :=
  Assoc.ext (foldl_emplace empty m.distinct)

theorem foldl_sublist (m : Assoc κ α) (l : List (κ × α)) :
    (l.foldl emplace m).entries.Sublist (m.entries ++ l) := by
  induction l generalizing m with
  | nil => simp
  | cons e l ih =>
    refine (ih (m.emplace e)).trans ?_
    unfold emplace
    split_ifs
    · exact (List.sublist_cons_self e l).append_left m.entries
    · rw [List.append_assoc]
      exact List.Sublist.refl _

theorem entries_of_length {m : Assoc κ α} {l : List (κ × α)} (h : of l = m)
    (hlength : l.length = m.entries.length) : l = m.entries := by
  have hsub := foldl_sublist empty l
  rw [show l.foldl emplace empty = m from h] at hsub
  exact (hsub.eq_of_length hlength.symm).symm

end Assoc

end maps
