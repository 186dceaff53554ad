-- What the operations on the tables of a node do to the contact of an address. A table is a
-- map: it has at most one contact of each address.
import Memo.Kelips

namespace memo.overlay.kelips.Node

variable {A E : Type} {k : Nat} {n : Node A E k}
variable {table other : Option (Fin k)} {a b : A} {c : Contact A E} {f : Contact A E → Contact A E}

/-! ## Lookups -/

theorem contacts_set_self (n : Node A E k) (table : Option (Fin k)) (l : List (Contact A E)) :
    (n.set table l).contacts table = l := Function.update_self ..

theorem contacts_set_ne (n : Node A E k) (l : List (Contact A E)) (h : other ≠ table) :
    (n.set table l).contacts other = n.contacts other := Function.update_of_ne h ..

variable [DecidableEq A]

theorem find_mem (h : n.find table a = some c) : c ∈ n.contacts table ∧ c.address = a :=
  ⟨List.mem_of_find?_eq_some h, by simpa using List.find?_some h⟩

theorem find_none_iff : n.find table a = none ↔ ∀ c ∈ n.contacts table, c.address ≠ a := by
  unfold find
  simp only [List.find?_eq_none, decide_eq_true_eq]

theorem find_update (hf : ∀ c, (f c).address = c.address) :
    (n.update table b f).find other a =
      if other = table ∧ a = b then (n.find other a).map f else n.find other a := by
  unfold find update
  by_cases ht : other = table
  · subst ht
    rw [contacts_set_self, List.find?_map]
    have haddress : ((fun c : Contact A E => decide (c.address = a)) ∘
        fun c => if c.address = b then f c else c) = fun c => decide (c.address = a) := by
      funext c
      dsimp only [Function.comp]
      split
      · rw [hf]
      · rfl
    rw [haddress]
    cases hc : (n.contacts other).find? fun c => c.address = a with
    | none => simp
    | some c =>
      have hca : c.address = a := by simpa using List.find?_some hc
      rw [Option.map_some, hca]
      by_cases hab : a = b
      · rw [if_pos hab, if_pos ⟨rfl, hab⟩, Option.map_some]
      · rw [if_neg hab, if_neg fun h => hab h.2]
  · rw [contacts_set_ne _ _ ht, if_neg fun h => ht h.1]

theorem find_add (h : n.find table c.address = none) :
    (n.add table c).find other a =
      if other = table ∧ a = c.address then some c else n.find other a := by
  by_cases ht : other = table
  · subst ht
    unfold find add at *
    rw [contacts_set_self, List.find?_append, List.find?_singleton]
    by_cases ha : a = c.address
    · rw [ha, h, Option.none_or, if_pos (decide_eq_true rfl), if_pos ⟨rfl, rfl⟩]
    · rw [if_neg (by simpa using Ne.symm ha), if_neg fun h => ha h.2, Option.or_none]
  · unfold find add
    rw [contacts_set_ne _ _ ht, if_neg fun h => ht h.1]

theorem find_erase :
    (n.erase table b).find other a =
      if other = table ∧ a = b then none else n.find other a := by
  by_cases ht : other = table
  · subst ht
    unfold find erase
    rw [contacts_set_self, List.find?_filter]
    by_cases ha : a = b
    · rw [if_pos ⟨rfl, ha⟩, ha]
      exact List.find?_eq_none.mpr fun c _ => by simp
    · rw [if_neg fun h => ha h.2]
      congr 1
      funext c
      by_cases hc : c.address = a
      · simp [hc, ha]
      · simp [hc]
  · unfold find erase
    rw [contacts_set_ne _ _ ht, if_neg fun h => ht h.1]

/-! ## Maps -/

/-- An address is once in a table, and in that of its group. -/
structure Mapped (n : Node A E k) : Prop where
  once : ∀ table, ((n.contacts table).map (·.address)).Nodup
  grouped : ∀ g, ∀ c ∈ n.contacts (some g), n.group_of c.address = g

omit [DecidableEq A] in
theorem Mapped.set {l : List (Contact A E)} (h : n.Mapped)
    (honce : (l.map (·.address)).Nodup)
    (hgrouped : ∀ g, table = some g → ∀ c ∈ l, n.group_of c.address = g) :
    (n.set table l).Mapped := by
  constructor
  · intro other
    by_cases ht : other = table
    · rw [ht, contacts_set_self]
      exact honce
    · rw [contacts_set_ne _ _ ht]
      exact h.once other
  · intro g
    by_cases ht : some g = table
    · rw [ht, contacts_set_self]
      exact hgrouped g ht.symm
    · rw [contacts_set_ne _ _ ht]
      exact h.grouped g

theorem Mapped.mem_find (h : n.Mapped) (hc : c ∈ n.contacts table) :
    n.find table c.address = some c := by
  have honce := h.once table
  unfold find
  generalize n.contacts table = l at hc honce
  induction l with
  | nil => exact absurd hc List.not_mem_nil
  | cons d l ih =>
    rw [List.map_cons, List.nodup_cons] at honce
    rcases List.mem_cons.mp hc with rfl | hc
    · simp
    · have hne : d.address ≠ c.address := fun heq =>
        honce.1 (heq ▸ List.mem_map_of_mem (f := Contact.address) hc)
      rw [List.find?_cons_of_neg (by simpa using hne)]
      exact ih hc honce.2

theorem Mapped.update (h : n.Mapped) (hf : ∀ c, (f c).address = c.address) :
    (n.update table a f).Mapped := by
  have haddress : ∀ c : Contact A E, (if c.address = a then f c else c).address = c.address := by
    intro c
    split
    · exact hf c
    · rfl
  apply h.set
  · rw [List.map_map]
    have hcomp : ((fun c : Contact A E => c.address) ∘
        fun c => if c.address = a then f c else c) = fun c => c.address := funext haddress
    rw [hcomp]
    exact h.once table
  · rintro g rfl c hc
    obtain ⟨d, hd, rfl⟩ := List.mem_map.mp hc
    rw [haddress]
    exact h.grouped g d hd

theorem Mapped.add (h : n.Mapped) (hnone : n.find table c.address = none)
    (hgroup : ∀ g, table = some g → n.group_of c.address = g) : (n.add table c).Mapped := by
  apply h.set
  · rw [List.map_append, List.map_singleton]
    refine List.nodup_append.mpr ⟨h.once table, List.nodup_singleton _, fun b hb d hd hbd => ?_⟩
    obtain ⟨e, he, rfl⟩ := List.mem_map.mp hb
    exact find_none_iff.mp hnone e he (hbd.trans (List.mem_singleton.mp hd))
  · rintro g rfl d hd
    rcases List.mem_append.mp hd with hd | hd
    · exact h.grouped g d hd
    · rw [List.mem_singleton.mp hd]
      exact hgroup g rfl

omit [DecidableEq A] in
theorem Mapped.sublist {l : List (Contact A E)} (h : n.Mapped)
    (hl : (l.map (·.address)).Sublist ((n.contacts table).map (·.address))) :
    (n.set table l).Mapped := by
  apply h.set ((h.once table).sublist hl)
  rintro g rfl c hc
  obtain ⟨d, hd, heq⟩ := List.mem_map.mp (hl.subset (List.mem_map_of_mem (f := (·.address)) hc))
  exact heq ▸ h.grouped g d hd

theorem Mapped.erase (h : n.Mapped) : (n.erase table a).Mapped :=
  h.sublist (List.filter_sublist.map _)

end memo.overlay.kelips.Node
