-- A container with two unique keys: it is looked up by the one and walked in
-- the order of the other. An element whose key is taken does not enter, and
-- an element that is modified to a taken key leaves.
import Mathlib.Data.List.Nodup
import Mathlib.Order.Lattice

namespace multi_index

variable {E K U : Type} [LinearOrder U] {key : E → K} {order : E → U}

/-- The elements, in the order of the second key. -/
structure Container (key : E → K) (order : E → U) where
  elements : List E
  hashed_unique : elements.Pairwise (key · ≠ key ·)
  ordered_unique : elements.Pairwise (order · < order ·)

/-- Neither key of the element is taken. -/
def Free (key : E → K) (order : E → U) (l : List E) (e : E) : Prop :=
  ∀ x ∈ l, key x ≠ key e ∧ order x ≠ order e

instance [DecidableEq K] (l : List E) (e : E) : Decidable (Free key order l e) :=
  inferInstanceAs (Decidable (∀ x ∈ l, key x ≠ key e ∧ order x ≠ order e))

/-- The element at its place in the order. -/
def place (order : E → U) (e : E) (l : List E) : List E :=
  l.filter (order · < order e) ++ e :: l.filter (order e < order ·)

theorem mem_place {l : List E} {e x : E} (h : Free key order l e) :
    x ∈ place order e l ↔ x = e ∨ x ∈ l := by
  simp only [place, List.mem_append, List.mem_cons, List.mem_filter, decide_eq_true_eq]
  constructor
  · rintro (⟨hx, -⟩ | rfl | ⟨hx, -⟩)
    · exact Or.inr hx
    · exact Or.inl rfl
    · exact Or.inr hx
  · rintro (rfl | hx)
    · exact Or.inr (Or.inl rfl)
    · rcases lt_or_gt_of_ne (h x hx).2 with hlt | hgt
      · exact Or.inl ⟨hx, hlt⟩
      · exact Or.inr (Or.inr ⟨hx, hgt⟩)

theorem place_ordered {l : List E} (e : E) (h : l.Pairwise (order · < order ·)) :
    (place order e l).Pairwise (order · < order ·) := by
  refine List.pairwise_append.mpr ⟨h.filter _, List.pairwise_cons.mpr ⟨?_, h.filter _⟩, ?_⟩
  · intro x hx
    simpa using (List.mem_filter.mp hx).2
  · intro x hx y hy
    have hxe : order x < order e := by simpa using (List.mem_filter.mp hx).2
    rcases List.mem_cons.mp hy with rfl | hy
    · exact hxe
    · have hey : order e < order y := by simpa using (List.mem_filter.mp hy).2
      exact hxe.trans hey

theorem place_perm {l : List E} {e : E} (ho : l.Pairwise (order · < order ·))
    (hf : Free key order l e) : (place order e l).Perm (e :: l) := by
  refine (List.perm_ext_iff_of_nodup ?_ ?_).mpr fun x => ?_
  · exact (place_ordered e ho).imp fun hlt heq => hlt.ne (congrArg order heq)
  · refine List.nodup_cons.mpr ⟨fun he => (hf e he).1 rfl, ?_⟩
    exact ho.imp fun hlt heq => hlt.ne (congrArg order heq)
  · rw [mem_place hf, List.mem_cons]

theorem place_unique {l : List E} {e : E} (h : l.Pairwise (key · ≠ key ·))
    (ho : l.Pairwise (order · < order ·)) (hf : Free key order l e) :
    (place order e l).Pairwise (key · ≠ key ·) := by
  refine ((place_perm ho hf).pairwise_iff fun hne => hne.symm).mpr
    (List.pairwise_cons.mpr ⟨fun x hx => ?_, h⟩)
  exact ((hf x hx).1).symm

/-- A key that no two elements have finds its element. -/
theorem find_iff {f : E → K} {l : List E} {k : K} {e : E} [DecidableEq K]
    (h : (l.map f).Nodup) : l.find? (fun x => f x = k) = some e ↔ e ∈ l ∧ f e = k := by
  constructor
  · intro he
    exact ⟨List.mem_of_find?_eq_some he, by simpa using List.find?_some he⟩
  · rintro ⟨he, rfl⟩
    cases hfind : l.find? fun x => f x = f e with
    | none => simpa using List.find?_eq_none.mp hfind e he
    | some x =>
      have hx : f x = f e := by simpa using List.find?_some hfind
      rw [List.inj_on_of_nodup_map h (List.mem_of_find?_eq_some hfind) he hx]

namespace Container

variable {c : Container key order} {k : K} {e x : E}

variable [DecidableEq K]

/-- A part of the elements. -/
def part (c : Container key order) (l : List E) (h : l.Sublist c.elements) :
    Container key order :=
  ⟨l, c.hashed_unique.sublist h, c.ordered_unique.sublist h⟩

def empty : Container key order := ⟨[], List.Pairwise.nil, List.Pairwise.nil⟩

def find (c : Container key order) (k : K) : Option E := c.elements.find? (key · = k)

/-- The look-up by the other key. -/
def find_at (c : Container key order) (u : U) : Option E := c.elements.find? (order · = u)

def erase (c : Container key order) (k : K) : Container key order :=
  c.part (c.elements.filter (key · ≠ k)) List.filter_sublist

/-- Whether the element entered is returned with the container. -/
def insert (c : Container key order) (e : E) : Container key order × Bool :=
  if h : Free key order c.elements e then
    (⟨place order e c.elements, place_unique c.hashed_unique c.ordered_unique h,
      place_ordered e c.ordered_unique⟩, true)
  else (c, false)

/-- An element that is modified to a key of another one is erased. -/
def modify (c : Container key order) (k : K) (f : E → E) : Container key order :=
  match c.find k with
  | none => c
  | some e => ((c.erase k).insert (f e)).1

theorem mem_of_find (h : c.find k = some e) : e ∈ c.elements ∧ key e = k :=
  ⟨List.mem_of_find?_eq_some h, by simpa using List.find?_some h⟩

omit [DecidableEq K] in
theorem keys_nodup (c : Container key order) : (c.elements.map key).Nodup :=
  List.pairwise_map.mpr c.hashed_unique

omit [DecidableEq K] in
theorem orders_nodup (c : Container key order) : (c.elements.map order).Nodup :=
  List.pairwise_map.mpr (c.ordered_unique.imp fun hlt => hlt.ne)

omit [DecidableEq K] in
theorem key_inj (hx : x ∈ c.elements) (he : e ∈ c.elements) (h : key x = key e) : x = e :=
  List.inj_on_of_nodup_map c.keys_nodup hx he h

omit [DecidableEq K] in
theorem order_inj (hx : x ∈ c.elements) (he : e ∈ c.elements) (h : order x = order e) : x = e :=
  List.inj_on_of_nodup_map c.orders_nodup hx he h

theorem find_eq_some : c.find k = some e ↔ e ∈ c.elements ∧ key e = k := find_iff c.keys_nodup

omit [DecidableEq K] in
theorem find_at_eq_some {u : U} : c.find_at u = some e ↔ e ∈ c.elements ∧ order e = u :=
  find_iff c.orders_nodup

theorem find_eq_none : c.find k = none ↔ ∀ x ∈ c.elements, key x ≠ k := by
  simp [find]

omit [DecidableEq K] in
@[simp] theorem mem_part {l : List E} {h : l.Sublist c.elements} :
    x ∈ (c.part l h).elements ↔ x ∈ l := Iff.rfl

@[simp] theorem mem_erase : x ∈ (c.erase k).elements ↔ x ∈ c.elements ∧ key x ≠ k := by
  simp [erase]

theorem insert_free (h : Free key order c.elements e) :
    (c.insert e).2 = true ∧ ∀ x, x ∈ (c.insert e).1.elements ↔ x = e ∨ x ∈ c.elements := by
  unfold insert
  rw [dif_pos h]
  exact ⟨rfl, fun x => mem_place h⟩

theorem insert_taken (h : ¬ Free key order c.elements e) : c.insert e = (c, false) := by
  unfold insert
  rw [dif_neg h]

theorem mem_of_mem_insert (h : x ∈ (c.insert e).1.elements) : x = e ∨ x ∈ c.elements := by
  by_cases hf : Free key order c.elements e
  · exact ((insert_free hf).2 x).mp h
  · rw [insert_taken hf] at h
    exact Or.inr h

theorem insert_length (h : Free key order c.elements e) :
    (c.insert e).1.elements.length = c.elements.length + 1 := by
  unfold insert
  rw [dif_pos h]
  simpa using (place_perm c.ordered_unique h).length_eq

theorem find_insert (h : Free key order c.elements e) : (c.insert e).1.find (key e) = some e :=
  find_eq_some.mpr ⟨((insert_free h).2 e).mpr (Or.inl rfl), rfl⟩

theorem find_modify {f : E → E} (h : c.find k = some e) (hk : key (f e) = k) :
    (∃ x, (c.modify k f).find k = some x) ↔
      ∀ x ∈ c.elements, key x ≠ k → order x ≠ order (f e) := by
  have hfree : Free key order (c.erase k).elements (f e) ↔
      ∀ x ∈ c.elements, key x ≠ k → order x ≠ order (f e) := by
    constructor
    · intro hf x hx hne
      exact (hf x (mem_erase.mpr ⟨hx, hne⟩)).2
    · intro hf x hx
      obtain ⟨hx, hne⟩ := mem_erase.mp hx
      exact ⟨by rwa [hk], hf x hx hne⟩
  have hmod : c.modify k f = ((c.erase k).insert (f e)).1 := by simp [modify, h]
  rw [← hfree, hmod]
  constructor
  · rintro ⟨x, hx⟩
    by_contra hn
    rw [insert_taken hn] at hx
    obtain ⟨hm, hxk⟩ := mem_of_find hx
    exact (mem_erase.mp hm).2 hxk
  · intro hf
    have hfind := find_insert hf
    rw [hk] at hfind
    exact ⟨f e, hfind⟩

theorem find_modify_eq {f : E → E} (h : c.find k = some e) (hk : key (f e) = k)
    (hx : (c.modify k f).find k = some x) : x = f e := by
  have hfree := (find_modify h hk).mp ⟨x, hx⟩
  have hmod : c.modify k f = ((c.erase k).insert (f e)).1 := by simp [modify, h]
  rw [hmod] at hx
  obtain ⟨hm, hxk⟩ := mem_of_find hx
  have hf : Free key order (c.erase k).elements (f e) := by
    intro y hy
    obtain ⟨hy, hne⟩ := mem_erase.mp hy
    exact ⟨by rwa [hk], hfree y hy hne⟩
  rcases ((insert_free hf).2 x).mp hm with rfl | hm
  · rfl
  · exact absurd hxk (mem_erase.mp hm).2

end Container

end multi_index
