-- How many acceptors `_load_paxos` leaves in the cache. Its loop counts up while the size that
-- it reads again goes down, so it drops half of what is over the bound.
import Mathlib.Tactic.Linarith
import Memo.AddressCache
import Memo.Runs

open multi_index runs

namespace memo.Addresses

variable {A T D : Type} [DecidableEq A] [LinearOrder T]
variable {self : Addresses A T D} {a : A} {d : D} {now : T} {max : Int} {used : A → Bool}
variable {e x y : DecisionEntry A T D} {old rest l : List (DecisionEntry A T D)}

/-! ## The loop -/

/-- How many turns the loop has, from a size and a count. -/
def turns (max : Int) (size i : Nat) : Nat := ((size - max - i + 1) / 2).toNat

omit [DecidableEq A] [LinearOrder T] in
theorem unload_length (hold : ∀ x ∈ old, used x.address = false) (he : used e.address = true)
    (i : Nat) :
    (unload max used i (old ++ e :: rest)).length =
      (old ++ e :: rest).length - min old.length (turns max (old ++ e :: rest).length i) := by
  induction old generalizing i with
  | nil =>
    rw [List.nil_append]
    unfold unload
    rw [if_pos he]
    split_ifs <;> simp
  | cons x old ih =>
    have hx := hold x List.mem_cons_self
    have hrest := ih (fun y hy => hold y (List.mem_cons_of_mem _ hy)) (i + 1)
    rw [List.cons_append]
    unfold unload
    simp only [hx, Bool.false_eq_true, if_false, List.length_cons, turns] at hrest ⊢
    split_ifs with hturn
    · rw [hrest]
      push_cast at hturn ⊢
      omega
    · rw [List.length_cons]
      push_cast at hturn ⊢
      omega

omit [DecidableEq A] in
theorem unload_oldest (h : l.Pairwise (·.use < ·.use)) (hx : x ∈ l)
    (hdrop : x ∉ unload max used 0 l) (hy : y ∈ unload max used 0 l) : x.use < y.use := by
  obtain ⟨dropped, hl⟩ : unload max used 0 l <:+ l := unload_suffix l
  rw [← hl] at h hx
  rcases List.mem_append.mp hx with hx | hx
  · exact (List.pairwise_append.mp h).2.2 x hx y hy
  · exact absurd hx hdrop

/-! ## One load -/

/-- `_load_paxos(address, decision)` while no other entry is in use. -/
def load (max : Int) (self : Addresses A T D) (e : DecisionEntry A T D) : Addresses A T D :=
  (_load_decision max e.address e.decision e.use (fun _ => false) self).2

/-- The entry enters the cache. -/
def Inserts (self : Addresses A T D) (e : DecisionEntry A T D) : Prop :=
  Free DecisionEntry.address DecisionEntry.use self.elements e

/-- The entries that were used before this one. -/
def older (self : Addresses A T D) (e : DecisionEntry A T D) : List (DecisionEntry A T D) :=
  self.elements.filter (·.use < e.use)

/-- The cache is at its bound again, and has dropped its least recently used entries only. -/
structure Returned (max : Int) (s : Addresses A T D) (e : DecisionEntry A T D)
    (s' : Addresses A T D) : Prop where
  inserted : e ∈ s'.elements
  bounded : (s'.elements.length : Int) ≤ max ∨ s'.elements = [e]
  oldest : ∀ x ∈ s.elements, x ∉ s'.elements → ∀ y ∈ s'.elements, x.use < y.use

theorem load_elements (h : Inserts self e) : (load max self e).elements =
    unload max (fun a => a = e.address) 0 (place DecisionEntry.use e self.elements) := by
  have hin := (Container.insert_free h).1
  have hplace : (self.insert e).1.elements = place DecisionEntry.use e self.elements := by
    have h' : Free DecisionEntry.address DecisionEntry.use self.elements e := h
    rw [Container.insert, dif_pos h']
  unfold load _load_decision
  simp only [hin, if_true, Bool.or_false, hplace]
  rfl

theorem mem_load_self (h : Inserts self e) : e ∈ (load max self e).elements := by
  rw [load_elements h]
  exact mem_unload_of_used ((mem_place h).mpr (Or.inl rfl)) (by simp)

theorem load_length (h : Inserts self e) : (load max self e).elements.length =
    self.elements.length + 1 -
      min (older self e).length (turns max (self.elements.length + 1) 0) := by
  have hsize : (place DecisionEntry.use e self.elements).length = self.elements.length + 1 :=
    (place_perm self.ordered_unique h).length_eq
  have hold : ∀ x ∈ older self e, decide (x.address = e.address) = false := fun x hx => by
    simpa using (h x (List.mem_filter.mp hx).1).1
  have he : decide (e.address = e.address) = true := by simp
  rw [load_elements h, ← hsize]
  exact unload_length hold he 0

theorem load_oldest (h : Inserts self e) : ∀ x ∈ self.elements, x ∉ (load max self e).elements →
    ∀ y ∈ (load max self e).elements, x.use < y.use := by
  rw [load_elements h]
  intro x hx hdrop y hy
  exact unload_oldest (place_ordered e self.ordered_unique) ((mem_place h).mpr (Or.inr hx)) hdrop hy

omit [DecidableEq A] in
theorem older_pos : 0 < (older self e).length ↔ ∃ x ∈ self.elements, x.use < e.use := by
  rw [older, List.length_filter_pos_iff]
  simp

omit [DecidableEq A] in
theorem older_all : (older self e).length = self.elements.length ↔
    ∀ x ∈ self.elements, x.use < e.use := by
  rw [older, List.length_filter_eq_length_iff]
  simp

/-- The cache had room; or it was full, with an entry to drop; or the bound is so small that half
of what is over it is everything but the new entry. -/
def Room (max : Int) (self : Addresses A T D) (e : DecisionEntry A T D) : Prop :=
  self.elements.length < max ∨
  (self.elements.length = max ∧ ∃ x ∈ self.elements, x.use < e.use) ∨
  (self.elements.length ≤ 2 - max ∧ ∀ x ∈ self.elements, x.use < e.use)

theorem returned_iff (h : Inserts self e) :
    Returned max self e (load max self e) ↔ Room max self e := by
  have hlength : (load max self e).elements.length = _ := load_length h
  have hself : e ∈ (load max self e).elements := mem_load_self h
  have hle : (older self e).length ≤ self.elements.length := List.length_filter_le _ _
  have hone : (load max self e).elements = [e] ↔ (load max self e).elements.length = 1 := by
    refine ⟨fun hl => by rw [hl, List.length_singleton], fun hl => ?_⟩
    obtain ⟨y, hy⟩ := List.length_eq_one_iff.mp hl
    rw [hy, List.mem_singleton] at hself
    rw [hy, hself]
  have hreturned : Returned max self e (load max self e) ↔
      ((load max self e).elements.length : Int) ≤ max ∨ (load max self e).elements.length = 1 := by
    rw [← hone]
    exact ⟨Returned.bounded, fun hb => ⟨hself, hb, load_oldest h⟩⟩
  unfold turns at hlength
  rw [hreturned, Room, ← older_pos, ← older_all, hlength]
  omega

/-! ## Loads one after the other -/

/-- The address is not in the cache, and the clock has moved. -/
def Later (self : Addresses A T D) (e : DecisionEntry A T D) : Prop :=
  ∀ x ∈ self.elements, x.address ≠ e.address ∧ x.use < e.use

omit [DecidableEq A] in
theorem Later.inserts (h : Later self e) : Inserts self e := fun x hx => ⟨(h x hx).1, (h x hx).2.ne⟩

theorem load_length_of_later (h : Later self e) : (load max self e).elements.length =
    self.elements.length + 1 -
      min self.elements.length (turns max (self.elements.length + 1) 0) := by
  rw [load_length h.inserts, older_all.mpr fun x hx => (h x hx).2]

/-- The cache is at its bound, or has one entry. -/
def Within (max : Int) (self : Addresses A T D) : Prop :=
  (self.elements.length : Int) ≤ max ∨ self.elements.length = 1

theorem foldl_load_bounded (hmax : 0 < max) (h : (self.elements.length : Int) ≤ max)
    {es : List (DecisionEntry A T D)} (hes : Always Later (load max) self es) :
    ((es.foldl (load max) self).elements.length : Int) ≤ max := by
  refine hes.invariant (I := fun self => (self.elements.length : Int) ≤ max) h
    (fun self e hle hlater => ?_) List.prefix_rfl
  rw [load_length_of_later hlater, turns]
  omega

theorem foldl_load_over (hmax : 0 < max) (h : max < self.elements.length)
    {es : List (DecisionEntry A T D)} (hes : Always Later (load max) self es) :
    max < (es.foldl (load max) self).elements.length := by
  refine hes.invariant (I := fun self => max < self.elements.length) h
    (fun self e hlt hlater => ?_) List.prefix_rfl
  rw [load_length_of_later hlater, turns]
  omega

theorem foldl_load_alone (hmax : max ≤ 0) {es : List (DecisionEntry A T D)} (hne : es ≠ [])
    (hes : Always Later (load max) self es) (hlong : self.elements.length ≤ es.length + 1) :
    (es.foldl (load max) self).elements.length = 1 := by
  induction es generalizing self with
  | nil => exact absurd rfl hne
  | cons e es ih =>
    obtain ⟨hlater, hrest⟩ := hes
    have hlength : (load max self e).elements.length = _ := load_length_of_later hlater
    rw [turns] at hlength
    rw [List.length_cons] at hlong
    rw [List.foldl_cons]
    cases es with
    | nil =>
      rw [List.length_nil] at hlong
      rw [List.foldl_nil, hlength]
      omega
    | cons e' es =>
      refine ih (List.cons_ne_nil _ _) hrest ?_
      rw [List.length_cons] at hlong ⊢
      omega

/-- A load takes the cache back to its bound if and only if there was room. And loads one after
the other recover an overshoot if and only if the bound is not positive. -/
theorem cache_returns_to_its_bound_iff (max : Int) (self : Addresses A T D) :
    (∀ e, Inserts self e → (Returned max self e (load max self e) ↔ Room max self e)) ∧
    ∀ es, es ≠ [] → Always Later (load max) self es →
      (0 < max → (Within max (es.foldl (load max) self) ↔ self.elements.length ≤ max)) ∧
      (max ≤ 0 → self.elements.length ≤ es.length → Within max (es.foldl (load max) self)) := by
  refine ⟨fun e he => returned_iff he, fun es hne hes => ⟨fun hmax => ⟨?_, fun hle => ?_⟩, ?_⟩⟩
  · rintro hwithin
    by_contra hover
    have hlt := foldl_load_over hmax (not_le.mp hover) hes
    rcases hwithin with hle | hone
    · omega
    · omega
  · exact Or.inl (foldl_load_bounded hmax hle hes)
  · exact fun hmax hlong => Or.inr (foldl_load_alone hmax hne hes (by omega))

/-- A cache of two acceptors. -/
def two : Addresses Nat Nat Nat := after 2 ⟨[], .nil, .nil⟩ [fetched 1 5 11, fetched 2 6 12]

/-- A bound of one, and two entries that were in use: a load leaves two entries, and so does the
next one. -/
theorem an_overshoot_stays : ¬ Returned 1 two ⟨3, 7, 13⟩ (load 1 two ⟨3, 7, 13⟩) ∧
    ¬ Within 1 ([⟨3, 7, 13⟩, ⟨4, 8, 14⟩].foldl (load 1) two) := by
  refine ⟨fun h => ?_, ?_⟩
  · have hlength := h.bounded
    revert hlength
    decide
  · unfold Within
    decide

/-- A full cache drops its oldest entry. -/
theorem a_full_cache_stays_full : Returned 2 two ⟨3, 7, 13⟩ (load 2 two ⟨3, 7, 13⟩) ∧
    Within 2 ([⟨3, 7, 13⟩].foldl (load 2) two) := by
  obtain ⟨hload, hloads⟩ := cache_returns_to_its_bound_iff 2 two
  have hlater : Later two ⟨3, 7, 13⟩ := by
    unfold Later
    decide
  have halways : Always Later (load 2) two [⟨3, 7, 13⟩] := ⟨hlater, trivial⟩
  exact ⟨(hload _ hlater.inserts).mpr (Or.inr (Or.inl (by decide))),
    ((hloads _ (by decide) halways).1 (by decide)).mpr (by decide)⟩

end memo.Addresses
