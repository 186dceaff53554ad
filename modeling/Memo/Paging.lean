-- Paging through ordered keys that come and go between two pages. A page lists the first keys
-- after a marker, and the last key that it lists is the marker of the next page.
import Mathlib.Data.List.Pairwise
import Mathlib.Order.Lattice

namespace paging

variable {K : Type} [LinearOrder K]

/-- The keys there are when a page is asked for, and the page. -/
structure Page (K : Type) where
  keys : List K
  marker : K
  items : List K
  truncated : Bool
deriving DecidableEq

/-- The marker of the page after this one. -/
def Page.last (p : Page K) : K := p.items.getLast?.getD p.marker

def after (marker : K) (keys : List K) : List K := keys.filter (marker < ·)

/-- A page of at most `n` keys. -/
structure Page.Right (n : Nat) (p : Page K) : Prop where
  sorted : p.keys.Pairwise (· < ·)
  items : p.items = (after p.marker p.keys).take n
  truncated : p.truncated = true ↔ ∃ k ∈ p.keys, p.last < k

/-- Each page but the last one is truncated, and the next one goes on after it. -/
def Chain : K → List (Page K) → Prop
  | _, [] => True
  | marker, p :: ps => p.marker = marker ∧ (ps ≠ [] → p.truncated = true) ∧ Chain p.last ps

/-- What a client relies on. A key that is there throughout is listed, once the last page is not
truncated. -/
structure Paged (n : Nat) (ps : List (Page K)) : Prop where
  increasing : (ps.flatMap Page.items).Pairwise (· < ·)
  present : ∀ p ∈ ps, ∀ k ∈ p.items, k ∈ p.keys
  bounded : ∀ p ∈ ps, p.items.length ≤ n
  truncated : ∀ p ∈ ps, p.truncated = true ↔ ∃ k ∈ p.keys, p.last < k
  complete : (∃ p, ps.getLast? = some p ∧ p.truncated = false) →
    ∀ k, (∀ p ∈ ps, k ∈ p.keys) → k ∈ ps.flatMap Page.items

/-! ## One page -/

variable {n : Nat} {p : Page K} {k marker : K}

theorem mem_after {keys : List K} : k ∈ after marker keys ↔ k ∈ keys ∧ marker < k := by
  simp [after]

theorem after_all {keys : List K} (h : ∀ k ∈ keys, marker < k) : after marker keys = keys := by
  rw [after, List.filter_eq_self]
  intro k hk
  simpa using h k hk

theorem after_none {keys : List K} (h : ∀ k ∈ keys, k ≤ marker) : after marker keys = [] := by
  rw [after, List.filter_eq_nil_iff]
  intro k hk
  simpa using h k hk

theorem after_marker {front keys : List K} (hs : (front ++ marker :: keys).Pairwise (· < ·)) :
    after marker (front ++ marker :: keys) = keys := by
  obtain ⟨-, htail, hcross⟩ := List.pairwise_append.mp hs
  have hfront : after marker front = [] :=
    after_none fun k hk => le_of_lt (hcross k hk marker List.mem_cons_self)
  have hkeys : after marker keys = keys := after_all (List.pairwise_cons.mp htail).1
  unfold after at hfront hkeys ⊢
  rw [List.filter_append, hfront, List.filter_cons_of_neg (by simp), hkeys, List.nil_append]

theorem pairwise_last {l : List K} (h : l.Pairwise (· < ·)) {k last : K}
    (hlast : l.getLast? = some last) (hk : k ∈ l) : k ≤ last := by
  obtain ⟨front, rfl⟩ := List.getLast?_eq_some_iff.mp hlast
  rw [List.mem_append, List.mem_singleton] at hk
  rcases hk with hk | rfl
  · exact le_of_lt ((List.pairwise_append.mp h).2.2 k hk last List.mem_cons_self)
  · exact le_refl _

namespace Page.Right

theorem mem_keys (h : p.Right n) (hk : k ∈ p.items) : k ∈ p.keys ∧ p.marker < k := by
  rw [h.items] at hk
  exact mem_after.mp (List.mem_of_mem_take hk)

theorem items_sorted (h : p.Right n) : p.items.Pairwise (· < ·) := by
  rw [h.items]
  exact (h.sorted.filter _).sublist (List.take_sublist _ _)

theorem le_last (h : p.Right n) (hk : k ∈ p.items) : k ≤ p.last := by
  cases hlast : p.items.getLast? with
  | none =>
    rw [List.getLast?_eq_none_iff.mp hlast] at hk
    cases hk
  | some last =>
    rw [Page.last, hlast]
    exact pairwise_last h.items_sorted hlast hk

theorem marker_le_last (h : p.Right n) : p.marker ≤ p.last := by
  cases hlast : p.items.getLast? with
  | none =>
    rw [Page.last, hlast]
    exact le_refl _
  | some last =>
    rw [Page.last, hlast]
    exact le_of_lt (h.mem_keys (List.mem_of_getLast? hlast)).2

theorem mem_items (h : p.Right n) (hk : k ∈ p.keys) (hm : p.marker < k) (hl : k ≤ p.last) :
    k ∈ p.items := by
  cases hlast : p.items.getLast? with
  | none =>
    rw [Page.last, hlast] at hl
    exact absurd hm (not_lt.mpr hl)
  | some last =>
    rw [Page.last, hlast] at hl
    have hmem : last ∈ p.items := List.mem_of_getLast? hlast
    have hafter : k ∈ after p.marker p.keys := mem_after.mpr ⟨hk, hm⟩
    rw [← List.take_append_drop n (after p.marker p.keys), List.mem_append, ← h.items] at hafter
    rcases hafter with hafter | hafter
    · exact hafter
    · have hsorted : (after p.marker p.keys).Pairwise (· < ·) := h.sorted.filter _
      rw [← List.take_append_drop n (after p.marker p.keys), ← h.items] at hsorted
      have hlt : last < k := (List.pairwise_append.mp hsorted).2.2 last hmem k hafter
      exact absurd hlt (not_lt.mpr hl)

theorem mem_of_not_truncated (h : p.Right n) (ht : p.truncated = false) (hk : k ∈ p.keys)
    (hm : p.marker < k) : k ∈ p.items := by
  refine h.mem_items hk hm (not_lt.mp fun hl => ?_)
  rw [h.truncated.mpr ⟨k, hk, hl⟩] at ht
  cases ht

end Page.Right

theorem Page.right_of_take (hs : p.keys.Pairwise (· < ·))
    (hi : p.items = (after p.marker p.keys).take n)
    (ht : p.truncated = true ↔ n < (after p.marker p.keys).length) : p.Right n := by
  refine ⟨hs, hi, ht.trans ?_⟩
  have hafter : (after p.marker p.keys).Pairwise (· < ·) := hs.filter _
  rw [← List.take_append_drop n (after p.marker p.keys), ← hi, List.pairwise_append] at hafter
  constructor
  · intro hlt
    -- The first key that is left.
    have hleft : (after p.marker p.keys)[n] ∈ (after p.marker p.keys).drop n := by
      rw [List.drop_eq_getElem_cons hlt]
      exact List.mem_cons_self
    have hkey := mem_after.mp (List.getElem_mem hlt)
    refine ⟨_, hkey.1, ?_⟩
    unfold Page.last
    cases hlast : p.items.getLast? with
    | none => exact hkey.2
    | some last => exact hafter.2.2 last (List.mem_of_getLast? hlast) _ hleft
  · rintro ⟨k, hk, hlt⟩
    by_contra hn
    rw [List.take_of_length_le (Nat.le_of_not_lt hn)] at hi
    unfold Page.last at hlt
    cases hlast : p.items.getLast? with
    | none =>
      rw [hlast] at hlt
      have hmem : k ∈ p.items := hi ▸ mem_after.mpr ⟨hk, hlt⟩
      rw [List.getLast?_eq_none_iff.mp hlast] at hmem
      cases hmem
    | some last =>
      rw [hlast] at hlt
      have hm : p.marker < last := (mem_after.mp (hi ▸ List.mem_of_getLast? hlast)).2
      have hmem : k ∈ p.items := hi ▸ mem_after.mpr ⟨hk, lt_trans hm hlt⟩
      exact absurd hlt (not_lt.mpr (pairwise_last hafter.1 hlast hmem))

/-! ## A chain of pages -/

theorem Chain.marker_lt {ps : List (Page K)} (hc : Chain marker ps)
    (hps : ∀ p ∈ ps, p.Right n) : ∀ k ∈ ps.flatMap Page.items, marker < k := by
  induction ps generalizing marker with
  | nil => simp
  | cons p ps ih =>
    obtain ⟨rfl, -, hc⟩ := hc
    obtain ⟨hp, hps⟩ := List.forall_mem_cons.mp hps
    intro k hk
    rw [List.flatMap_cons, List.mem_append] at hk
    rcases hk with hk | hk
    · exact (hp.mem_keys hk).2
    · exact lt_of_le_of_lt hp.marker_le_last (ih hc hps k hk)

theorem Chain.increasing {ps : List (Page K)} (hc : Chain marker ps)
    (hps : ∀ p ∈ ps, p.Right n) : (ps.flatMap Page.items).Pairwise (· < ·) := by
  induction ps generalizing marker with
  | nil => simp
  | cons p ps ih =>
    obtain ⟨rfl, -, hc⟩ := hc
    obtain ⟨hp, hps⟩ := List.forall_mem_cons.mp hps
    rw [List.flatMap_cons, List.pairwise_append]
    exact ⟨hp.items_sorted, ih hc hps,
      fun k hk k' hk' => lt_of_le_of_lt (hp.le_last hk) (hc.marker_lt hps k' hk')⟩

theorem Chain.complete {ps : List (Page K)} (hc : Chain marker ps) (hps : ∀ p ∈ ps, p.Right n)
    (hdone : ∃ p, ps.getLast? = some p ∧ p.truncated = false) (hm : marker < k)
    (hk : ∀ p ∈ ps, k ∈ p.keys) : k ∈ ps.flatMap Page.items := by
  induction ps generalizing marker with
  | nil =>
    obtain ⟨p, hp, -⟩ := hdone
    cases hp
  | cons p ps ih =>
    obtain ⟨rfl, htrunc, hc⟩ := hc
    obtain ⟨hp, hps⟩ := List.forall_mem_cons.mp hps
    obtain ⟨hkp, hkps⟩ := List.forall_mem_cons.mp hk
    rw [List.flatMap_cons, List.mem_append]
    -- Either this page goes up to the key, or the pages after it list the key.
    rcases le_or_gt k p.last with hle | hlt
    · exact Or.inl (hp.mem_items hkp hm hle)
    · cases ps with
      | nil =>
        obtain ⟨q, hq, ht⟩ := hdone
        cases hq
        exact Or.inl (hp.mem_of_not_truncated ht hkp hm)
      | cons q ps =>
        rw [List.getLast?_cons_cons] at hdone
        exact Or.inr (ih hc hps hdone hlt hkps)

theorem Chain.paged {ps : List (Page K)} (hc : Chain marker ps) (hps : ∀ p ∈ ps, p.Right n)
    (hm : ∀ p ∈ ps, ∀ k ∈ p.keys, marker < k) : Paged n ps where
  increasing := hc.increasing hps
  present := fun p hp k hk => ((hps p hp).mem_keys hk).1
  bounded := by
    intro p hp
    rw [(hps p hp).items, List.length_take]
    exact Nat.min_le_left _ _
  truncated := fun p hp => (hps p hp).truncated
  complete := by
    intro hdone k hk
    obtain ⟨p, hp, ht⟩ := hdone
    have hmem : p ∈ ps := List.mem_of_getLast? hp
    exact hc.complete hps ⟨p, hp, ht⟩ (hm p hmem k (hk p hmem)) hk

end paging
