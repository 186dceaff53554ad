-- Registries of objects that come and go. The objects are in a pool and keep their
-- place in it. A registry lists the places of the objects that are to be in it, each
-- once: what a step does to an object says what it has to do to the registry.
import Mathlib.Data.List.Nodup

namespace registers

variable {C K : Type*} {p : C → Prop} {key : C → K} {I : C → Prop} {pool : List C}
variable {reg : List Nat} {f : C → C} {i j : Nat} {c : C}

/-- The place holds an object of which `p` holds. -/
def Holds (p : C → Prop) (pool : List C) (i : Nat) : Prop := ∃ c, pool[i]? = some c ∧ p c

/-- The registry lists the objects of which `p` holds. -/
structure Lists (p : C → Prop) (pool : List C) (reg : List Nat) : Prop where
  nodup : reg.Nodup
  mem_iff : ∀ i, i ∈ reg ↔ Holds p pool i

/-- Each object satisfies `I`. -/
def Each (I : C → Prop) (pool : List C) : Prop :=
  ∀ (i : Nat) (c : C), pool[i]? = some c → I c

/-- No two objects of which `p` holds have the same key. -/
def Apart (key : C → K) (p : C → Prop) (pool : List C) : Prop :=
  ∀ (i j : Nat) (c d : C), pool[i]? = some c → p c → pool[j]? = some d → p d → key c = key d → i = j

/-! ## One object of the pool -/

theorem of_modify {d : C} (h : (pool.modify i f)[j]? = some d) :
    ∃ c, pool[j]? = some c ∧ d = if i = j then f c else c := by
  rw [List.getElem?_modify] at h
  obtain ⟨c, hc, hd⟩ := Option.map_eq_some_iff.mp h
  exact ⟨c, hc, hd.symm⟩

theorem modify_self (h : pool[i]? = some c) : (pool.modify i f)[i]? = some (f c) := by
  rw [List.getElem?_modify_eq, h]
  rfl

theorem of_push {d : C} (h : (pool ++ [c])[j]? = some d) :
    pool[j]? = some d ∨ j = pool.length ∧ d = c := by
  rcases Nat.lt_trichotomy j pool.length with hlt | heq | hgt
  · rw [List.getElem?_append_left hlt] at h
    exact Or.inl h
  · rw [heq, List.getElem?_concat_length, Option.some.injEq] at h
    exact Or.inr ⟨heq, h.symm⟩
  · rw [List.getElem?_eq_none (by simp; omega)] at h
    cases h

theorem push_old {d : C} (h : pool[j]? = some d) : (pool ++ [c])[j]? = some d := by
  rw [List.getElem?_append_left (List.getElem?_eq_some_iff.mp h).1]
  exact h

theorem countP_modify {q : C → Bool}
    (h : pool[i]? = some c) :
    (pool.modify i f).countP q + (q c).toNat = pool.countP q + (q (f c)).toNat := by
  induction pool generalizing i with
  | nil => cases h
  | cons d pool ih =>
    cases i with
    | zero =>
      rw [List.getElem?_cons_zero, Option.some.injEq] at h
      subst h
      rw [List.modify_zero_cons, List.countP_cons, List.countP_cons]
      cases q d <;> cases q (f d) <;> simp
    | succ i =>
      rw [List.getElem?_cons_succ] at h
      have hrest := ih h
      rw [List.modify_succ_cons, List.countP_cons, List.countP_cons]
      omega

theorem holds_modify_ne (hij : i ≠ j) : Holds p (pool.modify i f) j ↔ Holds p pool j := by
  unfold Holds
  rw [List.getElem?_modify_ne _ _ hij]

theorem holds_modify_self : Holds p (pool.modify i f) i ↔ Holds (fun c => p (f c)) pool i := by
  constructor
  · rintro ⟨d, hd, hp⟩
    obtain ⟨c, hc, rfl⟩ := of_modify hd
    rw [if_pos rfl] at hp
    exact ⟨c, hc, hp⟩
  · rintro ⟨c, hc, hp⟩
    exact ⟨f c, modify_self hc, hp⟩

theorem holds_push : Holds p (pool ++ [c]) j ↔ Holds p pool j ∨ j = pool.length ∧ p c := by
  constructor
  · rintro ⟨d, hd, hp⟩
    rcases of_push hd with hd | ⟨hj, rfl⟩
    · exact Or.inl ⟨d, hd, hp⟩
    · exact Or.inr ⟨hj, hp⟩
  · rintro (⟨d, hd, hp⟩ | ⟨rfl, hp⟩)
    · exact ⟨d, push_old hd, hp⟩
    · exact ⟨c, List.getElem?_concat_length, hp⟩

/-! ## The registry -/

theorem Lists.nil : Lists p [] [] := by
  refine ⟨List.nodup_nil, fun i => ⟨fun h => absurd h List.not_mem_nil, ?_⟩⟩
  rintro ⟨c, hc, -⟩
  cases hc

theorem Lists.modify_same (h : Lists p pool reg)
    (hf : ∀ c, pool[i]? = some c → (p (f c) ↔ p c)) : Lists p (pool.modify i f) reg := by
  refine ⟨h.nodup, fun j => (h.mem_iff j).trans ?_⟩
  by_cases hij : i = j
  · subst hij
    rw [holds_modify_self]
    exact exists_congr fun c => and_congr_right fun hc => (hf c hc).symm
  · exact (holds_modify_ne hij).symm

theorem Lists.modify_erase (h : Lists p pool reg) (hf : ∀ c, pool[i]? = some c → ¬p (f c)) :
    Lists p (pool.modify i f) (reg.erase i) := by
  refine ⟨h.nodup.erase i, fun j => ?_⟩
  rw [h.nodup.mem_erase_iff, h.mem_iff]
  by_cases hij : i = j
  · subst hij
    rw [holds_modify_self]
    constructor
    · intro hin
      exact absurd rfl hin.1
    · rintro ⟨c, hc, hp⟩
      exact absurd hp (hf c hc)
  · rw [holds_modify_ne hij]
    exact and_iff_right (Ne.symm hij)

theorem Lists.modify_add (h : Lists p pool reg) (hc : pool[i]? = some c) (hout : ¬p c)
    (hin : p (f c)) : Lists p (pool.modify i f) (reg ++ [i]) := by
  have hi : i ∉ reg := by
    rw [h.mem_iff]
    rintro ⟨d, hd, hp⟩
    rw [hc, Option.some.injEq] at hd
    exact hout (hd ▸ hp)
  refine ⟨List.nodup_append.mpr ⟨h.nodup, List.nodup_singleton i, ?_⟩, fun j => ?_⟩
  · intro a ha b hb heq
    rw [List.mem_singleton] at hb
    exact hi (hb ▸ heq ▸ ha)
  · rw [List.mem_append, List.mem_singleton, h.mem_iff]
    by_cases hij : i = j
    · subst hij
      rw [holds_modify_self]
      exact iff_of_true (Or.inr rfl) ⟨c, hc, hin⟩
    · rw [holds_modify_ne hij]
      exact or_iff_left (Ne.symm hij)

theorem Lists.push_add (h : Lists p pool reg) (hc : p c) :
    Lists p (pool ++ [c]) (reg ++ [pool.length]) := by
  have hnew : pool.length ∉ reg := by
    rw [h.mem_iff]
    rintro ⟨d, hd, -⟩
    exact absurd (List.getElem?_eq_some_iff.mp hd).1 (Nat.lt_irrefl _)
  refine ⟨List.nodup_append.mpr ⟨h.nodup, List.nodup_singleton _, ?_⟩, fun j => ?_⟩
  · intro a ha b hb heq
    rw [List.mem_singleton] at hb
    exact hnew (hb ▸ heq ▸ ha)
  · rw [List.mem_append, List.mem_singleton, h.mem_iff, holds_push]
    exact or_congr_right (and_iff_left hc).symm

theorem Lists.push_out (h : Lists p pool reg) (hc : ¬p c) : Lists p (pool ++ [c]) reg := by
  refine ⟨h.nodup, fun j => (h.mem_iff j).trans ?_⟩
  rw [holds_push]
  exact (or_iff_left fun hnew => hc hnew.2).symm

/-! ## All objects -/

theorem Each.modify (h : Each I pool) (hf : ∀ c, pool[i]? = some c → I c → I (f c)) :
    Each I (pool.modify i f) := by
  intro j d hd
  obtain ⟨c, hc, rfl⟩ := of_modify hd
  split
  · rename_i hij
    subst hij
    exact hf c hc (h i c hc)
  · exact h j c hc

theorem Each.push (h : Each I pool) (hc : I c) : Each I (pool ++ [c]) := by
  intro j d hd
  rcases of_push hd with hd | ⟨-, rfl⟩
  · exact h j d hd
  · exact hc

theorem Apart.modify (h : Apart key p pool)
    (hf : ∀ c, pool[i]? = some c → p (f c) → p c ∧ key (f c) = key c) :
    Apart key p (pool.modify i f) := by
  have hback : ∀ {j : Nat} {d : C}, (pool.modify i f)[j]? = some d → p d →
      ∃ c : C, pool[j]? = some c ∧ p c ∧ key d = key c := by
    intro j d hd hp
    obtain ⟨c, hc, rfl⟩ := of_modify hd
    split at hp
    · rename_i hij
      subst hij
      rw [if_pos rfl]
      exact ⟨c, hc, hf c hc hp⟩
    · rename_i hij
      rw [if_neg hij]
      exact ⟨c, hc, hp, rfl⟩
  intro a b d e hd hpd he hpe hkey
  obtain ⟨c, hc, hpc, hkc⟩ := hback hd hpd
  obtain ⟨c', hc', hpc', hkc'⟩ := hback he hpe
  exact h a b c c' hc hpc hc' hpc' (hkc ▸ hkc' ▸ hkey)

theorem Apart.modify_add (h : Apart key p pool)
    (hnew : ∀ c, pool[i]? = some c → ∀ (j : Nat) (d : C), pool[j]? = some d → p d →
      key d ≠ key (f c)) :
    Apart key p (pool.modify i f) := by
  intro a b d e hd hpd he hpe hkey
  obtain ⟨c, hc, rfl⟩ := of_modify hd
  obtain ⟨c', hc', rfl⟩ := of_modify he
  by_cases ha : i = a
  · by_cases hb : i = b
    · exact ha.symm.trans hb
    · subst ha
      rw [if_neg hb] at hpe hkey
      rw [if_pos rfl] at hkey
      exact absurd hkey.symm (hnew c hc b c' hc' hpe)
  · rw [if_neg ha] at hpd hkey
    by_cases hb : i = b
    · subst hb
      rw [if_pos rfl] at hkey
      exact absurd hkey (hnew c' hc' a c hc hpd)
    · rw [if_neg hb] at hpe hkey
      exact h a b c c' hc hpd hc' hpe hkey

theorem Apart.push (h : Apart key p pool) (hc : ¬p c) : Apart key p (pool ++ [c]) := by
  intro a b d e hd hpd he hpe hkey
  rcases of_push hd with hd | ⟨-, rfl⟩
  · rcases of_push he with he | ⟨-, rfl⟩
    · exact h a b d e hd hpd he hpe hkey
    · exact absurd hpe hc
  · exact absurd hpd hc

end registers
