-- Walks along a partial function: from a start, the next element as long as
-- there is one. Over finitely many next elements a walk ends if and only if it
-- does not come back.
import Mathlib.Order.Preorder.Finite

namespace walks

variable {α : Type} (next : α → Option α)

/-- The element after `n` steps. -/
def walk : Nat → α → Option α
  | 0, a => some a
  | n + 1, a => (next a).bind (walk n)

/-- The walk comes to an element without a next one. -/
def Ends (a : α) : Prop := ∃ n, walk next n a = none

/-- The walk meets an element twice. -/
def ComesBack (a : α) : Prop :=
  ∃ i j b, i < j ∧ walk next i a = some b ∧ walk next j a = some b

variable {next} {a b : α}

theorem walk_succ (h : next a = some b) (n : Nat) : walk next (n + 1) a = walk next n b := by
  simp [walk, h]

theorem walk_add (m n : Nat) (a : α) :
    walk next (m + n) a = (walk next m a).bind (walk next n) := by
  induction m generalizing a with
  | zero => simp [walk]
  | succ m ih =>
    rw [Nat.succ_add]
    simp only [walk]
    cases next a with
    | none => rfl
    | some b => exact ih b

theorem walk_next (n : Nat) (a : α) : walk next (n + 1) a = (walk next n a).bind next := by
  rw [walk_add]
  congr 1
  funext b
  simp [walk]

theorem walk_none {m n : Nat} (h : walk next m a = none) (hle : m ≤ n) : walk next n a = none := by
  obtain ⟨k, rfl⟩ := Nat.exists_eq_add_of_le hle
  rw [walk_add, h]
  rfl

theorem walk_cycle {k : Nat} (h : walk next k b = some b) (m : Nat) :
    walk next (k * m) b = some b := by
  induction m with
  | zero => rfl
  | succ m ih =>
    rw [Nat.mul_succ, walk_add, ih]
    exact h

theorem not_ends_of_comesBack (h : ComesBack next a) : ¬ Ends next a := by
  obtain ⟨i, j, b, hlt, hi, hj⟩ := h
  rintro ⟨n, hn⟩
  have hcycle : walk next (j - i) b = some b := by
    have hsum : i + (j - i) = j := by omega
    rw [← hsum, walk_add, hi] at hj
    exact hj
  have hback : walk next (i + (j - i) * n) a = some b := by
    rw [walk_add, hi]
    exact walk_cycle hcycle n
  have hle : n ≤ i + (j - i) * n := by
    have : 1 * n ≤ (j - i) * n := Nat.mul_le_mul_right n (by omega)
    omega
  rw [walk_none hn hle] at hback
  cases hback

theorem ends_iff (hfinite : {b | ∃ a, next a = some b}.Finite) :
    Ends next a ↔ ¬ ComesBack next a := by
  refine ⟨fun he hb => not_ends_of_comesBack hb he, fun hb => ?_⟩
  by_contra hends
  apply hb
  have hsome : ∀ n, ∃ b, walk next n a = some b := by
    intro n
    cases h : walk next n a with
    | none => exact absurd ⟨n, h⟩ hends
    | some b => exact ⟨b, rfl⟩
  choose f hf using hsome
  have hrange : ∀ n, f (n + 1) ∈ {b | ∃ a, next a = some b} := by
    intro n
    have := hf (n + 1)
    rw [walk_next, hf n] at this
    exact ⟨f n, this⟩
  obtain ⟨i, j, hlt, heq⟩ := Set.Finite.exists_lt_map_eq_of_forall_mem hrange hfinite
  exact ⟨i + 1, j + 1, f (i + 1), by omega, hf (i + 1), by rw [hf (j + 1), heq]⟩

end walks
