-- The groups as the nodes see them: who is a member, and which keys the members hold.
import Memo.Sealing

namespace memo

section

variable {K S H : Type} {dht : Dht K S H} {key : K}

/-- The node is a member of a group. -/
def is_member (dht : Dht K S H) (key : K) : Bool :=
  match dht.group key with
  | .ok g => g.group_keys.toBool
  | .error _ => false

/-- A group has a key, and its members hold all of its keys. -/
def Keyed (dht : Dht K S H) : Prop :=
  ∀ key g, dht.group key = .ok g → g.public_keys ≠ [] ∧
    ∀ keys, g.group_keys = .ok keys → keys = g.public_keys

/-- A node sees the groups that another one saw, with their keys and perhaps newer ones. -/
def SeenBy (dht dht' : Dht K S H) : Prop :=
  ∀ key g, dht.group key = .ok g →
    ∃ g', dht'.group key = .ok g' ∧ g.public_keys <+: g'.public_keys

theorem is_member_iff : is_member dht key = true ↔
    ∃ g keys, dht.group key = .ok g ∧ g.group_keys = .ok keys := by
  unfold is_member
  cases dht.group key with
  | error what => simp
  | ok g => cases hk : g.group_keys <;> simp [Except.toBool, hk]

theorem isSome_last {α : Type} {l : List α} (h : l ≠ []) : l.getLast?.isSome = true := by
  rw [List.getLast?_eq_some_getLast h]
  rfl

theorem current_key_member (h : Keyed dht) {g : Group K} (hg : dht.group key = .ok g) :
    g.current_key = .ok (if is_member dht key then g.public_keys.getLast? else none) := by
  obtain ⟨hne, hkeyed⟩ := h key g hg
  unfold Group.current_key is_member
  rw [hg]
  cases hk : g.group_keys with
  | error what => simp [Except.toBool, hk]
  | ok keys =>
    rw [hkeyed keys hk]
    obtain ⟨last, hlast⟩ := Option.isSome_iff_exists.mp (isSome_last hne)
    simp [Except.toBool, hk, back, hlast, Except.map]

end

end memo
