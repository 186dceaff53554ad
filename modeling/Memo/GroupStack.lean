-- The groups that a thread has opened. Each pushes its key on the stack of the thread, when it is
-- constructed with a key or when it finds its key, and pops it when it is destroyed.
import Memo.Runs

open runs

namespace memo.group_stack

variable {K : Type}

/-! ## The code -/

/-- A `Group`. `pushed` says that its key was put on the stack, which no function reads. -/
structure Group (K : Type) where
  _public_control_key : Option K
  pushed : Bool
deriving DecidableEq

/-- A thread: `Group::_stack`, with its back first, and the groups that exist, the last that was
constructed first. `broken` says that `back()` was called on an empty stack. -/
structure Thread (K : Type) where
  _stack : List K
  groups : List (Group K)
  broken : Bool
deriving DecidableEq

inductive Action (K : Type) where
  /-- `Group::Group`, with a name or with a key. -/
  | named
  | keyed (k : K)
  /-- `Group::public_control_key`, and the key that `fetch` finds if it is called. -/
  | public_control_key (i : Nat) (found : Option K)
  /-- `Group::~Group` of the last group. -/
  | destroy
deriving DecidableEq

namespace Thread

def start (base : List K) : Thread K := ⟨base, [], false⟩

/-- `Group::Group` with a key. When `_stack_push` throws, there is no group. -/
def keyed [DecidableEq K] (k : K) (s : Thread K) : Thread K :=
  if k ∈ s._stack then s
  else { s with _stack := k :: s._stack, groups := ⟨some k, true⟩ :: s.groups }

/-- The key of a group is recorded, and `_stack_push` called, which may throw. -/
def resolve [DecidableEq K] (i : Nat) (k : K) (s : Thread K) : Thread K :=
  if k ∈ s._stack then
    -- `Group loop`
    { s with groups := s.groups.set i ⟨some k, false⟩ }
  else
    { s with _stack := k :: s._stack, groups := s.groups.set i ⟨some k, true⟩ }

/-- `Group::~Group`. -/
def destroyed [DecidableEq K] (g : Group K) (s : Thread K) : Thread K :=
  match g._public_control_key with
  | none => s
  | some k =>
    match s._stack with
    | [] => { s with broken := true }
    | back :: stack => if back = k then { s with _stack := stack } else s

def step [DecidableEq K] (s : Thread K) : Action K → Option (Thread K)
  | .named => some { s with groups := ⟨none, false⟩ :: s.groups }
  | .keyed k => some (s.keyed k)
  | .public_control_key i found =>
    match s.groups[i]? with
    | none => none
    | some g =>
      match g._public_control_key, found with
      | some _, _ => some s
      | none, none => some s
      | none, some k => some (s.resolve i k)
  | .destroy =>
    match s.groups with
    | [] => none
    | g :: groups => some ({ s with groups }.destroyed g)

/-! ## Balance -/

/-- The keys that the groups have pushed, in the order of their construction. -/
def keys (groups : List (Group K)) : List K :=
  (groups.filter Group.pushed).filterMap Group._public_control_key

/-- The stack has the keys of the groups, over those that were there before. -/
structure Balanced (base : List K) (s : Thread K) : Prop where
  stack : s._stack = keys s.groups ++ base
  keyed : ∀ g ∈ s.groups, g.pushed → g._public_control_key.isSome
  broken : s.broken = false

/-- A group that pushes its key has none after it that did, and one that could not push its key is
not destroyed with this key on the back of the stack, or with no stack. -/
def Orderly (s : Thread K) : Action K → Prop
  | .named | .keyed _ => True
  | .public_control_key i found =>
    (∃ g, s.groups[i]? = some g ∧ g._public_control_key = none) →
      (∃ k, found = some k ∧ k ∉ s._stack) → ∀ g ∈ s.groups.take i, g.pushed = false
  | .destroy => ∀ g k, s.groups.head? = some g → g.pushed = false →
      g._public_control_key = some k → s._stack ≠ [] ∧ s._stack.head? ≠ some k

variable {s s' : Thread K} {base : List K} {a : Action K} {as : List (Action K)} {k : K} {i : Nat}
  {g : Group K} {groups : List (Group K)}

@[simp] theorem keys_nil : keys ([] : List (Group K)) = [] := rfl

theorem keys_append (l l' : List (Group K)) : keys (l ++ l') = keys l ++ keys l' := by
  simp [keys]

@[simp] theorem keys_pushed : keys (⟨some k, true⟩ :: groups) = k :: keys groups := rfl

theorem keys_unpushed (h : g.pushed = false) : keys (g :: groups) = keys groups := by
  simp [keys, h]

theorem keys_eq_nil (h : ∀ g ∈ groups, g.pushed = false) : keys groups = [] := by
  induction groups with
  | nil => rfl
  | cons g groups ih =>
    rw [keys_unpushed (h g List.mem_cons_self)]
    exact ih fun g hg => h g (List.mem_cons_of_mem _ hg)

theorem set_eq (h : s.groups[i]? = some g) (g' : Group K) :
    s.groups.set i g' = s.groups.take i ++ g' :: s.groups.drop (i + 1) := by
  obtain ⟨hi, -⟩ := List.getElem?_eq_some_iff.mp h
  exact List.set_eq_take_append_cons_drop.trans (if_pos hi)

theorem groups_eq (h : s.groups[i]? = some g) :
    s.groups = s.groups.take i ++ g :: s.groups.drop (i + 1) := by
  obtain ⟨hi, rfl⟩ := List.getElem?_eq_some_iff.mp h
  rw [List.getElem_cons_drop, List.take_append_drop]

theorem balanced_start (base : List K) : (start base).Balanced base := ⟨rfl, by simp [start], rfl⟩

variable [DecidableEq K]

theorem Balanced.resolve (h : s.Balanced base) (hi : s.groups[i]? = some g)
    (hg : g._public_control_key = none) :
    (s.resolve i k).Balanced base ↔
      (k ∉ s._stack → ∀ g ∈ s.groups.take i, g.pushed = false) := by
  have hunpushed : g.pushed = false := by
    by_contra hpushed
    have hsome := h.keyed g (List.mem_of_getElem? hi) (by simpa using hpushed)
    rw [hg] at hsome
    cases hsome
  have hkeyed : ∀ g' : Group K, g'._public_control_key = some k →
      ∀ g ∈ s.groups.set i g', g.pushed → g._public_control_key.isSome := by
    intro g' hg' g₁ hmem hpushed
    rcases List.mem_or_eq_of_mem_set hmem with hold | rfl
    · exact h.keyed g₁ hold hpushed
    · rw [hg']
      rfl
  have hstack := h.stack
  rw [groups_eq hi, keys_append, keys_unpushed hunpushed] at hstack
  unfold Thread.resolve
  split_ifs with hk
  · simp only [hk, not_true_eq_false, false_implies, iff_true]
    refine ⟨?_, hkeyed _ rfl, h.broken⟩
    rw [set_eq hi, keys_append, keys_unpushed rfl]
    exact hstack
  · simp only [hk, not_false_eq_true, forall_const]
    constructor
    · intro hbalanced
      have hnew := hbalanced.stack
      dsimp only at hnew
      rw [set_eq hi, keys_append, keys_pushed] at hnew
      cases htake : keys (s.groups.take i) with
      | nil =>
        intro g₁ hmem
        by_contra hpushed
        have hsome := h.keyed g₁ (List.mem_of_mem_take hmem) (by simpa using hpushed)
        obtain ⟨k₁, hk₁⟩ := Option.isSome_iff_exists.mp hsome
        have hin : k₁ ∈ keys (s.groups.take i) := by
          unfold keys
          rw [List.mem_filterMap]
          exact ⟨g₁, List.mem_filter.mpr ⟨hmem, by simpa using hpushed⟩, hk₁⟩
        rw [htake] at hin
        cases hin
      | cons k₁ rest =>
        -- the key would be that of a group that was constructed later
        rw [htake] at hnew hstack
        have heq : k = k₁ := (List.cons.inj hnew).1
        exact absurd (hstack ▸ heq ▸ List.mem_cons_self) hk
    · intro hlater
      refine ⟨?_, hkeyed _ rfl, h.broken⟩
      dsimp only
      rw [set_eq hi, keys_append, keys_pushed, keys_eq_nil hlater]
      rw [keys_eq_nil hlater] at hstack
      rw [hstack]
      rfl

theorem Balanced.destroyed (h : s.Balanced base) (hs : s.groups = g :: groups) :
    (Thread.destroyed g { s with groups }).Balanced base ↔
      (∀ k, g.pushed = false → g._public_control_key = some k →
        s._stack ≠ [] ∧ s._stack.head? ≠ some k) := by
  have hkeyed : ∀ g' ∈ groups, g'.pushed → g'._public_control_key.isSome := fun g' hg' =>
    h.keyed g' (hs ▸ List.mem_cons_of_mem _ hg')
  have hstack := h.stack
  rw [hs] at hstack
  obtain ⟨key, pushed⟩ := g
  unfold Thread.destroyed
  cases key with
  | none =>
    have hpushed : pushed = false := by
      by_contra hpushed
      have hsome := h.keyed _ (hs ▸ List.mem_cons_self) (by simpa using hpushed)
      cases hsome
    subst hpushed
    rw [keys_unpushed rfl] at hstack
    simp only [reduceCtorEq, false_implies, implies_true, iff_true]
    exact ⟨hstack, hkeyed, h.broken⟩
  | some k =>
    cases pushed with
    | true =>
      rw [keys_pushed, List.cons_append] at hstack
      simp only [hstack, if_true, Bool.true_eq_false, false_implies, implies_true, iff_true]
      exact ⟨rfl, hkeyed, h.broken⟩
    | false =>
      rw [keys_unpushed rfl] at hstack
      simp only [forall_const, Option.some.injEq, forall_eq']
      cases hback : s._stack with
      | nil =>
        simp only [ne_eq, not_true_eq_false, false_and, iff_false]
        intro hbalanced
        cases hbalanced.broken
      | cons back stack =>
        simp only [ne_eq, reduceCtorEq, not_false_eq_true, List.head?_cons, Option.some.injEq,
          true_and]
        rw [hback] at hstack
        split_ifs with heq
        · simp only [heq, not_true_eq_false, iff_false]
          intro hbalanced
          have hlength := congrArg List.length (hstack.trans hbalanced.stack.symm)
          simp at hlength
        · simp only [heq, not_false_eq_true, iff_true]
          exact ⟨hback ▸ hstack, hkeyed, h.broken⟩

theorem Balanced.step_iff (h : s.Balanced base) (hs : s.step a = some s') :
    s'.Balanced base ↔ s.Orderly a := by
  cases a with
  | named =>
    obtain rfl := Option.some.inj hs
    simp only [Orderly, iff_true]
    refine ⟨?_, ?_, h.broken⟩
    · rw [keys_unpushed rfl]
      exact h.stack
    · intro g hg hpushed
      rcases List.mem_cons.mp hg with rfl | hg
      · cases hpushed
      · exact h.keyed g hg hpushed
  | keyed k =>
    obtain rfl := Option.some.inj hs
    simp only [Orderly, iff_true]
    unfold Thread.keyed
    split_ifs with hk
    · exact h
    · refine ⟨?_, ?_, h.broken⟩
      · rw [keys_pushed, h.stack]
        rfl
      · intro g hg hpushed
        rcases List.mem_cons.mp hg with rfl | hg
        · rfl
        · exact h.keyed g hg hpushed
  | public_control_key i found =>
    unfold step at hs
    dsimp only at hs
    cases hi : s.groups[i]? with
    | none =>
      rw [hi] at hs
      cases hs
    | some g =>
      rw [hi] at hs
      dsimp only at hs
      unfold Orderly
      cases hg : g._public_control_key with
      | some k =>
        rw [hg] at hs
        obtain rfl := Option.some.inj hs
        simp [hi, hg, h]
      | none =>
        rw [hg] at hs
        cases found with
        | none =>
          obtain rfl := Option.some.inj hs
          simp [h]
        | some k =>
          obtain rfl := Option.some.inj hs
          rw [h.resolve hi hg]
          simp [hi, hg]
  | destroy =>
    unfold step at hs
    dsimp only at hs
    cases hgroups : s.groups with
    | nil =>
      rw [hgroups] at hs
      cases hs
    | cons g groups =>
      rw [hgroups] at hs
      obtain rfl := Option.some.inj hs
      rw [h.destroyed hgroups]
      unfold Orderly
      rw [hgroups]
      constructor
      · rintro hall g' k hg'
        obtain rfl := Option.some.inj hg'
        exact hall k
      · exact fun hall k => hall g k rfl

/-- Once the groups of a run whose steps are in order are destroyed, the stack is what it was, and
it never was empty when a group looked at its back. -/
theorem the_stack_is_restored (base : List K) (h : Run step Orderly (start base) as s) :
    s.broken = false ∧ (s.groups = [] → s._stack = base) := by
  have hbalanced : s.Balanced base := h.invariant (balanced_start base)
    fun s a s' hs hok hstep => (hs.step_iff hstep).mpr hok
  refine ⟨hbalanced.broken, fun hnone => ?_⟩
  rw [hbalanced.stack, hnone]
  rfl

/-- A group finds its key, and one with a key is in it. -/
theorem two_groups_are_restored : ∃ s : Thread Nat, Run step Orderly (start [])
    [.named, .public_control_key 0 (some 1), .keyed 2, .destroy, .destroy] s ∧
      s.broken = false ∧ (s.groups = [] → s._stack = []) := by
  have hrun : Run step Orderly (start [])
      [.named, .public_control_key 0 (some 1), .keyed 2, .destroy, .destroy] (start []) := by
    refine Run.cons trivial rfl (Run.cons ?_ rfl (Run.cons trivial rfl (Run.cons ?_ rfl
      (Run.cons ?_ rfl Run.nil))))
    · intro _ _ g hg
      cases hg
    · rintro g k hg hpushed -
      obtain rfl := Option.some.inj hg
      cases hpushed
    · rintro g k hg hpushed -
      obtain rfl := Option.some.inj hg
      cases hpushed
  exact ⟨_, hrun, the_stack_is_restored [] hrun⟩

/-- Two groups find their keys, the last one first. And a group finds a key that the thread has
opened before. -/
theorem a_key_is_left :
    (∃ s : Thread Nat, Run step anyStep (start []) [.named, .named,
      .public_control_key 0 (some 2), .public_control_key 1 (some 1), .destroy, .destroy] s ∧
        s.groups = [] ∧ s._stack = [2]) ∧
      ∃ s : Thread Nat, Run step anyStep (start [])
        [.keyed 2, .named, .public_control_key 0 (some 2), .destroy, .destroy] s ∧
          s.broken = true :=
  ⟨⟨_, Run.of_exec rfl, by decide⟩, ⟨_, Run.of_exec rfl, by decide⟩⟩

end Thread

end memo.group_stack
