-- The order of the operations on an address: those that were sent and those that are pending stay
-- in the order in which they were pushed, unless one is squashed into an operation that another
-- one on the same address follows.
import Memo.AsyncKept

open stores runs

namespace memo.consensus

variable {A B D R S : Type} [DecidableEq A] {env : Blocks A B D R S}
  {op : Op A B R S} {ops : List (Op A B R S)} {a : A} {tags : List (Int × A × List Nat)}

/-! ## What the operations on an address stand for -/

/-- The newest pushes of what is tagged with an address. -/
def newest_at (a : A) (tags : List (Int × A × List Nat)) : List Nat :=
  (tags.filter fun t => t.2.1 = a).map fun t => t.2.2.getLast?.getD 0

/-- The pushes that the operations on an address stand for, each by its newest. -/
def newest_on (a : A) (ops : List (Op A B R S)) : List Nat :=
  (ops.filter fun op => op.address = a).map Op.newest

theorem newest_on_eq (a : A) (ops : List (Op A B R S)) :
    newest_on a ops = newest_at a (ops.map Op.tag) := by
  rw [newest_on, newest_at, List.filter_map, List.map_map]
  rfl

@[simp] theorem newest_at_append (tags tags' : List (Int × A × List Nat)) :
    newest_at a (tags ++ tags') = newest_at a tags ++ newest_at a tags' := by
  simp [newest_at]

theorem newest_at_cons (t : Int × A × List Nat) :
    newest_at a (t :: tags) =
      if t.2.1 = a then t.2.2.getLast?.getD 0 :: newest_at a tags else newest_at a tags := by
  by_cases ht : t.2.1 = a <;> simp [newest_at, ht]

@[simp] theorem newest_at_nil : newest_at a [] = [] := rfl

theorem newest_at_eq_nil (h : ∀ o ∈ ops, o.address ≠ a) : newest_at a (ops.map Op.tag) = [] := by
  rw [← newest_on_eq]
  simpa [newest_on] using h

theorem mem_newest_on {n : Nat} :
    n ∈ newest_on a ops ↔ ∃ o ∈ ops, o.address = a ∧ o.newest = n := by
  simp [newest_on, and_assoc]

namespace Async

variable {s s' : Async A B R S}

/-- What was sent for an address, and what will be. -/
def line (s : Async A B R S) (a : A) : List Nat := newest_on a (s.sent ++ s.pending)

/-- The operations on each address are sent in the order of the pushes, the last push comes last,
and what is sent is what was pushed. -/
structure InOrder (env : Blocks A B D R S) (s : Async A B R S) : Prop where
  order : ∀ a, (s.line a).Pairwise (· ≤ ·)
  last : ∀ a, (s.line a).getLast? = (newest_on a s.pushed).getLast?
  carried : ∀ op ∈ s.sent, Carries env s.pushed op

/-- A push that is squashed into a pending operation which another one on its address follows. -/
def Overtakes [Inhabited S] (env : Blocks A B D R S) (s : Async A B R S) : Action A B R S → Prop
  | .store block mode resolver =>
    match squash env s (stored env block mode resolver) with
    | some (cop, order) =>
      order.first = true ∧ ∃ o ∈ s.pending, o.address = env.address block ∧ cop.index < o.index
    | none => False
  | _ => False

theorem line_eq (s : Async A B R S) (a : A) :
    s.line a = newest_at a (s.sent.map Op.tag) ++ newest_at a (s.pending.map Op.tag) := by
  rw [line, newest_on_eq, List.map_append, newest_at_append]

theorem Steady.line_lt (h : Steady env s) {n : Nat} (hn : n ∈ s.line a) : n < s.pushed.length := by
  obtain ⟨o, ho, -, rfl⟩ := mem_newest_on.mp hn
  rcases List.mem_append.mp ho with ho | ho
  · exact (h.kept.sent o ho).newest_lt
  · exact h.kept.known o (pending_eq s ▸ ho)

theorem line_pushed (hpushed : s'.pushed = s.pushed ++ [s.numbered op]) :
    (newest_on a s'.pushed).getLast? =
      if op.address = a then some s.pushed.length else (newest_on a s.pushed).getLast? := by
  rw [hpushed, newest_on_eq, List.map_append, newest_at_append, List.map_singleton, newest_at_cons,
    newest_on_eq]
  split_ifs with h1 h2 h2
  · simp [numbered, Op.tag]
  · exact absurd h1 h2
  · exact absurd h2 h1
  · simp

theorem ordered_append {l : List Nat} {n : Nat} (h : l.Pairwise (· ≤ ·)) (hn : ∀ m ∈ l, m < n) :
    (l ++ [n]).Pairwise (· ≤ ·) := by
  rw [List.pairwise_append]
  refine ⟨h, List.pairwise_singleton _ _, fun m hm k hk => ?_⟩
  rw [List.mem_singleton.mp hk]
  exact (hn m hm).le

theorem ordered_twice {l r : List Nat} {n : Nat} :
    (l ++ [n] ++ n :: r).Pairwise (· ≤ ·) ↔ (l ++ n :: r).Pairwise (· ≤ ·) := by
  simp only [List.append_assoc, List.singleton_append, List.pairwise_append, List.pairwise_cons,
    List.mem_cons]
  grind

theorem last_twice {l r : List Nat} {n : Nat} :
    (l ++ [n] ++ n :: r).getLast? = (l ++ n :: r).getLast? := by
  simp

theorem last_once {l r : List Nat} {n : Nat} :
    (l ++ [n] ++ n :: r).getLast? = (l ++ [n] ++ r).getLast? := by
  cases r <;> simp

/-- The order of what was sent and of what is pending. -/
def Lined (s : Async A B R S) : Prop :=
  ∀ a, (s.line a).Pairwise (· ≤ ·) ∧ (s.line a).getLast? = (newest_on a s.pushed).getLast?

theorem Lined.push (h : Steady env s) (hlined : Lined s)
    (hpushed : s'.pushed = s.pushed ++ [s.numbered op])
    (hline : ∀ a, ∃ l, l.Sublist (s.line a) ∧
      s'.line a = if op.address = a then l ++ [s.pushed.length] else s.line a) : Lined s' := by
  intro a
  obtain ⟨hordered, hlast⟩ := hlined a
  obtain ⟨l, hsub, hline⟩ := hline a
  rw [line_pushed hpushed, hline]
  split_ifs with ha
  · refine ⟨ordered_append (hordered.sublist hsub) fun m hm => h.line_lt (hsub.subset hm), ?_⟩
    exact List.getLast?_concat
  · exact ⟨hordered, hlast⟩

theorem Lined.pushes (h : Steady env s) (hlined : Lined s) (hp : Pushes env s s' op)
    (hbehind : ∀ cop order, squash env s op = some (cop, order) → order.first = true →
      ∀ o ∈ s.pending, o.address = op.address → o.index ≤ cop.index) : Lined s' := by
  apply hlined.push h hp.pushed
  intro a
  have hline := line_eq s' a
  rw [hp.sent] at hline
  rcases hp.tags with ⟨-, htags⟩ | ⟨cop, order, before, after, hsquash, haddress, hsplit, -, htags⟩
  · rw [htags, newest_at_append, ← List.append_assoc, ← line_eq, newest_at_cons] at hline
    refine ⟨s.line a, List.Sublist.refl _, ?_⟩
    rw [hline]
    split_ifs with ha <;> simp
  · have hold := line_eq s a
    rw [pending_eq, hsplit, List.append_assoc, List.map_append, List.cons_append, List.map_cons,
      newest_at_append, newest_at_cons] at hold
    change _ = _ ++ (_ ++ if cop.address = a then _ else _) at hold
    rw [haddress] at hold
    refine ⟨newest_at a (s.sent.map Op.tag) ++ (newest_at a (before.map Op.tag) ++
      newest_at a ((after ++ s.later).map Op.tag)), ?_, ?_⟩
    · rw [hold]
      refine (List.Sublist.refl _).append ((List.Sublist.refl _).append ?_)
      split_ifs
      · exact List.sublist_cons_self _ _
      · exact List.Sublist.refl _
    · rcases htags with ⟨horder, htags⟩ | ⟨-, htags⟩
      · rw [htags, newest_at_append, newest_at_cons] at hline
        rw [hline]
        split_ifs with ha
        · -- nothing on the address comes after
          have hnone : newest_at a ((after ++ s.later).map Op.tag) = [] := by
            apply newest_at_eq_nil
            intro o ho hoa
            have hmem : o ∈ s.pending := by
              rw [pending_eq, hsplit]
              simp only [List.mem_append, List.mem_cons] at ho ⊢
              tauto
            have hle := hbehind cop order hsquash horder o hmem (hoa.trans ha.symm)
            have hascending := h.kept.ascending
            rw [hsplit, List.append_assoc, List.map_append, List.pairwise_append, List.cons_append,
              List.map_cons, List.pairwise_cons] at hascending
            have hlt := hascending.2.1.1 o.index (List.mem_map_of_mem ho)
            omega
          rw [hnone]
          simp
        · rw [hold, if_neg ha]
      · rw [htags, newest_at_append, List.map_append, newest_at_append, newest_at_cons] at hline
        rw [hline]
        split_ifs with ha
        · simp
        · rw [hold, if_neg ha]
          simp

theorem Lined.change [Inhabited S] (h : Steady env s) (hlined : Lined s) {act : Action A B R S}
    (hc : Change env s s' act) (hnot : ¬Overtakes env s act) : Lined s' := by
  cases hc with
  | store hp =>
    apply hlined.pushes h hp
    intro cop order hsquash horder o ho haddress
    simp only [Overtakes, hsquash, not_and, not_exists] at hnot
    exact not_lt.mp (hnot horder o ho haddress)
  | remove hp =>
    apply hlined.pushes h hp
    intro cop order hsquash
    rw [squash_none rfl] at hsquash
    cases hsquash
  | still htags hpushed hsent =>
    intro a
    rw [line_eq, htags, hsent, ← line_eq, hpushed]
    exact hlined a
  | sends op htags hpushed hsent hdone hexecuting hfirst =>
    intro a
    have hline := line_eq s' a
    obtain ⟨rest, hrest⟩ := List.head?_eq_some_iff.mp hfirst
    have hold := line_eq s a
    rw [hrest, newest_at_cons] at hold
    rw [htags, hsent, List.map_append, newest_at_append, hrest, List.map_singleton,
      newest_at_cons, newest_at_cons, newest_at_nil] at hline
    obtain ⟨hordered, hlast⟩ := hlined a
    rw [hold] at hordered hlast
    rw [hline, hpushed, ← hlast]
    split_ifs at hordered ⊢
    · exact ⟨ordered_twice.mpr hordered, last_twice⟩
    · rw [List.append_nil]
      exact ⟨hordered, rfl⟩
  | ends op htags hpushed hsent hsentlast =>
    intro a
    obtain ⟨sent, hop⟩ := List.getLast?_eq_some_iff.mp hsentlast
    have hline := line_eq s' a
    have hold := line_eq s a
    rw [htags, hop, List.map_append, newest_at_append, List.map_singleton, newest_at_cons,
      newest_at_cons, newest_at_nil] at hold
    rw [hsent, hop, List.map_append, newest_at_append, List.map_singleton, newest_at_cons,
      newest_at_nil] at hline
    obtain ⟨hordered, hlast⟩ := hlined a
    rw [hold] at hordered hlast
    rw [hline, hpushed, ← hlast]
    split_ifs at hordered ⊢
    · exact ⟨hordered.sublist ((List.sublist_cons_self _ _).append_left _), last_once.symm⟩
    · exact ⟨hordered, rfl⟩

theorem Lined.in_order (h : Steady env s) (hlined : Lined s) : InOrder env s :=
  ⟨fun a => (hlined a).1, fun a => (hlined a).2, h.kept.sent⟩

theorem Labelled.ordered (h : Labelled ops) : (newest_on a ops).Pairwise (· ≤ ·) := by
  have hnewest : ops.map Op.newest = List.range ops.length := by
    apply List.ext_getElem
    · simp
    · intro k hk _
      rw [List.length_map] at hk
      have hop := h k ops[k] (List.getElem?_eq_getElem hk)
      simp [Op.newest, hop]
  have hsub : (newest_on a ops).Sublist (List.range ops.length) := by
    rw [← hnewest]
    exact List.filter_sublist.map _
  exact (List.pairwise_le_range).sublist hsub

variable [Inhabited S]

instance (s : Async A B R S) : (act : Action A B R S) → Decidable (Overtakes env s act)
  | .store block mode resolver =>
    match h : squash env s (stored env block mode resolver) with
    | some (cop, order) =>
      decidable_of_iff (order.first = true ∧
        ∃ o ∈ s.pending, o.address = env.address block ∧ cop.index < o.index)
        (by rw [Overtakes, h])
    | none => isFalse (by simp [Overtakes, h])
  | .remove _ _ | .room | .turn | .answer _ | .retry => isFalse id

end Async

end memo.consensus
