-- The journal across a stop of the process: what the files hold between two changes, and what the
-- queue that starts with them has.
import Memo.AsyncKept

open stores runs

namespace memo.consensus

variable {A B D R S : Type}

namespace Async

/-! ## What a step does to the journal -/

/-- The changes of a push, in their order. -/
def fs_push [DecidableEq A] (env : Blocks A B D R S) (s : Async A B R S) (op : Op A B R S) :
    List (Fs A B R S) :=
  match squash env s op with
  | none => saved { s.numbered op with index := s._next_index + 1 }
  | some (cop, order) =>
    if order.first then saved (merged_first env cop (s.numbered op))
    else
      .remove cop.index ::
        saved { merged_last env cop (s.numbered op) with index := s._next_index + 1 }

/-- The changes of a step. -/
def fs_actions [DecidableEq A] [Inhabited S] (env : Blocks A B D R S) (s : Async A B R S) :
    Action A B R S → List (Fs A B R S)
  | .store block mode resolver => fs_push env s (stored env block mode resolver)
  | .remove address rs => fs_push env s (removal address rs)
  | .room | .turn => []
  | .answer ok =>
    match s.loop with
    | .calling op => if ok then [.remove op.index] else []
    | _ => []
  | .retry =>
    match s.loop with
    | .sleeping op => if (s._load_op env op.index).isSome then [] else [.remove op.index]
    | _ => []

variable {env : Blocks A B D R S} {s s' : Async A B R S} {op : Op A B R S}
  {t : Table Int (File A B R S)}

theorem queue_journal (h : queue env op s = some s') : s'._journal_dir = s._journal_dir := by
  rcases queue_cases h with ⟨f, -, rfl⟩ | ⟨-, -, -, rfl⟩ | ⟨-, -, rfl⟩ <;> rfl

theorem flush_journal (ops : List (Op A B R S)) :
    (flush env ops s)._journal_dir = s._journal_dir := by
  induction ops generalizing s with
  | nil => rfl
  | cons op ops ih =>
    rw [flush]
    cases hq : queue env op s with
    | none => rfl
    | some s' => exact ih.trans (queue_journal hq)

theorem enqueue_journal (h : enqueue env op s = some s') :
    s'._journal_dir = (written op s)._journal_dir := by
  rcases enqueue_cases h with ⟨-, -, rfl⟩ | ⟨-, hq⟩ | ⟨-, -, rfl⟩
  · rfl
  · exact queue_journal hq
  · rfl

theorem push_journal [DecidableEq A] (h : push env op s = some s') :
    s'._journal_dir = s._journal_dir.map fun t => (fs_push env s op).foldl Fs.run t := by
  have hnumbered : squash env { s with pushed := s.pushed ++ [s.numbered op] } (s.numbered op) =
      squash env s op := rfl
  rcases push_cases h with ⟨hsquash, h⟩ | ⟨cop, order, hsquash, horder, rfl⟩ |
    ⟨cop, order, hsquash, horder, h⟩
  · rw [hnumbered] at hsquash
    rw [fs_push, hsquash, enqueue_journal h]
    rfl
  · rw [hnumbered] at hsquash
    rw [fs_push, hsquash]
    simp only [horder, if_true]
    rfl
  · rw [hnumbered] at hsquash
    rw [fs_push, hsquash, enqueue_journal h]
    simp only [horder, Bool.false_eq_true, if_false, List.foldl_cons]
    change Option.map _ (Option.map _ _) = _
    rw [Option.map_map]
    rfl

theorem reload_rest [Inhabited S] (env : Blocks A B D R S) (l : List (Op A B R S))
    (s : Async A B R S) :
    ∃ ops queue first, reload env l s =
      { s with _operations := ops, _queue := queue, _first_disk_index := first } := by
  induction l generalizing s with
  | nil => exact ⟨_, _, _, rfl⟩
  | cons op l ih =>
    rw [reload]
    split_ifs
    · exact ⟨_, _, _, rfl⟩
    · split
      · exact ih s
      · obtain ⟨ops, queue, first, hreload⟩ := ih _
        exact ⟨ops, queue, first, hreload⟩

theorem turn_rest [Inhabited S] (h : turn env s = some s') :
    ∃ ops queue first loop sent, s' = { s with
      _operations := ops, _queue := queue, _first_disk_index := first, loop := loop
      sent := sent } := by
  have hget : ∀ s : Async A B R S, ∃ ops queue loop sent, get s._queue s =
      { s with _operations := ops, _queue := queue, loop := loop, sent := sent } := by
    intro s
    rcases get_cases s._queue s with ⟨-, hget⟩ | ⟨-, i, rest, op, ops, -, -, -, -, hget⟩
    · exact ⟨_, _, _, _, hget⟩
    · rw [hget]
      split_ifs
      · exact ⟨_, _, _, _, rfl⟩
      · exact ⟨_, _, _, _, rfl⟩
  unfold turn at h
  split at h
  · rw [← Option.some.inj h]
    split_ifs
    · unfold _load_operations
      split
      · obtain ⟨ops, queue, first, hreload⟩ := reload_rest env _ s
        rw [hreload]
        obtain ⟨ops', queue', loop, sent, hget'⟩ := hget _
        exact ⟨_, _, _, _, _, hget'⟩
      · obtain ⟨ops, queue, loop, sent, hget'⟩ := hget s
        exact ⟨_, _, _, _, _, hget'⟩
    · obtain ⟨ops, queue, loop, sent, hget'⟩ := hget s
      exact ⟨_, _, _, _, _, hget'⟩
  · split_ifs at h
    obtain ⟨ops, queue, loop, sent, hget'⟩ := hget s
    rw [← Option.some.inj h]
    exact ⟨_, _, _, _, _, hget'⟩
  · cases h

theorem turn_journal [Inhabited S] (h : turn env s = some s') :
    s'._journal_dir = s._journal_dir := by
  obtain ⟨ops, queue, first, loop, sent, rfl⟩ := turn_rest h
  rfl

variable {tags : List (Int × A × List Nat)} {a : Action A B R S}

theorem step_journal [DecidableEq A] [Inhabited S] (hs : step env s a = some s') :
    s'._journal_dir = s._journal_dir.map fun t => (fs_actions env s a).foldl Fs.run t := by
  have hnil : ∀ journal : Option (Table Int (File A B R S)),
      journal.map (fun t => ([] : List (Fs A B R S)).foldl Fs.run t) = journal := fun journal => by
    cases journal <;> rfl
  cases a with
  | store block mode resolver =>
    have hpush : push env (stored env block mode resolver) s = some s' := hs
    exact push_journal hpush
  | remove address rs =>
    have hpush : push env (removal address rs) s = some s' := hs
    exact push_journal hpush
  | room =>
    simp only [step, Option.bind_eq_some_iff, Option.map_eq_some_iff] at hs
    obtain ⟨op, -, s₁, hq, rfl⟩ := hs
    rw [flush_journal, queue_journal hq, fs_actions, hnil]
  | turn => rw [turn_journal hs, fs_actions, hnil]
  | answer ok =>
    simp only [step] at hs
    split at hs
    · rename_i op hloop
      rw [← Option.some.inj hs, fs_actions, hloop]
      cases ok with
      | true => rfl
      | false => exact (hnil _).symm
    · cases hs
  | retry =>
    simp only [step] at hs
    split at hs
    · rename_i op hloop
      rw [← Option.some.inj hs, fs_actions, hloop, retry]
      dsimp only
      cases hload : s._load_op env op.index with
      | none =>
        rw [if_neg (by simp)]
        rfl
      | some l =>
        rw [if_pos (by simp), hnil]
    · cases hs

/-! ## Files and operations -/

/-- With a journal, each operation that is pending is in `_operations`, and each file is that of one
of them. -/
structure Mirrored (s : Async A B R S) : Prop where
  alone : s.waiting = none
  files : ∃ t, s._journal_dir = some t ∧ ∀ i, (find t i).isSome → i ∈ s.pending.map Op.index

theorem pending_indices (h : s.pending.map Op.tag = tags) :
    s.pending.map Op.index = tags.map Prod.fst := by
  rw [← h, List.map_map]
  rfl

theorem saved_files {i : Int} (h : (find ((saved op).foldl Fs.run t) i).isSome) :
    i = op.index ∨ (find t i).isSome := by
  rw [find_saved] at h
  by_cases hi : i = op.index
  · exact Or.inl hi
  · rw [Function.update_of_ne hi] at h
    exact Or.inr h

theorem removed_files {i j : Int} (h : (find ([Fs.remove j].foldl Fs.run t) i).isSome) :
    i ≠ j ∧ (find t i).isSome := by
  rw [find_removed] at h
  by_cases hi : i = j
  · rw [hi, Function.update_self] at h
    cases h
  · rw [Function.update_of_ne hi] at h
    exact ⟨hi, h⟩

theorem pushes_files [DecidableEq A] (hp : Pushes env s s' op)
    (hfiles : ∀ i, (find t i).isSome → i ∈ s.pending.map Op.index) {i : Int}
    (hi : (find ((fs_push env s op).foldl Fs.run t) i).isSome) : i ∈ s'.pending.map Op.index := by
  rcases hp.tags with ⟨hsquash, htags⟩ | ⟨cop, order, before, after, hsquash, -, hsplit, -, htags⟩
  · rw [fs_push, hsquash] at hi
    rw [pending_indices htags, List.map_append, List.mem_append]
    rcases saved_files hi with rfl | hi
    · exact Or.inr (by simp)
    · exact Or.inl (by simpa [Op.tag, Function.comp_def] using hfiles i hi)
  · rw [fs_push, hsquash] at hi
    have hold : ∀ i, (find t i).isSome →
        i ∈ before.map Op.index ∨ i = cop.index ∨ i ∈ (after ++ s.later).map Op.index := by
      intro i hi
      have hmem := hfiles i hi
      rw [pending_eq, hsplit, List.append_assoc, List.map_append, List.cons_append, List.map_cons,
        List.mem_append, List.mem_cons] at hmem
      exact hmem
    rcases htags with ⟨horder, htags⟩ | ⟨horder, htags⟩
    · simp only [horder, if_true] at hi
      rw [pending_indices htags]
      rcases saved_files hi with rfl | hi
      · simp [merged_first]
      · have hold' := hold i hi
        simp only [List.map_append, List.map_cons, List.map_map, List.mem_append,
          List.mem_cons] at hold' ⊢
        simpa [Op.tag, Function.comp_def] using hold'
    · simp only [horder, Bool.false_eq_true, if_false, List.foldl_cons] at hi
      rw [pending_indices htags]
      rcases saved_files hi with rfl | hi
      · simp
      · obtain ⟨hne, hi⟩ := removed_files hi
        have hold' := hold i hi
        simp only [List.map_append, List.map_map, List.mem_append] at hold' ⊢
        simp only [Op.tag, Function.comp_def]
        tauto

theorem enqueue_alone (h : enqueue env op s = some s') (hj : s._journal_dir.isSome)
    (halone : s.waiting = none) : s'.waiting = none := by
  have hj' : (written op s)._journal_dir.isSome := by simpa [written, fs] using hj
  rcases enqueue_cases h with ⟨hw, -, rfl⟩ | ⟨-, hq⟩ | ⟨-, hnone, -⟩
  · rw [halone] at hw
    cases hw
  · rcases queue_cases hq with ⟨f, -, rfl⟩ | ⟨-, -, -, rfl⟩ | ⟨-, -, rfl⟩ <;> exact halone
  · have hsome := queue_journaled env { op with index := s._next_index + 1 } hj'
    rw [hnone] at hsome
    cases hsome

theorem push_alone [DecidableEq A] (hs : push env op s = some s') (hj : s._journal_dir.isSome)
    (halone : s.waiting = none) : s'.waiting = none := by
  rcases push_cases hs with ⟨-, hs⟩ | ⟨cop, order, -, -, rfl⟩ | ⟨cop, order, -, -, hs⟩
  · exact enqueue_alone hs hj halone
  · exact halone
  · exact enqueue_alone hs (by simpa [erase, fs] using hj) halone

theorem step_alone [DecidableEq A] [Inhabited S] (hs : step env s a = some s')
    (hj : s._journal_dir.isSome) (halone : s.waiting = none) : s'.waiting = none := by
  cases a with
  | store block mode resolver =>
    have hpush : push env (stored env block mode resolver) s = some s' := hs
    exact push_alone hpush hj halone
  | remove address rs =>
    have hpush : push env (removal address rs) s = some s' := hs
    exact push_alone hpush hj halone
  | room => simp [step, halone] at hs
  | turn =>
    obtain ⟨ops, queue, first, loop, sent, rfl⟩ := turn_rest hs
    exact halone
  | answer ok =>
    simp only [step] at hs
    split at hs
    · rw [← Option.some.inj hs]
      split_ifs <;> exact halone
    · cases hs
  | retry =>
    simp only [step] at hs
    split at hs
    · rw [← Option.some.inj hs, retry]
      split <;> exact halone
    · cases hs

theorem Mirrored.push [DecidableEq A] (h : Mirrored s) (hsteady : Steady env s)
    (hs : push env op s = some s') :
    Mirrored s' := by
  obtain ⟨t, ht, hfiles⟩ := h.files
  have hj : s._journal_dir.isSome := by rw [ht]; rfl
  have hp := (hsteady.push hs).2
  refine ⟨push_alone hs hj h.alone,
    ⟨_, by rw [push_journal hs, ht]; rfl, fun i hi => pushes_files hp hfiles hi⟩⟩

theorem Mirrored.ends (h : Mirrored s) (hsteady : Steady env s)
    (hexecuting : s.executing = some op) (done : List (Op A B R S)) :
    Mirrored ({ s with done }.processed op) := by
  obtain ⟨t, ht, hfiles⟩ := h.files
  have hkept : Kept env { s with done } s.later :=
    hsteady.kept.congr rfl rfl rfl rfl rfl rfl rfl rfl
  obtain ⟨-, o, hops, htag⟩ := hkept.processed hexecuting
  refine ⟨h.alone, ⟨_, congrArg (Option.map _) ht, fun i hi => ?_⟩⟩
  obtain ⟨hne, hi⟩ := removed_files hi
  have hmem := hfiles i hi
  have hops' : s._operations = o :: ({ s with done }.processed op)._operations := hops
  rw [pending_eq, hops', List.cons_append, List.map_cons, List.mem_cons, tag_index htag] at hmem
  rw [pending_eq]
  exact hmem.resolve_left hne

theorem Mirrored.step [DecidableEq A] [Inhabited S] (h : Mirrored s) (hsteady : Steady env s)
    (hs : step env s a = some s') :
    Mirrored s' := by
  cases a with
  | store block mode resolver =>
    have hpush : Async.push env (stored env block mode resolver) s = some s' := hs
    exact h.push hsteady hpush
  | remove address rs =>
    have hpush : Async.push env (removal address rs) s = some s' := hs
    exact h.push hsteady hpush
  | room => simp [Async.step, h.alone] at hs
  | turn =>
    obtain ⟨-, htook, -⟩ := hsteady.kept.turn hs
    have htags : s'.pending.map Op.tag = s.pending.map Op.tag := by
      rw [pending_eq, pending_eq, List.map_append, List.map_append, htook.tags, htook.later]
    have hindices := indices_congr htags
    obtain ⟨ops, queue, first, loop, sent, rfl⟩ := turn_rest hs
    exact ⟨h.alone, hindices ▸ h.files⟩
  | answer ok =>
    simp only [Async.step] at hs
    split at hs
    · rename_i op hloop
      rw [← Option.some.inj hs]
      cases ok with
      | true => exact h.ends hsteady (by rw [executing, hloop]) _
      | false => exact ⟨h.alone, h.files⟩
    · cases hs
  | retry =>
    simp only [Async.step] at hs
    split at hs
    · rename_i op hloop
      rw [← Option.some.inj hs, Async.retry]
      split
      · exact h.ends hsteady (by rw [executing, hloop]) s.done
      · exact ⟨h.alone, h.files⟩
    · cases hs

variable [Inhabited S]

end Async

end memo.consensus
