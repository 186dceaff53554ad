-- `sync` waits for what was pushed before it: it looks at two counters, one that a push increments
-- first, and one that the loop sets to the index of the operation that is over.
import Memo.AsyncJournal

open stores runs

namespace memo.consensus

namespace Async

variable {A B D R S : Type}

/-! ## The call -/

/-- The index that `sync` waits for. -/
def wait_id (s : Async A B R S) : Int := s._next_index - 1

/-- The test of the loop of `sync`, in a later state. It returns when this is false. -/
def Waits (called s : Async A B R S) : Prop := s._last_processed_index < called.wait_id

/-- The operation that an action ends: the backend has it, or its file cannot be read again. -/
def ending [Inhabited S] (env : Blocks A B D R S) (s : Async A B R S) :
    Action A B R S → Option (Op A B R S)
  | .answer true =>
    match s.loop with
    | .calling op => some op
    | _ => none
  | .retry =>
    match s.loop with
    | .sleeping op => if (s._load_op env op.index).isSome then none else some op
    | _ => none
  | _ => none

/-- Nothing is pending, or no operation has the index before the last one. -/
def Alone (s : Async A B R S) : Prop :=
  s.pending = [] ∨ 1 < s._next_index ∧ ∀ op ∈ s.sent ++ s.pending, op.index ≠ s._next_index - 1

/-- A push that is squashed at the last position with an operation that stands for a push from
before the call. -/
def Delays [DecidableEq A] [Inhabited S] (env : Blocks A B D R S) (called s : Async A B R S) :
    Action A B R S → Prop
  | .store block mode resolver =>
    match squash env s (stored env block mode resolver) with
    | some (cop, order) => order.first = false ∧ ∃ k ∈ cop.pushes, k < called.pushed.length
    | none => False
  | _ => False

variable {env : Blocks A B D R S} {called s s' : Async A B R S} {op : Op A B R S}
  {act : Action A B R S}

/-! ## The counter of the loop -/

theorem ending_executing [Inhabited S] (h : ending env s act = some op) :
    s.executing = some op := by
  cases act with
  | answer ok =>
    cases ok with
    | true =>
      cases hloop : s.loop <;> simp [ending, executing, hloop] at h ⊢
      exact h
    | false => simp [ending] at h
  | retry =>
    cases hloop : s.loop <;> simp [ending, executing, hloop] at h ⊢
    exact h.2
  | _ => simp [ending] at h

theorem queue_counters (h : queue env op s = some s') :
    s'._last_processed_index = s._last_processed_index ∧ s'._next_index = s._next_index := by
  rcases queue_cases h with ⟨f, -, rfl⟩ | ⟨-, -, -, rfl⟩ | ⟨-, -, rfl⟩ <;>
    simp [emplace_op, put_index]

theorem flush_counters (ops : List (Op A B R S)) :
    (flush env ops s)._last_processed_index = s._last_processed_index ∧
      (flush env ops s)._next_index = s._next_index := by
  induction ops generalizing s with
  | nil => simp [flush]
  | cons op ops ih =>
    rw [flush]
    cases hq : queue env op s with
    | none => simp
    | some s' =>
      obtain ⟨hlast, hnext⟩ := queue_counters hq
      exact ⟨ih.1.trans hlast, ih.2.trans hnext⟩

theorem enqueue_counters (h : enqueue env op s = some s') :
    s'._last_processed_index = s._last_processed_index ∧ s'._next_index = s._next_index + 1 := by
  rcases enqueue_cases h with ⟨-, -, rfl⟩ | ⟨-, hq⟩ | ⟨-, -, rfl⟩
  · exact ⟨rfl, rfl⟩
  · exact queue_counters hq
  · exact ⟨rfl, rfl⟩

variable [DecidableEq A]

theorem push_counters (h : push env op s = some s') :
    s'._last_processed_index = s._last_processed_index ∧ s._next_index ≤ s'._next_index := by
  rcases push_cases h with ⟨-, h⟩ | ⟨cop, order, -, -, rfl⟩ | ⟨cop, order, -, -, h⟩
  · obtain ⟨hlast, hnext⟩ := enqueue_counters h
    exact ⟨hlast, hnext ▸ Int.le.intro 1 rfl⟩
  · exact ⟨rfl, le_rfl⟩
  · obtain ⟨hlast, hnext⟩ := enqueue_counters h
    exact ⟨hlast, hnext ▸ Int.le.intro 1 rfl⟩

variable [Inhabited S]

theorem step_last (hs : step env s act = some s') : s'._last_processed_index =
    ((ending env s act).map fun op =>
      if s._journal_dir.isSome then op.index else s._last_processed_index).getD
        s._last_processed_index := by
  cases act with
  | store block mode resolver =>
    have hpush : push env (stored env block mode resolver) s = some s' := hs
    simp [ending, (push_counters hpush).1]
  | remove address rs =>
    have hpush : push env (removal address rs) s = some s' := hs
    simp [ending, (push_counters hpush).1]
  | room =>
    simp only [step, Option.bind_eq_some_iff, Option.map_eq_some_iff] at hs
    obtain ⟨op, -, s₁, hq, rfl⟩ := hs
    simp [ending, flush_counters, queue_counters hq]
  | turn =>
    obtain ⟨ops, queue, first, loop, sent, rfl⟩ := turn_rest hs
    simp [ending]
  | answer ok =>
    simp only [step] at hs
    split at hs
    · rename_i o hloop
      rw [← Option.some.inj hs]
      cases ok <;> simp [ending, hloop, processed, fs]
    · cases hs
  | retry =>
    simp only [step] at hs
    split at hs
    · rename_i o hloop
      rw [← Option.some.inj hs, retry]
      cases hload : s._load_op env o.index <;> simp [ending, hloop, hload, processed, fs]
    · cases hs

theorem unended_last (hs : step env s act = some s') (hend : ending env s act = none) :
    s'._last_processed_index = s._last_processed_index := by
  simp [step_last hs, hend]

theorem ended_last (hs : step env s act = some s') (hend : ending env s act = some op)
    (hj : s._journal_dir.isSome) : s'._last_processed_index = op.index := by
  simp [step_last hs, hend, hj]

theorem step_next (hs : step env s act = some s') : s._next_index ≤ s'._next_index := by
  cases act with
  | store block mode resolver =>
    have hpush : push env (stored env block mode resolver) s = some s' := hs
    exact (push_counters hpush).2
  | remove address rs =>
    have hpush : push env (removal address rs) s = some s' := hs
    exact (push_counters hpush).2
  | room =>
    simp only [step, Option.bind_eq_some_iff, Option.map_eq_some_iff] at hs
    obtain ⟨op, -, s₁, hq, rfl⟩ := hs
    rw [(flush_counters _).2, (queue_counters hq).2]
  | turn =>
    obtain ⟨ops, queue, first, loop, sent, rfl⟩ := turn_rest hs
    exact le_rfl
  | answer ok =>
    simp only [step] at hs
    split at hs
    · rw [← Option.some.inj hs]
      split_ifs <;> exact le_rfl
    · cases hs
  | retry =>
    simp only [step] at hs
    split at hs
    · rw [← Option.some.inj hs, retry]
      split <;> exact le_rfl
    · cases hs

/-! ## The operations that come after -/

omit [DecidableEq A] [Inhabited S] in
theorem pending_tag {tags : List (Int × A × List Nat)} (h : s.pending.map Op.tag = tags)
    (hop : op ∈ s.pending) : op.tag ∈ tags :=
  h ▸ List.mem_map_of_mem hop

omit [DecidableEq A] [Inhabited S] in
theorem mem_pending_of_tag {tag : Int × A × List Nat} (h : tag ∈ s.pending.map Op.tag) :
    ∃ o ∈ s.pending, o.index = tag.1 ∧ o.pushes = tag.2.2 := by
  obtain ⟨o, ho, rfl⟩ := List.mem_map.mp h
  exact ⟨o, ho, rfl, rfl⟩

/-- Where an operation that is pending comes from: it was pending, alone or with the push that is
squashed into it, or it comes last, alone or with the operation that the push was squashed with. -/
theorem Change.origin (h : Change env s s' act) (hop : op ∈ s'.pending) :
    (∃ o ∈ s.pending, op.index = o.index ∧
      (op.pushes = o.pushes ∨ op.pushes = o.pushes ++ [s.pushed.length])) ∨
    op.index = s._next_index + 1 ∧ (op.pushes = [s.pushed.length] ∨
      ∃ block mode resolver cop order, act = .store block mode resolver ∧
        squash env s (stored env block mode resolver) = some (cop, order) ∧ order.first = false ∧
          op.pushes = cop.pushes ++ [s.pushed.length]) := by
  have hsame : op.tag ∈ s.pending.map Op.tag → ∃ o ∈ s.pending, op.index = o.index ∧
      (op.pushes = o.pushes ∨ op.pushes = o.pushes ++ [s.pushed.length]) := by
    intro hmem
    obtain ⟨o, ho, hindex, hpushes⟩ := mem_pending_of_tag hmem
    exact ⟨o, ho, hindex.symm, Or.inl hpushes.symm⟩
  have hpush : ∀ new, Pushes env s s' new →
      (∃ o ∈ s.pending, op.index = o.index ∧
        (op.pushes = o.pushes ∨ op.pushes = o.pushes ++ [s.pushed.length])) ∨
      op.index = s._next_index + 1 ∧ (op.pushes = [s.pushed.length] ∨
        ∃ cop order, squash env s new = some (cop, order) ∧ order.first = false ∧
          op.pushes = cop.pushes ++ [s.pushed.length]) := by
    intro new hp
    rcases hp.tags with ⟨-, htags⟩ | ⟨cop, order, before, after, hsquash, -, hsplit, -, htags⟩
    · have hmem := pending_tag htags hop
      rw [List.mem_append, List.mem_singleton] at hmem
      rcases hmem with hmem | hmem
      · exact Or.inl (hsame hmem)
      · exact Or.inr ⟨congrArg Prod.fst hmem, Or.inl (congrArg (fun t => t.2.2) hmem)⟩
    · have hcop : cop ∈ s.pending := by simp [pending_eq, hsplit]
      have hold : ∀ tag ∈ (before ++ (after ++ s.later)).map Op.tag,
          tag ∈ s.pending.map Op.tag := by
        intro tag htag
        obtain ⟨o, ho, rfl⟩ := List.mem_map.mp htag
        refine List.mem_map_of_mem ?_
        simp only [pending_eq, hsplit, List.mem_append, List.mem_cons] at ho ⊢
        tauto
      rcases htags with ⟨-, htags⟩ | ⟨horder, htags⟩
      · have hmem := pending_tag htags hop
        rw [List.mem_append, List.mem_cons] at hmem
        left
        rcases hmem with hmem | hmem | hmem
        · exact hsame (hold _ (List.map_append ▸ List.mem_append_left _ hmem))
        · exact ⟨cop, hcop, congrArg Prod.fst hmem, Or.inr (congrArg (fun t => t.2.2) hmem)⟩
        · exact hsame (hold _ (List.map_append ▸ List.mem_append_right _ hmem))
      · have hmem := pending_tag htags hop
        rw [List.mem_append, List.mem_singleton] at hmem
        rcases hmem with hmem | hmem
        · exact Or.inl (hsame (hold _ hmem))
        · exact Or.inr ⟨congrArg Prod.fst hmem,
            Or.inr ⟨cop, order, hsquash, horder, congrArg (fun t => t.2.2) hmem⟩⟩
  cases h with
  | @store block mode resolver hp =>
    refine (hpush _ hp).imp id fun hlast => ⟨hlast.1, hlast.2.imp id ?_⟩
    rintro ⟨cop, order, hsquash⟩
    exact ⟨block, mode, resolver, cop, order, rfl, hsquash⟩
  | remove hp =>
    refine (hpush _ hp).imp id fun hlast => ⟨hlast.1, hlast.2.imp id ?_⟩
    rintro ⟨cop, order, hsquash, -⟩
    rw [squash_none rfl] at hsquash
    cases hsquash
  | still htags | sends new htags => exact Or.inl (hsame (pending_tag htags hop))
  | ends old htags =>
    refine Or.inl (hsame ?_)
    rw [htags]
    exact List.mem_cons_of_mem _ (List.mem_map_of_mem hop)

theorem Change.pushed_le (h : Change env s s' act) : s.pushed.length ≤ s'.pushed.length := by
  cases h with
  | store hp => simp [hp.pushed]
  | remove hp => simp [hp.pushed]
  | still htags hpushed => simp [hpushed]
  | sends op htags hpushed => simp [hpushed]
  | ends op htags hpushed => simp [hpushed]

theorem Change.sent_mono (h : Change env s s' act) (hop : op ∈ s.sent) : op ∈ s'.sent := by
  cases h with
  | store hp => exact hp.sent ▸ hop
  | remove hp => exact hp.sent ▸ hop
  | still htags hpushed hsent => exact hsent ▸ hop
  | sends new htags hpushed hsent => exact hsent ▸ List.mem_append_left _ hop
  | ends old htags hpushed hsent => exact hsent ▸ hop

theorem Steady.ending_tags (h : Steady env s) (hs : Async.step env s act = some s')
    (hend : ending env s act = some op) :
    s.pending.map Op.tag = op.tag :: s'.pending.map Op.tag := by
  have hexecuting := ending_executing hend
  have hidle : s'.executing = none := by
    cases act with
    | answer ok =>
      cases ok with
      | true =>
        simp only [Async.step] at hs
        split at hs
        · rw [← Option.some.inj hs]
          simp [processed, fs, executing]
        · cases hs
      | false => simp [ending] at hend
    | retry =>
      simp only [Async.step] at hs
      split at hs
      · rename_i o hloop
        simp only [ending, hloop] at hend
        split_ifs at hend with hload
        rw [Option.not_isSome_iff_eq_none] at hload
        rw [← Option.some.inj hs, retry, hload]
        simp [processed, fs, executing]
      · cases hs
    | _ => simp [ending] at hend
  cases (h.step hs).2 with
  | store hp => simp [ending] at hend
  | remove hp => simp [ending] at hend
  | still htags hpushed hsent hdone hkept => simp [hkept, hexecuting] at hidle
  | sends new htags hpushed hsent hdone hnew => simp [hnew] at hidle
  | ends old htags hpushed hsent hlast hold =>
    obtain rfl : op = old := Option.some.inj (hexecuting.symm.trans hold)
    exact htags

theorem Steady.ending_lt (h : Steady env s) (hs : Async.step env s act = some s')
    (hend : ending env s act = some op) {o : Op A B R S} (ho : o ∈ s'.pending) :
    op.index < o.index := by
  have hascending : (s.pending.map Op.index).Pairwise (· < ·) := pending_eq s ▸ h.kept.ascending
  have htags : s.pending.map Op.index = op.index :: s'.pending.map Op.index := by
    simpa [Op.tag, Function.comp_def] using congrArg (List.map Prod.fst) (h.ending_tags hs hend)
  rw [htags, List.pairwise_cons] at hascending
  exact hascending.1 o.index (List.mem_map_of_mem ho)

/-! ## Runs -/

theorem step_journaled (hj : s._journal_dir.isSome) (hs : step env s act = some s') :
    s'._journal_dir.isSome := by
  rw [step_journal hs, Option.isSome_map]
  exact hj

/-- The loop finished nothing yet, or an operation that was sent and that comes before all that is
pending. -/
structure Counted (env : Blocks A B D R S) (s : Async A B R S) : Prop where
  steady : Steady env s
  journal : s._journal_dir.isSome
  last : s._last_processed_index = 0 ∨ s._last_processed_index ≤ s._next_index ∧
    (∃ op ∈ s.sent, op.index = s._last_processed_index) ∧
      ∀ op ∈ s.pending, s._last_processed_index < op.index

theorem Counted.step (h : Counted env s) (hs : Async.step env s act = some s') :
    Counted env s' := by
  obtain ⟨hsteady, hc⟩ := h.steady.step hs
  refine ⟨hsteady, step_journaled h.journal hs, ?_⟩
  have hnext := step_next hs
  cases hend : ending env s act with
  | none =>
    rw [unended_last hs hend]
    refine h.last.imp id fun ⟨hle, ⟨op, hop, hindex⟩, hlt⟩ => ?_
    refine ⟨by omega, ⟨op, hc.sent_mono hop, hindex⟩, fun o ho => ?_⟩
    rcases hc.origin ho with ⟨o', ho', hsame, -⟩ | ⟨hnew, -⟩
    · rw [hsame]
      exact hlt o' ho'
    · omega
  | some op =>
    rw [ended_last hs hend h.journal]
    have hmem := (h.steady.kept.head op (ending_executing hend)).1
    obtain ⟨o, ho, hindex, -⟩ := mem_pending_of_tag
      (h.steady.ending_tags hs hend ▸ List.mem_cons_self : op.tag ∈ s.pending.map Op.tag)
    have hle := h.steady.kept.numbered o (pending_eq s ▸ ho)
    have hindex' : o.index = op.index := hindex
    refine Or.inr ⟨by omega, ⟨op, hc.sent_mono (List.mem_of_getLast? hmem), rfl⟩, ?_⟩
    exact fun o ho => h.steady.ending_lt hs hend ho

/-- What holds after the call: the pushes from before it are in operations of an index from before
it, and the loop does not stop at the one before the last. -/
structure Calling (env : Blocks A B D R S) (called s : Async A B R S) : Prop where
  steady : Steady env s
  journal : s._journal_dir.isSome
  before : called.pushed.length ≤ s.pushed.length
  next : called._next_index ≤ s._next_index
  old : ∀ op ∈ s.pending, ∀ k ∈ op.pushes, k < called.pushed.length →
    op.index ≤ called._next_index
  alone : ∀ op ∈ s.pending, op.index ≠ called.wait_id
  passed : ¬Waits called s → ∀ op ∈ s.pending, called._next_index < op.index

omit [DecidableEq A] [Inhabited S] in
theorem Calling.start (h : Counted env called) (halone : called.Alone) :
    Calling env called called := by
  refine ⟨h.steady, h.journal, le_rfl, le_rfl, fun op hop k _ _ =>
    h.steady.kept.numbered op (pending_eq called ▸ hop), fun op hop => ?_,
    fun hreturns op hop => ?_⟩
  · rcases halone with hnil | ⟨-, halone⟩
    · simp [hnil] at hop
    · exact halone op (List.mem_append_right _ hop)
  · rcases halone with hnil | ⟨hpos, halone⟩
    · simp [hnil] at hop
    · -- the loop is at an operation of `sent`, before the last one, and not right before it
      have hle := h.steady.kept.numbered op (pending_eq called ▸ hop)
      rw [Waits, wait_id] at hreturns
      rcases h.last with hzero | ⟨-, ⟨o, ho, hindex⟩, hlt⟩
      · omega
      · have hne := halone o (List.mem_append_left _ ho)
        have hlt' := hlt op hop
        omega

theorem Calling.step (h : Calling env called s) (hnot : ¬Delays env called s act)
    (hs : Async.step env s act = some s') : Calling env called s' := by
  obtain ⟨hsteady, hc⟩ := h.steady.step hs
  have hnext := h.next
  refine ⟨hsteady, step_journaled h.journal hs, h.before.trans hc.pushed_le,
    h.next.trans (step_next hs), fun op hop k hk hlt => ?_, fun op hop => ?_,
    fun hreturns op hop => ?_⟩
  · have hbefore := h.before
    rcases hc.origin hop with ⟨o, ho, hindex, hpushes⟩ | ⟨-, hpushes | ⟨block, mode, resolver, cop,
      order, rfl, hsquash, horder, hpushes⟩⟩
    · rw [hindex]
      refine h.old o ho k ?_ hlt
      rcases hpushes with hpushes | hpushes
      · exact hpushes ▸ hk
      · rw [hpushes, List.mem_append, List.mem_singleton] at hk
        exact hk.resolve_right (by omega)
    · rw [hpushes, List.mem_singleton] at hk
      omega
    · rw [hpushes, List.mem_append, List.mem_singleton] at hk
      refine absurd ?_ hnot
      rw [Delays, hsquash]
      exact ⟨horder, k, hk.resolve_right (by omega), hlt⟩
  · rcases hc.origin hop with ⟨o, ho, hindex, -⟩ | ⟨hindex, -⟩
    · exact hindex ▸ h.alone o ho
    · rw [wait_id]
      omega
  · unfold Waits at hreturns
    cases hend : ending env s act with
    | none =>
      rw [unended_last hs hend] at hreturns
      rcases hc.origin hop with ⟨o, ho, hindex, -⟩ | ⟨hindex, -⟩
      · exact hindex ▸ h.passed hreturns o ho
      · omega
    | some e =>
      rw [ended_last hs hend h.journal] at hreturns
      have hlt := h.steady.ending_lt hs hend hop
      obtain ⟨o, ho, hindex, -⟩ := mem_pending_of_tag
        (h.steady.ending_tags hs hend ▸ List.mem_cons_self : e.tag ∈ s.pending.map Op.tag)
      have hne := h.alone o ho
      have hindex' : o.index = e.index := hindex
      rw [wait_id] at hne hreturns
      omega

instance (called s : Async A B R S) :
    (act : Action A B R S) → Decidable (Delays env called s act)
  | .store block mode resolver =>
    match h : squash env s (stored env block mode resolver) with
    | some (cop, order) =>
      decidable_of_iff (order.first = false ∧ ∃ k ∈ cop.pushes, k < called.pushed.length)
        (by rw [Delays, h])
    | none => isFalse (by simp [Delays, h])
  | .remove _ _ | .room | .turn | .answer _ | .retry => isFalse id

end Async

end memo.consensus
