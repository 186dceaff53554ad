-- The pool of values that threads produce in advance. A consumer is notified of the first value
-- only, and a worker of the first room only, so that one of two that wait may be forgotten.
import Memo.Conditions
import Memo.Runs

open conditions runs

namespace elle.ProducerPool

variable {T C W : Type}

/-! ## The pool -/

/-- The pool, with the calls of `get`, the threads of the workers that are not waiting and the
values that were given. A worker waits with the value that it produced. -/
structure State (T C W : Type) where
  _pool : List T := []
  _terminating : Bool := false
  _consumer_barrier : Condition C := {}
  _producer_barrier : Condition (W × T) := {}
  running : List W
  given : List (C × T) := []

def start (workers : List W) : State T C W := { running := workers }

variable [DecidableEq T] [DecidableEq C] [DecidableEq W]

/-- The critical section of `get`, once the lock is held. -/
def get (max_count : Nat) (c : C) (woken : Option (W × T)) (s : State T C W) :
    Option (State T C W) :=
  match s._pool.getLast? with
  | none => some { s with _consumer_barrier := s._consumer_barrier.wait c }
  | some res => do
    let barrier ← s._producer_barrier.notify_one_when (s._pool.length = max_count) woken
    pure { s with
      _pool := s._pool.dropLast
      given := s.given ++ [(c, res)]
      _producer_barrier := barrier }

/-- The critical section of `_run`, once the lock is held. A worker that returns is no more. -/
def _run (max_count : Nat) (w : W) (val : T) (woken : Option C) (s : State T C W) :
    Option (State T C W) :=
  if s._pool.length < max_count ∨ s._terminating then
    if s._terminating then some s
    else do
      let barrier ← s._consumer_barrier.notify_one_when ((s._pool ++ [val]).length = 1) woken
      pure { s with
        _pool := s._pool ++ [val]
        running := s.running ++ [w]
        _consumer_barrier := barrier }
  else some { s with _producer_barrier := s._producer_barrier.wait (w, val) }

/-! ## Steps -/

inductive Act (T C W : Type) where
  | get (c : C) (woken : Option (W × T))
  | resume (c : C) (woken : Option (W × T))
  | produce (w : W) (val : T) (woken : Option C)
  | resume_worker (w : W) (val : T) (woken : Option C)
  | terminate
  | notify_all

/-- Each critical section is a step. The destructor sets `_terminating` first, and then notifies
the workers. -/
def step (max_count : Nat) (s : State T C W) : Act T C W → Option (State T C W)
  | .get c woken => if c ∈ s._consumer_barrier.threads then none else get max_count c woken s
  | .resume c woken => do
    let barrier ← s._consumer_barrier.run c
    get max_count c woken { s with _consumer_barrier := barrier }
  | .produce w val woken =>
    if w ∈ s.running then _run max_count w val woken { s with running := s.running.erase w }
    else none
  | .resume_worker w val woken => do
    let barrier ← s._producer_barrier.run (w, val)
    _run max_count w val woken { s with _producer_barrier := barrier }
  | .terminate => some { s with _terminating := true }
  | .notify_all =>
    if s._terminating then some { s with _producer_barrier := s._producer_barrier.notify_all }
    else none

/-- Some notified consumer did not run yet when there is a value and a consumer waits, and some
notified worker when there is room and a worker waits. -/
structure Remembers (max_count : Nat) (s : State T C W) : Prop where
  consumers : s._consumer_barrier.Kept (s._pool ≠ [])
  workers : s._producer_barrier.Kept (s._pool.length < max_count)

/-- There is still room after the critical section of `_run`. -/
def LeavesRoom (max_count : Nat) (s : State T C W) : Prop :=
  s._pool.length + 1 < max_count ∨ s._terminating ∧ s._pool.length < max_count

instance (max_count : Nat) (s : State T C W) : Decidable (LeavesRoom max_count s) :=
  inferInstanceAs (Decidable (_ ∨ _))

/-- The only notified thread does not run while another one waits for what it leaves. -/
def PassesOn (max_count : Nat) (s : State T C W) : Act T C W → Prop
  | .resume c _ => ¬ (2 ≤ s._pool.length ∧ s._consumer_barrier.notified = [c] ∧
      s._consumer_barrier.waiting ≠ [])
  | .resume_worker w val _ => ¬ (LeavesRoom max_count s ∧
      s._producer_barrier.notified = [(w, val)] ∧ s._producer_barrier.waiting ≠ [])
  | _ => True

/-! ## The critical sections -/

variable {s s' : State T C W} {max_count : Nat} {woken : Option (W × T)} {val : T}

omit [DecidableEq C] in
theorem get_cases {c : C} (h : get max_count c woken s = some s') :
    (s._pool = [] ∧ s' = { s with _consumer_barrier := s._consumer_barrier.wait c }) ∨
    ∃ rest res barrier, s._pool = rest ++ [res] ∧
      s._producer_barrier.notify_one_when (s._pool.length = max_count) woken = some barrier ∧
      s' = { s with
        _pool := rest
        given := s.given ++ [(c, res)]
        _producer_barrier := barrier } := by
  unfold get at h
  cases hlast : s._pool.getLast? with
  | none =>
    rw [hlast] at h
    exact .inl ⟨List.getLast?_eq_none_iff.1 hlast, (Option.some.inj h).symm⟩
  | some res =>
    rw [hlast] at h
    obtain ⟨rest, hrest⟩ := List.getLast?_eq_some_iff.1 hlast
    obtain ⟨barrier, hbarrier, hs'⟩ := Option.bind_eq_some_iff.1 h
    refine .inr ⟨rest, res, barrier, hrest, hbarrier, ?_⟩
    have hdrop : s._pool.dropLast = rest := by rw [hrest, List.dropLast_concat]
    rw [← Option.some.inj hs', hdrop]

omit [DecidableEq T] [DecidableEq W] in
theorem _run_cases {w : W} {woken : Option C} (h : _run max_count w val woken s = some s') :
    (s._terminating ∧ s' = s) ∨
    (s._terminating = false ∧ max_count ≤ s._pool.length ∧
      s' = { s with _producer_barrier := s._producer_barrier.wait (w, val) }) ∨
    s._terminating = false ∧ s._pool.length < max_count ∧
      ∃ barrier,
        s._consumer_barrier.notify_one_when ((s._pool ++ [val]).length = 1) woken = some barrier ∧
        s' = { s with
          _pool := s._pool ++ [val]
          running := s.running ++ [w]
          _consumer_barrier := barrier } := by
  unfold _run at h
  cases hterminating : s._terminating with
  | true =>
    simp only [hterminating, or_true, if_true, Option.some.injEq] at h
    exact .inl ⟨rfl, h.symm⟩
  | false =>
    simp only [hterminating, Bool.false_eq_true, or_false, if_false] at h
    by_cases hroom : s._pool.length < max_count
    · rw [if_pos hroom] at h
      obtain ⟨barrier, hbarrier, hs'⟩ := Option.bind_eq_some_iff.1 h
      exact .inr (.inr ⟨rfl, hroom, barrier, hbarrier, (Option.some.inj hs').symm⟩)
    · rw [if_neg hroom] at h
      exact .inr (.inl ⟨rfl, by omega, (Option.some.inj h).symm⟩)

omit [DecidableEq C] in
theorem get_length {c : C} (h : get max_count c woken s = some s')
    (hbound : s._pool.length ≤ max_count) :
    s'._pool.length ≤ max_count := by
  rcases get_cases h with ⟨-, rfl⟩ | ⟨rest, res, barrier, hpool, -, rfl⟩
  · exact hbound
  · rw [hpool, List.length_append] at hbound
    show rest.length ≤ max_count
    omega

omit [DecidableEq T] [DecidableEq W] in
theorem _run_length {w : W} {woken : Option C} (h : _run max_count w val woken s = some s')
    (hbound : s._pool.length ≤ max_count) :
    s'._pool.length ≤ max_count := by
  rcases _run_cases h with ⟨-, rfl⟩ | ⟨-, -, rfl⟩ | ⟨-, hroom, barrier, -, rfl⟩
  · exact hbound
  · exact hbound
  · rw [List.length_append]
    exact hroom

omit [DecidableEq C] in
theorem get_workers {c : C} (h : get max_count c woken s = some s')
    (hbound : s._pool.length ≤ max_count)
    (hkept : s._producer_barrier.Kept (s._pool.length < max_count)) :
    s'._producer_barrier.Kept (s'._pool.length < max_count) := by
  rcases get_cases h with ⟨-, rfl⟩ | ⟨rest, res, barrier, hpool, hbarrier, rfl⟩
  · exact hkept
  · exact Condition.kept_notify_one_when hbarrier fun hnot => hkept.mono fun _ => by omega

omit [DecidableEq C] in
theorem get_consumers {c : C} (h : get max_count c woken s = some s') :
    s'._consumer_barrier.Kept (s'._pool ≠ []) ↔ s._consumer_barrier.Kept (2 ≤ s._pool.length) := by
  rcases get_cases h with ⟨hnil, rfl⟩ | ⟨rest, res, barrier, hpool, -, rfl⟩
  · rw [hnil]
    exact iff_of_true (Condition.kept_of_not _ (by simp)) (Condition.kept_of_not _ (by simp))
  · have hleft : rest ≠ [] ↔ 2 ≤ s._pool.length := by
      rw [hpool, List.length_append, List.length_singleton, ← List.length_pos_iff]
      omega
    simp only [hleft]

omit [DecidableEq T] [DecidableEq W] in
theorem _run_consumers {w : W} {woken : Option C} (h : _run max_count w val woken s = some s')
    (hkept : s._consumer_barrier.Kept (s._pool ≠ [])) :
    s'._consumer_barrier.Kept (s'._pool ≠ []) := by
  rcases _run_cases h with ⟨-, rfl⟩ | ⟨-, -, rfl⟩ | ⟨-, -, barrier, hbarrier, rfl⟩
  · exact hkept
  · exact hkept
  · refine Condition.kept_notify_one_when hbarrier fun hnot => hkept.mono fun _ hnil => hnot ?_
    rw [hnil]
    rfl

omit [DecidableEq T] [DecidableEq W] in
theorem _run_workers {w : W} {woken : Option C} (h : _run max_count w val woken s = some s') :
    s'._producer_barrier.Kept (s'._pool.length < max_count) ↔
      s._producer_barrier.Kept (LeavesRoom max_count s) := by
  unfold LeavesRoom
  rcases _run_cases h with ⟨hterminating, rfl⟩ | ⟨hterminating, hfull, rfl⟩ |
    ⟨hterminating, hroom, barrier, -, rfl⟩
  · have hleft : s'._pool.length + 1 < max_count ∨ s'._terminating ∧ s'._pool.length < max_count ↔
        s'._pool.length < max_count := by
      simp only [hterminating, true_and]
      omega
    rw [hleft]
  · rw [hterminating]
    exact iff_of_true (Condition.kept_of_not _ (by simpa using hfull))
      (Condition.kept_of_not _ (by simp; omega))
  · simp [hterminating]

/-! ## The result -/

/-- What the steps keep. -/
structure Sound (max_count : Nat) (s : State T C W) : Prop extends Remembers max_count s where
  bound : s._pool.length ≤ max_count

omit [DecidableEq T] [DecidableEq C] [DecidableEq W] in
theorem sound_start (max_count : Nat) (workers : List W) :
    Sound max_count (start workers : State T C W) where
  consumers := Condition.kept_of_not _ (by simp [start])
  workers := fun _ hwaiting => absurd rfl hwaiting
  bound := Nat.zero_le _

theorem step_remembers_iff {a : Act T C W} (h : step max_count s a = some s')
    (hs : Sound max_count s) :
    Remembers max_count s' ↔ PassesOn max_count s a := by
  have hleft : 2 ≤ s._pool.length → s._pool ≠ [] := by
    intro htwo hnil
    rw [hnil] at htwo
    cases htwo
  have hroom : LeavesRoom max_count s → s._pool.length < max_count := by
    unfold LeavesRoom
    omega
  cases a with
  | get c woken =>
    simp only [step, Option.ite_none_left_eq_some] at h
    refine iff_of_true ⟨?_, get_workers h.2 hs.bound hs.workers⟩ trivial
    exact (get_consumers h.2).2 (hs.consumers.mono hleft)
  | resume c woken =>
    obtain ⟨barrier, hbarrier, h⟩ := Option.bind_eq_some_iff.1 h
    have hworkers := get_workers h hs.bound hs.workers
    have hconsumers := get_consumers h
    rw [Condition.kept_run_iff hbarrier] at hconsumers
    exact ⟨fun hr => hconsumers.1 hr.consumers, fun hp => ⟨hconsumers.2 hp, hworkers⟩⟩
  | produce w val woken =>
    simp only [step, Option.ite_none_right_eq_some] at h
    refine iff_of_true ⟨_run_consumers h.2 hs.consumers, ?_⟩ trivial
    exact (_run_workers h.2).2 (hs.workers.mono hroom)
  | resume_worker w val woken =>
    obtain ⟨barrier, hbarrier, h⟩ := Option.bind_eq_some_iff.1 h
    have hconsumers := _run_consumers h hs.consumers
    have hworkers := _run_workers h
    rw [Condition.kept_run_iff hbarrier] at hworkers
    exact ⟨fun hr => hworkers.1 hr.workers, fun hp => ⟨hconsumers, hworkers.2 hp⟩⟩
  | terminate =>
    obtain rfl := Option.some.inj h
    exact iff_of_true ⟨hs.consumers, hs.workers⟩ trivial
  | notify_all =>
    simp only [step, Option.ite_none_right_eq_some, Option.some.injEq] at h
    obtain ⟨-, rfl⟩ := h
    exact iff_of_true ⟨hs.consumers, Condition.kept_notify_all _ _⟩ trivial

theorem step_bound {a : Act T C W} (h : step max_count s a = some s')
    (hbound : s._pool.length ≤ max_count) :
    s'._pool.length ≤ max_count := by
  cases a with
  | get c woken =>
    simp only [step, Option.ite_none_left_eq_some] at h
    exact get_length h.2 hbound
  | resume c woken =>
    obtain ⟨barrier, -, h⟩ := Option.bind_eq_some_iff.1 h
    exact get_length h hbound
  | produce w val woken =>
    simp only [step, Option.ite_none_right_eq_some] at h
    exact _run_length h.2 hbound
  | resume_worker w val woken =>
    obtain ⟨barrier, -, h⟩ := Option.bind_eq_some_iff.1 h
    exact _run_length h hbound
  | terminate =>
    obtain rfl := Option.some.inj h
    exact hbound
  | notify_all =>
    simp only [step, Option.ite_none_right_eq_some, Option.some.injEq] at h
    obtain ⟨-, rfl⟩ := h
    exact hbound

/-- The pool forgets nobody when and only when each notified thread passes on what it leaves,
if it is the only one that was notified and another one waits. -/
theorem nobody_is_forgotten_iff {max_count : Nat} {workers : List W} {as : List (Act T C W)}
    {s : State T C W} (hrun : Run (step max_count) anyStep (start workers) as s) :
    (∀ done t, done <+: as → Run (step max_count) anyStep (start workers) done t →
      Remembers max_count t) ↔ Run (step max_count) (PassesOn max_count) (start workers) as s := by
  refine hrun.always_iff (I := Sound max_count) (sound_start max_count workers)
    (fun _ hs => hs.toRemembers) ?_ ?_
  · intro s a s' hs hpasses h
    exact ⟨(step_remembers_iff h hs).2 hpasses, step_bound h hs.bound⟩
  · intro s a s' hs _ hpasses h hremembers
    exact hpasses ((step_remembers_iff h hs).1 hremembers)

instance (max_count : Nat) (s : State T C W) : (a : Act T C W) →
    Decidable (PassesOn max_count s a)
  | .resume _ _ | .resume_worker _ _ _ => inferInstanceAs (Decidable (¬ _))
  | .get _ _ | .produce _ _ _ | .terminate | .notify_all => isTrue trivial

/-- A consumer waits for the value of the only worker. -/
theorem one_consumer_is_remembered :
    ∃ (as : List (Act Nat Nat Nat)) (s : State Nat Nat Nat),
      Run (step 2) anyStep (start [0]) as s ∧ s.given = [(0, 7)] ∧
        ∀ done t, done <+: as → Run (step 2) anyStep (start [0]) done t → Remembers 2 t := by
  have hrun : ((exec (step 2) (PassesOn 2) (start [0]) [.get 0 none, .produce 0 7 (some 0),
      .resume 0 none]).map State.given : Option (List (Nat × Nat))) = some [(0, 7)] := by
    decide +kernel
  obtain ⟨s, hs, hgiven⟩ := Run.of_exec_map hrun
  have hany : Run (step 2) anyStep (start [0]) _ s := hs.mono fun _ _ _ => trivial
  exact ⟨_, s, hany, hgiven, (nobody_is_forgotten_iff hany).2 hs⟩

/-- Two consumers wait, and a worker produces twice before the one that is notified runs. It is
given the second value, and the other consumer is not notified of the first one. -/
theorem a_consumer_is_forgotten :
    ∃ (as : List (Act Nat Nat Nat)) (s : State Nat Nat Nat),
      Run (step 2) anyStep (start [0]) as s ∧ ¬ Remembers 2 s := by
  have hrun : ((exec (step 2) anyStep (start [0]) [.get 0 none, .get 1 none,
      .produce 0 7 (some 0), .produce 0 8 none, .resume 0 none]).map fun s =>
        (s._pool, s._consumer_barrier.waiting, s._consumer_barrier.notified)) =
          some ([7], [1], []) := by
    decide +kernel
  obtain ⟨s, hs, hvalues⟩ := Run.of_exec_map hrun
  simp only [Prod.mk.injEq] at hvalues
  obtain ⟨hpool, hwaiting, hnotified⟩ := hvalues
  refine ⟨_, s, hs, fun hremembers => ?_⟩
  exact hremembers.consumers (by rw [hpool]; nofun) (by rw [hwaiting]; nofun) hnotified

end elle.ProducerPool
