-- When a reactor strands no thread: none stays frozen for a thread that is
-- done, and the sets of the scheduler follow the states.
import Memo.ReactorEnds
import Memo.Runs

namespace elle.reactor

variable {T W E : Type}

namespace Scheduler

variable {s s' : Scheduler T W E} {t u : T} {w : Ref T W} {v : W}
variable {th : Thread T W E} {ending : Option T}

/-- Nobody waits for a thread that is done. -/
def Served (s : Scheduler T W E) : Prop :=
  ∀ t u, (s.thread t)._state = .done → .thread t ∉ (s.thread u)._waited

/-- No thread ends, and no thread waits for more. -/
def Shrinks (s s' : Scheduler T W E) : Prop :=
  ∀ u, ((s'.thread u)._state = .done → (s.thread u)._state = .done) ∧
    (s'.thread u)._waited ⊆ (s.thread u)._waited

theorem Shrinks.refl : Shrinks s s :=
  fun _ => ⟨id, List.Subset.refl _⟩

theorem Shrinks.trans {s'' : Scheduler T W E} (h : Shrinks s s') (h' : Shrinks s' s'') :
    Shrinks s s'' :=
  fun u => ⟨fun hd => (h u).1 ((h' u).1 hd), List.Subset.trans (h' u).2 (h u).2⟩

theorem Served.shrinks (h : s.Served) (hs : Shrinks s s') : s'.Served :=
  fun t u ht hm => h t u ((hs t).1 ht) ((hs u).2 hm)

theorem Shrinks.setThread [DecidableEq T] (hstate : th._state = .done → (s.thread t)._state = .done)
    (hwaited : th._waited ⊆ (s.thread t)._waited) : Shrinks s (s.setThread t th) := by
  intro u
  by_cases hu : u = t
  · subst hu
    simpa using ⟨hstate, hwaited⟩
  · simp [hu]

theorem shrinks_of_woken {f : Thread T W E → Thread T W E} {p : T → Prop} [DecidablePred p]
    (h : ∀ u, s'.thread u = if p u then f (s.thread u) else s.thread u)
    (hf : ∀ th, ((f th)._state = .done → th._state = .done) ∧ (f th)._waited ⊆ th._waited) :
    Shrinks s s' := by
  intro u
  rw [h u]
  split_ifs
  · exact hf _
  · exact ⟨id, List.Subset.refl _⟩

theorem woken_shrinks [DecidableEq T] [DecidableEq W] (th : Thread T W E) (w : Ref T W)
    (e : Option (Exn T E)) : ((th.woken w e)._state = .done → th._state = .done) ∧
    (th.woken w e)._waited ⊆ th._waited := by
  refine ⟨fun h => ?_, List.erase_subset⟩
  by_cases hempty : th._waited.erase w = []
  · simp [Thread.woken, hempty] at h
  · simpa [Thread.woken, hempty] using h

theorem terminated_shrinks (th : Thread T W E) (n : T) :
    ((th.terminated n)._state = .done → th._state = .done) ∧
      (th.terminated n)._waited ⊆ th._waited := by
  unfold Thread.terminated
  split_ifs
  · exact ⟨id, List.Subset.refl _⟩
  · simp [Thread.aborted]
  · exact ⟨id, List.Subset.refl _⟩

variable [DecidableEq T] [DecidableEq W]

theorem Sound.wake_all_shrinks (h : s.Sound ending) : Shrinks s (s.wake_all w) :=
  shrinks_of_woken (wake_all_thread (h.linked.waiters_nodup w)) fun th => woken_shrinks th w _

theorem Sound.on_signaled_shrinks (h : s.Sound ending) : Shrinks s (s.on_signaled t) := by
  unfold Scheduler.on_signaled
  split
  · exact Shrinks.refl
  · split
    · dsimp only
      split_ifs
      · exact h.setKind.wake_all_shrinks
      · exact Shrinks.refl
    · exact Shrinks.refl

theorem Sound.signal_shrinks (h : s.Sound ending) : Shrinks s (s._signal w) := by
  unfold Scheduler._signal
  split
  · exact h.wake_all_shrinks.trans h.wake_all.on_signaled_shrinks
  · exact h.wake_all_shrinks

theorem Sound.abort_shrinks (h : s.Sound ending) (ht : (s.thread t)._state = .frozen) :
    Shrinks s (s._wait_abort t) := by
  rw [wait_abort_eq h.linked ht]
  exact Shrinks.setThread (by simp [Thread.aborted]) (by simp [Thread.aborted])

theorem Sound.signal_serves (h : s.Sound ending)
    (hs : ∀ t' u, t' ≠ t → (s.thread t')._state = .done → .thread t' ∉ (s.thread u)._waited) :
    (s._signal (.thread t)).Served := by
  have hwake : (s.wake_all (.thread t)).Served := by
    intro t' u ht' hm
    by_cases heq : t' = t
    · subst heq
      have hmem := (h.wake_all.linked.registered u (.thread t')).mpr hm
      simp [wake_all_waitable] at hmem
    · exact hs t' u heq ((h.wake_all_shrinks t').1 ht') ((h.wake_all_shrinks u).2 hm)
  exact hwake.shrinks h.wake_all.on_signaled_shrinks

theorem Sound.serves_drop (h : s.Sound ending) (hs : s.Served) (ht : t ∈ s._starting) :
    ((s.drop_starting t)._signal (.thread t)).Served := by
  refine (h.drop_starting ht).signal_serves fun t' u hne hd => ?_
  have hwaited : ((s.drop_starting t).thread u)._waited = (s.thread u)._waited := by
    by_cases hu : u = t
    · subst hu
      simp [Scheduler.drop_starting]
    · simp [Scheduler.drop_starting, hu]
  rw [hwaited]
  exact hs t' u (by simpa [Scheduler.drop_starting, hne] using hd)

theorem Sound.serves_terminate_one (h : s.Sound ending) (hs : s.Served) :
    (s._terminate t).Served := by
  by_cases hc : s._current = some t
  · rwa [Scheduler._terminate, if_pos hc]
  · by_cases ht : t ∈ s._starting
    · rw [terminate_starting hc ht]
      exact h.serves_drop hs ht
    · refine hs.shrinks fun u => ?_
      rw [terminate_one_thread h.linked hc ht]
      by_cases hu : u = t
      · subst hu
        simpa using terminated_shrinks (s.thread u) u
      · simp [hu]

/-- The wait of each thread that waits for one that did not start can be aborted. -/
def Abortable (s : Scheduler T W E) : Prop :=
  ∀ t ∈ s._starting, ∀ u ∈ (s.waitable (.thread t))._waiters,
    (s.thread u)._terminating = false ∧ (s.thread u)._interruptible = true

instance : Decidable s.Abortable :=
  inferInstanceAs (Decidable (∀ t ∈ s._starting, ∀ u ∈ (s.waitable (.thread t))._waiters,
    (s.thread u)._terminating = false ∧ (s.thread u)._interruptible = true))

theorem Sound.serves_terminate (h : s.Sound ending) (hs : s.Served) (ha : s.Abortable) :
    s.terminate.Served := by
  have hsub : ∀ u, (s.terminate.thread u)._waited ⊆ (s.thread u)._waited := by
    intro u
    rw [terminate_thread h]
    split_ifs
    · exact List.Subset.refl _
    · exact (terminated_shrinks _ _).2
    · exact List.Subset.refl _
  intro t u ht hm
  by_cases hstart : t ∈ s._starting
  · -- The thread is discarded without a signal: its waiters must have been aborted.
    have hmem := (h.linked.registered u (.thread t)).mpr (hsub u hm)
    have hfrozen := h.frozen_of_mem hmem
    obtain ⟨hterm, hint⟩ := ha t hstart u hmem
    have hnot : u ∉ s._starting := fun hu => by
      simpa [hfrozen] using h.placed.starting u hu
    have hin : u ∈ s.terminated := mem_terminated.mpr (Or.inr ((h.placed.frozen u).mpr hfrozen))
    rw [terminate_thread h, if_neg hnot, if_pos hin] at hm
    simp [Thread.terminated, hterm, hfrozen, hint, Thread.aborted] at hm
  · refine hs t u ?_ (hsub u hm)
    rw [terminate_thread h, if_neg hstart] at ht
    split_ifs at ht
    · exact (terminated_shrinks _ _).1 ht
    · exact ht

theorem Sound.serves_ended {e : Option (Exn T E)} (h : s.Sound none) (hs : s.Served)
    (ht : s._current = some t) : (s.ended t e).Served := by
  have hthread : (s.closing t e).thread = (s.halted t e).thread := by
    rw [closing_eq]
    split_ifs <;> rfl
  refine (h.closing ht).signal_serves fun t' u hne hd => ?_
  rw [hthread] at hd ⊢
  have hwaited : ((s.halted t e).thread u)._waited = (s.thread u)._waited := by
    by_cases hu : u = t
    · subst hu
      simp [Scheduler.halted]
    · simp [Scheduler.halted, hu]
  rw [hwaited]
  exact hs t' u (by simpa [Scheduler.halted, hne] using hd)

theorem Sound.serves_finish {e : Option (Exn T E)} (h : s.Sound none) (hs : s.Served)
    (ht : s._current = some t)
    (ha : s.rethrows t e = true → { s.ended t e with _current := none }.Abortable) :
    (s.finish t e).Served := by
  have hended := h.serves_ended (e := e) hs ht
  unfold Scheduler.finish
  dsimp only
  split_ifs with hre
  · exact (h.ended ht).leave.serves_terminate hended (ha hre)
  · exact hended

theorem Sound.serves_wait {ws : List (Ref T W)} {timeout : Bool} (h : s.Sound none)
    (hs : s.Served) (ht : s._current = some t) (hws : ws.Nodup) (ho : s.Orderly ws) :
    (s.wait t ws timeout).2.Served := by
  rcases wait_spec (d := timeout) h ht hws ho with ⟨e, -, heq⟩ | ⟨-, s', hen, hl, heq⟩
  · rw [heq]
    exact hs
  · have hs' : s'.Served := by
      intro t' u ht' hm
      rw [hen.state] at ht'
      have hans : s.answer (.thread t') ≠ .registers := by
        simp only [answer, ht', if_true]
        split_ifs
        · split <;> simp
        · simp
      have hmem := (hl.registered u (.thread t')).mpr hm
      rw [hen.waitable _ hans] at hmem
      exact hs t' u ht' ((h.linked.registered u (.thread t')).mp hmem)
    rw [heq]
    split_ifs
    · exact hs'
    · refine hs'.shrinks fun u => ?_
      rw [pause_thread]
      by_cases hu : u = t
      · subst hu
        simp
      · simp [hu]

/-- What must hold of a step: the list of a wait is orderly, and when the scheduler terminates
its threads, the waits for those that did not start can be aborted. -/
def Fair (s : Scheduler T W E) (a : Act T W E) : Prop :=
  s.Waiting a ∧
    match a with
    | .terminate_all => s.Abortable
    | .terminate_all_now => s.Abortable
    | .finish e => ∀ t, s._current = some t → s.rethrows t e = true →
        { s.ended t e with _current := none }.Abortable
    | _ => True

theorem Sound.serves_terminate_now {suicide : Bool} (h : s.Sound none) (hs : s.Served)
    (hu : s._current = some u) : (s._terminate_now t u suicide).2.Served := by
  have hone := h.serves_terminate_one (t := t) hs
  unfold Scheduler._terminate_now
  dsimp only
  split_ifs with _ _ hdone
  · exact hs
  · exact hs
  · exact hone
  · exact h._terminate.serves_wait hone (terminate_one_current.trans hu) (List.nodup_singleton _)
      (orderly_of_stored fun w hw => List.mem_singleton.mp hw ▸ stored_of_not_done hdone)

theorem shrinks_create {m : Bool} {j : Option W} : Shrinks s (s.create t m j) := by
  have hnew : Shrinks s
      { (s.setThread t { _managed := m, _state := .running, job := j }).setWaitable (.thread t) {}
        with _starting := s._starting.insert t } :=
    Shrinks.setThread (by simp) (by simp)
  unfold create
  split_ifs
  · dsimp only
    split
    · exact hnew
    · split <;> exact hnew
  · exact Shrinks.refl

omit [DecidableEq W] in
theorem shrinks_schedule : Shrinks s (s.schedule t).2 := by
  unfold schedule
  split_ifs
  · dsimp only
    split
    · exact Shrinks.setThread id (List.Subset.refl _)
    · split_ifs <;> exact Shrinks.setThread id (List.Subset.refl _)
    · exact Shrinks.setThread id (List.Subset.refl _)
  · exact Shrinks.refl

omit [DecidableEq W] in
theorem shrinks_interruptible {state raise : Bool} :
    Shrinks s (s.interruptible t state raise).2 := by
  unfold Scheduler.interruptible
  dsimp only
  split
  · split_ifs <;> exact Shrinks.setThread id (List.Subset.refl _)
  · exact Shrinks.setThread id (List.Subset.refl _)

omit [DecidableEq W] in
theorem shrinks_raise {e : Exn T E} : Shrinks s (s.raise t e) :=
  Shrinks.setThread id (List.Subset.refl _)

theorem Sound.shrinks_raise_and_wake {e : Exn T E} (h : s.Sound ending) :
    Shrinks s (s.raise_and_wake t e) := by
  rw [raise_and_wake_eq h.linked]
  split_ifs with hfrozen
  · exact shrinks_raise.trans (h.raise.abort_shrinks (by simpa [Scheduler.raise] using hfrozen))
  · exact shrinks_raise

theorem Sound.shrinks_timeout (h : s.Sound ending) : Shrinks s (s._wait_timeout t) := by
  unfold Scheduler._wait_timeout
  split_ifs with hfrozen
  · have hset : Shrinks s (s.setThread t { s.thread t with _timeout := true }) :=
      Shrinks.setThread id (List.Subset.refl _)
    have hsound : (s.setThread t { s.thread t with _timeout := true }).Sound ending :=
      h.setThread rfl rfl
    exact hset.trans (hsound.abort_shrinks (by simpa using hfrozen))
  · exact Shrinks.refl

theorem shrinks_signal_one : Shrinks s (s._signal_one w) := by
  unfold _signal_one
  split
  · exact Shrinks.refl
  · exact shrinks_of_woken (wake_list_thread (List.nodup_singleton _))
      fun th => woken_shrinks th w _

theorem Sound.shrinks_open (h : s.Sound ending) : Shrinks s (s.open_barrier v) := by
  unfold Scheduler.open_barrier
  split
  · exact h.setKind.signal_shrinks
  · exact Shrinks.refl
  · exact Shrinks.refl

theorem shrinks_close : Shrinks s (s.close_barrier v) := by
  unfold close_barrier
  split <;> exact Shrinks.refl

theorem Sound.shrinks_raise_barrier {e : Exn T E} (h : s.Sound ending) :
    Shrinks s (s.raise_barrier v e) := by
  unfold Scheduler.raise_barrier
  split
  · exact h._raise.shrinks_open
  · exact Shrinks.refl

theorem shrinks_fail {e : Exn T E} : Shrinks s (s.fail_scope v e) := by
  unfold fail_scope
  split <;> exact Shrinks.refl

theorem Sound.serves_act {a : Act T W E} (h : s.Sound none) (hs : s.Served) (ha : s.Fair a) :
    (s.act a).Served := by
  cases a with
  | create t m j => exact hs.shrinks shrinks_create
  | round => exact hs
  | schedule t => exact hs.shrinks shrinks_schedule
  | yield => exact hs
  | wait ws timeout => exact running_rule hs fun u hu => h.serves_wait hs hu ha.1.1 ha.1.2
  | finish e => exact running_rule hs fun u hu => h.serves_finish hs hu (ha.2 u hu)
  | interruptible state raise =>
    exact running_rule hs fun u _ => hs.shrinks shrinks_interruptible
  | timeout t => exact hs.shrinks h.shrinks_timeout
  | terminate t => exact h.serves_terminate_one hs
  | terminate_now t suicide => exact running_rule hs fun u hu => h.serves_terminate_now hs hu
  | terminate_all => exact h.serves_terminate hs ha.2
  | terminate_all_now =>
    exact running_rule hs fun u hu => h.terminate.serves_wait (h.serves_terminate hs ha.2)
      (terminate_current.trans hu) (terminated_orderly h).1 (terminated_orderly h).2
  | raise t e => exact hs.shrinks shrinks_raise
  | raise_and_wake t e => exact hs.shrinks h.shrinks_raise_and_wake
  | signal v =>
    exact hs.shrinks (plainly_rule (P := Shrinks s) (f := (·._signal (.other v)))
      Shrinks.refl h.signal_shrinks)
  | signal_one v =>
    exact hs.shrinks (plainly_rule (P := Shrinks s) (f := (·._signal_one (.other v)))
      Shrinks.refl shrinks_signal_one)
  | raise_plain v e =>
    exact hs.shrinks (plainly_rule (P := Shrinks s) (f := (·._raise (.other v) e))
      Shrinks.refl Shrinks.refl)
  | open_barrier v => exact hs.shrinks h.shrinks_open
  | close_barrier v => exact hs.shrinks shrinks_close
  | raise_barrier v e => exact hs.shrinks h.shrinks_raise_barrier
  | fail_scope v e => exact hs.shrinks shrinks_fail

/-- No thread is stranded. -/
structure Settled (s : Scheduler T W E) : Prop where
  unbroken : s.broken = false
  one_set : ∀ t, (s.thread t)._state ≠ .done →
    t ∈ s._starting ∧ t ∉ s._running ∧ t ∉ s._frozen ∨
      t ∉ s._starting ∧ t ∈ s._running ∧ t ∉ s._frozen ∨
      t ∉ s._starting ∧ t ∉ s._running ∧ t ∈ s._frozen
  frozen : ∀ t, t ∈ s._frozen ↔ (s.thread t)._state = .frozen
  registered : ∀ t ∈ s._frozen, ∃ w ∈ (s.thread t)._waited, t ∈ (s.waitable w)._waiters
  served : ∀ t ∈ s._frozen, ∀ u, .thread u ∈ (s.thread t)._waited → (s.thread u)._state ≠ .done

omit [DecidableEq T] [DecidableEq W] in
theorem Sound.settled (h : s.Sound none) (hs : s.Served) : s.Settled := by
  have hstarting : ∀ t, t ∈ s._starting → t ∉ s._frozen := fun t ht hf => by
    simpa [(h.placed.starting t ht).1] using (h.placed.frozen t).mp hf
  have hrunning : ∀ t, t ∈ s._running → t ∉ s._starting ∧ t ∉ s._frozen := fun t ht =>
    ⟨fun hs => (h.placed.starting t hs).2 ht, fun hf =>
      h.placed.not_frozen_of_running ht ((h.placed.frozen t).mp hf)⟩
  refine ⟨h.placed.unbroken, fun t ht => ?_, h.placed.frozen, fun t ht => ?_,
    fun t _ u hu hdone => hs u t hdone hu⟩
  · cases hstate : (s.thread t)._state with
    | done => exact absurd hstate ht
    | frozen =>
      have hf := (h.placed.frozen t).mpr hstate
      exact Or.inr (Or.inr ⟨fun hs => hstarting t hs hf, fun hr => (hrunning t hr).2 hf, hf⟩)
    | running =>
      rcases h.placed.active t hstate with hs | hr
      · exact Or.inl ⟨hs, (h.placed.starting t hs).2, hstarting t hs⟩
      · exact Or.inr (Or.inl ⟨(hrunning t hr).1, hr, (hrunning t hr).2⟩)
  · have hwaits := (h.waits t).mp ((h.placed.frozen t).mp ht)
    obtain ⟨w, hw⟩ := List.exists_mem_of_ne_nil _ hwaits
    exact ⟨w, hw, (h.linked.registered t w).mpr hw⟩

/-- In a run whose steps are all fair, the reactor strands no thread. -/
theorem fair_run_settled (kind : W → Kind T E) (as : List (Act T W E))
    (h : runs.Always Fair act (init kind) as) :
    ∀ done, done <+: as → (done.foldl act (init kind)).Settled := by
  intro done hp
  have hinv : (done.foldl act (init kind)).Sound none ∧ (done.foldl act (init kind)).Served :=
    h.invariant (I := fun s => s.Sound none ∧ s.Served) ⟨init_sound kind, by simp [Served, init]⟩
      (fun s a hi ha => ⟨hi.1.act ha.1, hi.1.serves_act hi.2 ha⟩) hp
  exact hinv.1.settled hinv.2

/-- A thread that waits for one that did not start is woken when both are terminated. -/
theorem termination_wakes_waiter :
    (([.create 0 false none, .round, .schedule 0, .create 2 false none,
        .wait [.thread 2] false, .terminate_all] : List (Act Nat Unit Unit)).foldl act
      (init fun _ => .plain)).Settled := by
  refine fair_run_settled (fun _ => .plain) _ ?_ _ (List.prefix_refl _)
  exact ⟨⟨trivial, trivial⟩, ⟨trivial, trivial⟩, ⟨trivial, trivial⟩, ⟨trivial, trivial⟩,
    ⟨⟨by decide, orderly_of_stored (by decide)⟩, trivial⟩,
    ⟨trivial, (by decide : Abortable _)⟩, trivial⟩

/-- A thread that cannot be interrupted waits for one that did not start. The scheduler
terminates both, and nobody wakes the first. -/
theorem termination_strands_waiter :
    ¬(([.create 0 false none, .round, .schedule 0, .interruptible false true,
        .create 2 false none, .wait [.thread 2] false, .terminate_all] :
        List (Act Nat Unit Unit)).foldl act (init fun _ => .plain)).Settled := by
  intro h
  exact h.served 0 (by decide) 2 (by decide) (by decide)

end Scheduler

end elle.reactor
