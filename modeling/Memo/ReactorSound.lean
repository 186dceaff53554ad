-- What each operation of a reactor does to its threads and waitables, and the
-- invariant of the operations: the sets of the scheduler follow the states of
-- the threads, and a thread and a waitable agree on who waits for what.
import Memo.Reactor
import Mathlib.Data.List.Lattice
import Mathlib.Data.List.Nodup

namespace elle.reactor

variable {T W E : Type} [DecidableEq T]

/-- A woken thread: the waitable `w` held the exception `e`. -/
def Thread.woken [DecidableEq W] (th : Thread T W E) (w : Ref T W) (e : Option (Exn T E)) :
    Thread T W E :=
  { th with
    _exception := th._exception.or e
    held := th.held.or e
    _waited := th._waited.erase w
    _state := if th._waited.erase w = [] then .running else th._state }

/-- A thread whose wait was aborted. -/
def Thread.aborted (th : Thread T W E) : Thread T W E :=
  { th with _waited := [], _state := .running }

/-- A thread, neither the running one nor one that did not start, that was told to terminate. -/
def Thread.terminated (th : Thread T W E) (name : T) : Thread T W E :=
  if th._terminating then th
  else if th._state = .frozen ∧ th._interruptible then
    { th with _terminating := true, _exception := some (.Terminate name) }.aborted
  else { th with _terminating := true, _exception := some (.Terminate name) }

namespace Scheduler

variable {s s' : Scheduler T W E} {t u : T} {w w' : Ref T W} {v : W}
variable {th : Thread T W E} {x : Waitable T E} {p : Prop} [Decidable p]

/-! ## Threads and waitables after an operation -/

@[simp] theorem setThread_thread : (s.setThread t th).thread = Function.update s.thread t th := rfl
@[simp] theorem setThread_waitable : (s.setThread t th).waitable = s.waitable := rfl
@[simp] theorem setThread_kind : (s.setThread t th).kind = s.kind := rfl
@[simp] theorem setThread_starting : (s.setThread t th)._starting = s._starting := rfl
@[simp] theorem setThread_running : (s.setThread t th)._running = s._running := rfl
@[simp] theorem setThread_frozen : (s.setThread t th)._frozen = s._frozen := rfl
@[simp] theorem setThread_current : (s.setThread t th)._current = s._current := rfl
@[simp] theorem setThread_broken : (s.setThread t th).broken = s.broken := rfl

variable [DecidableEq W]

@[simp] theorem setWaitable_thread : (s.setWaitable w x).thread = s.thread := rfl
@[simp] theorem setWaitable_waitable :
    (s.setWaitable w x).waitable = Function.update s.waitable w x := rfl
@[simp] theorem setWaitable_kind : (s.setWaitable w x).kind = s.kind := rfl
@[simp] theorem setWaitable_starting : (s.setWaitable w x)._starting = s._starting := rfl
@[simp] theorem setWaitable_running : (s.setWaitable w x)._running = s._running := rfl
@[simp] theorem setWaitable_frozen : (s.setWaitable w x)._frozen = s._frozen := rfl
@[simp] theorem setWaitable_current : (s.setWaitable w x)._current = s._current := rfl
@[simp] theorem setWaitable_broken : (s.setWaitable w x).broken = s.broken := rfl

omit [DecidableEq T] [DecidableEq W] in
@[simp] theorem assert_thread : (s.assert p).thread = s.thread := rfl

omit [DecidableEq T] [DecidableEq W] in
theorem assert_eq_self (h : p) : s.assert p = s := by
  simp [assert, h]

omit [DecidableEq W] in
theorem thaw_eq (h : (s.thread t)._state = .frozen) :
    s.thaw t = { s.setThread t { s.thread t with _state := .running } with
      _frozen := s._frozen.erase t, _running := s._running.insert t } := by
  simp only [thaw, _unfreeze, assert_eq_self h]
  rfl

theorem wake_thread : (s._wake t w).thread =
    Function.update s.thread t ((s.thread t).woken w (s.waitable w)._exception) := by
  unfold _wake thaw
  simp only [setThread_thread, Function.update_self]
  split_ifs with h
  · have hun : ∀ s : Scheduler T W E, (s._unfreeze t).thread = s.thread := fun _ => rfl
    simp only [setThread_thread, hun, Function.update_idem, Function.update_self, Thread.woken, h,
      if_true]
  · simp only [setThread_thread, Thread.woken, h, if_false]

theorem wake_rest : (s._wake t w).waitable = s.waitable ∧ (s._wake t w).kind = s.kind ∧
    (s._wake t w)._starting = s._starting ∧ (s._wake t w)._current = s._current := by
  unfold _wake
  dsimp only
  split_ifs <;> exact ⟨rfl, rfl, rfl, rfl⟩

/-- The threads of the list are woken. -/
def wake_list (s : Scheduler T W E) (w : Ref T W) (l : List T) : Scheduler T W E :=
  l.foldl (fun s t => s._wake t w) s

theorem wake_list_rest (l : List T) : (s.wake_list w l).waitable = s.waitable ∧
    (s.wake_list w l).kind = s.kind ∧ (s.wake_list w l)._starting = s._starting ∧
    (s.wake_list w l)._current = s._current := by
  induction l generalizing s with
  | nil => exact ⟨rfl, rfl, rfl, rfl⟩
  | cons t l ih =>
    obtain ⟨h1, h2, h3, h4⟩ := wake_rest (s := s) (t := t) (w := w)
    obtain ⟨h1', h2', h3', h4'⟩ := ih (s := s._wake t w)
    exact ⟨h1'.trans h1, h2'.trans h2, h3'.trans h3, h4'.trans h4⟩

variable {ws : List (Ref T W)} {timeout : Bool} {l : List T}

theorem wake_list_thread (hl : l.Nodup) (u : T) : (s.wake_list w l).thread u =
    if u ∈ l then (s.thread u).woken w (s.waitable w)._exception else s.thread u := by
  induction l generalizing s with
  | nil => simp [wake_list]
  | cons t l ih =>
    obtain ⟨ht, hl⟩ := List.nodup_cons.mp hl
    have hcons : s.wake_list w (t :: l) = (s._wake t w).wake_list w l := rfl
    rw [hcons, ih hl, wake_thread, wake_rest.1]
    by_cases hu : u = t
    · subst hu
      simp [ht]
    · simp [hu]

theorem wake_all_thread (hw : (s.waitable w)._waiters.Nodup) (u : T) :
    (s.wake_all w).thread u = if u ∈ (s.waitable w)._waiters then
      (s.thread u).woken w (s.waitable w)._exception else s.thread u :=
  wake_list_thread hw u

theorem wake_all_waitable : (s.wake_all w).waitable = Function.update s.waitable w {} := by
  have hlist : (s.wake_all w).waitable =
      Function.update (s.wake_list w (s.waitable w)._waiters).waitable w {} := rfl
  rw [hlist, (wake_list_rest _).1]

theorem wake_all_rest : (s.wake_all w).kind = s.kind ∧
    (s.wake_all w)._starting = s._starting ∧ (s.wake_all w)._current = s._current :=
  (wake_list_rest _).2

/-! ## The invariant -/

/-- The sets of the scheduler follow the states of the threads; a thread that has just ended is
still in `_running`. No assertion failed. -/
structure Placed (ending : Option T) (s : Scheduler T W E) : Prop where
  unbroken : s.broken = false
  starting : ∀ t ∈ s._starting, (s.thread t)._state = .running ∧ t ∉ s._running
  running : ∀ t ∈ s._running, (s.thread t)._state = .running ∨ ending = some t
  active : ∀ t, (s.thread t)._state = .running → t ∈ s._starting ∨ t ∈ s._running
  frozen : ∀ t, t ∈ s._frozen ↔ (s.thread t)._state = .frozen
  starting_nodup : s._starting.Nodup
  running_nodup : s._running.Nodup
  frozen_nodup : s._frozen.Nodup
  current : ∀ t, s._current = some t → t ∈ s._running
  ended : ∀ t, ending = some t → (s.thread t)._state = .done

/-- A thread and a waitable agree on whether the one waits for the other. -/
structure Linked (s : Scheduler T W E) : Prop where
  registered : ∀ t w, t ∈ (s.waitable w)._waiters ↔ w ∈ (s.thread t)._waited
  waiters_nodup : ∀ w, (s.waitable w)._waiters.Nodup
  waited_nodup : ∀ t, (s.thread t)._waited.Nodup

/-- The thread is frozen when and only when it waits for something. -/
def Waits (s : Scheduler T W E) (t : T) : Prop :=
  (s.thread t)._state = .frozen ↔ (s.thread t)._waited ≠ []

structure Sound (ending : Option T) (s : Scheduler T W E) : Prop where
  placed : s.Placed ending
  linked : s.Linked
  waits : ∀ t, s.Waits t

variable {ending : Option T}

omit [DecidableEq T] [DecidableEq W] in
theorem init_sound (kind : W → Kind T E) : (init kind).Sound (none : Option T) where
  placed := by constructor <;> simp [init]
  linked := by constructor <;> simp [init]
  waits := by simp [init, Waits]

omit [DecidableEq T] [DecidableEq W] in
theorem Placed.same (h : s.Placed ending)
    (hthread : ∀ t, (s'.thread t)._state = (s.thread t)._state)
    (hstarting : s'._starting = s._starting) (hrunning : s'._running = s._running)
    (hfrozen : s'._frozen = s._frozen) (hcurrent : s'._current = s._current)
    (hbroken : s'.broken = s.broken) : s'.Placed ending where
  unbroken := hbroken.trans h.unbroken
  starting := by simpa only [hstarting, hthread, hrunning] using h.starting
  running := by simpa only [hthread, hrunning] using h.running
  active := by simpa only [hstarting, hthread, hrunning] using h.active
  frozen := by simpa only [hthread, hfrozen] using h.frozen
  starting_nodup := hstarting ▸ h.starting_nodup
  running_nodup := hrunning ▸ h.running_nodup
  frozen_nodup := hfrozen ▸ h.frozen_nodup
  current := by simpa only [hcurrent, hrunning] using h.current
  ended := by simpa only [hthread] using h.ended

omit [DecidableEq W] in
theorem Placed.setThread (h : s.Placed ending) (hstate : th._state = (s.thread t)._state) :
    (s.setThread t th).Placed ending := by
  refine h.same (fun u => ?_) rfl rfl rfl rfl rfl
  by_cases hu : u = t
  · subst hu
    simpa using hstate
  · simp [hu]

omit [DecidableEq W] in
theorem Placed.thaw (h : s.Placed ending) (ht : (s.thread t)._state = .frozen) :
    (s.thaw t).Placed ending := by
  have hstarting : t ∉ s._starting := fun hm => by
    have hrun := (h.starting t hm).1
    simp [ht] at hrun
  have hstate : ∀ u, ((s.thaw t).thread u)._state =
      if u = t then .running else (s.thread u)._state := by
    intro u
    rw [thaw_eq ht]
    by_cases hu : u = t
    · subst hu
      simp
    · simp [hu]
  have hending : ending ≠ some t := fun he => by
    have hdone := h.ended t he
    simp [ht] at hdone
  rw [thaw_eq ht] at hstate ⊢
  refine ⟨h.unbroken, ?_, ?_, ?_, ?_, h.starting_nodup, ?_, ?_, ?_, ?_⟩
  · intro u hu
    have hne : u ≠ t := fun he => hstarting (he ▸ hu)
    rw [hstate u, if_neg hne]
    simpa [hne] using h.starting u hu
  · intro u hu
    rw [hstate u]
    rcases List.mem_insert_iff.mp hu with rfl | hu
    · simp
    · by_cases hut : u = t
      · simp [hut]
      · simpa [hut] using h.running u hu
  · intro u hu
    rw [hstate u] at hu
    by_cases hut : u = t
    · exact Or.inr (List.mem_insert_iff.mpr (Or.inl hut))
    · rw [if_neg hut] at hu
      exact (h.active u hu).imp_right List.mem_insert_of_mem
  · intro u
    rw [hstate u]
    by_cases hut : u = t
    · simp [hut, h.frozen_nodup.mem_erase_iff]
    · simpa [hut, h.frozen_nodup.mem_erase_iff] using h.frozen u
  · exact List.Nodup.insert h.running_nodup
  · exact h.frozen_nodup.erase t
  · exact fun u hu => List.mem_insert_of_mem (h.current u hu)
  · intro u hu
    have hne : u ≠ t := fun he => hending (he ▸ hu)
    rw [hstate u, if_neg hne]
    exact h.ended u hu

theorem Placed.wake (h : s.Placed ending) (ht : (s.thread t)._state = .frozen) :
    (s._wake t w).Placed ending := by
  unfold _wake
  dsimp only
  split_ifs
  · refine Placed.thaw (h.setThread rfl) ?_
    simpa using ht
  · exact h.setThread rfl

theorem Placed.wake_list (h : s.Placed ending) (hl : l.Nodup)
    (hfrozen : ∀ u ∈ l, (s.thread u)._state = .frozen) : (s.wake_list w l).Placed ending := by
  induction l generalizing s with
  | nil => exact h
  | cons t l ih =>
    obtain ⟨ht, hl⟩ := List.nodup_cons.mp hl
    refine ih (h.wake (hfrozen t List.mem_cons_self)) hl fun u hu => ?_
    have hne : u ≠ t := fun he => ht (he ▸ hu)
    rw [wake_thread, Function.update_of_ne hne]
    exact hfrozen u (List.mem_cons_of_mem t hu)

omit [DecidableEq T] [DecidableEq W] in
theorem Sound.frozen_of_mem (h : s.Sound ending) (ht : t ∈ (s.waitable w)._waiters) :
    (s.thread t)._state = .frozen :=
  (h.waits t).mpr (List.ne_nil_of_mem ((h.linked.registered t w).mp ht))

theorem Sound.wake_some {rest : List T} (h : s.Sound ending) (hl : l.Nodup) (hrest : rest.Nodup)
    (hmem : ∀ u, u ∈ (s.waitable w)._waiters ↔ u ∈ l ∨ u ∈ rest) (hdisj : ∀ u ∈ l, u ∉ rest) :
    ((s.wake_list w l).setWaitable w { _waiters := rest }).Sound ending := by
  have hthread : ∀ u, ((s.wake_list w l).setWaitable w { _waiters := rest }).thread u =
      if u ∈ l then (s.thread u).woken w (s.waitable w)._exception else s.thread u :=
    fun u => wake_list_thread hl u
  have hwaitable : ((s.wake_list w l).setWaitable w { _waiters := rest }).waitable =
      Function.update s.waitable w { _waiters := rest } := by
    rw [setWaitable_waitable, (wake_list_rest l).1]
  have hreg := h.linked.registered
  have hfrozen : ∀ u ∈ l, (s.thread u)._state = .frozen := fun u hu =>
    h.frozen_of_mem ((hmem u).mpr (Or.inl hu))
  refine ⟨?_, ⟨?_, ?_, ?_⟩, ?_⟩
  · exact (h.placed.wake_list hl hfrozen).same (fun _ => rfl) rfl rfl rfl rfl rfl
  · intro u w'
    rw [hthread, hwaitable]
    have hcases := hreg u w'
    by_cases hw : w' = w
    · subst hw
      rw [hmem] at hcases
      split_ifs with hu
      · simp [Thread.woken, (h.linked.waited_nodup u).mem_erase_iff, hdisj u hu]
      · simpa [hu] using hcases
    · split_ifs with hu
      · simp [hw, Thread.woken, (h.linked.waited_nodup u).mem_erase_iff, hcases]
      · simpa [hw] using hcases
  · intro w'
    rw [hwaitable]
    by_cases hw : w' = w
    · simpa [hw] using hrest
    · simpa [hw] using h.linked.waiters_nodup w'
  · intro u
    rw [hthread]
    split_ifs
    · exact (h.linked.waited_nodup u).erase w
    · exact h.linked.waited_nodup u
  · intro u
    unfold Waits
    rw [hthread]
    split_ifs with hu
    · by_cases hempty : (s.thread u)._waited.erase w = []
      · simp [Thread.woken, hempty]
      · simp [Thread.woken, hempty, hfrozen u hu]
    · exact h.waits u

theorem Sound.wake_all (h : s.Sound ending) : (s.wake_all w).Sound ending :=
  h.wake_some (h.linked.waiters_nodup w) List.nodup_nil (by simp) (by simp)

/-! ## The end of a wait -/

omit [DecidableEq T] in
theorem Sound.setKind (h : s.Sound ending) {k : Kind T E} : (s.setKind v k).Sound ending :=
  ⟨h.placed.same (fun _ => rfl) rfl rfl rfl rfl rfl,
    { h.linked with }, h.waits⟩

theorem Sound.on_signaled (h : s.Sound ending) : (s.on_signaled t).Sound ending := by
  unfold Scheduler.on_signaled
  split
  · exact h
  · split
    · dsimp only
      split_ifs
      · exact h.setKind.wake_all
      · exact h.setKind
    · exact h

theorem Sound._signal (h : s.Sound ending) : (s._signal w).Sound ending := by
  unfold Scheduler._signal
  split
  · exact h.wake_all.on_signaled
  · exact h.wake_all

theorem unwait_list {l : List (Ref T W)} (hl : l.Nodup)
    (hmem : ∀ w ∈ l, t ∈ (s.waitable w)._waiters) :
    l.foldl (fun s w => s._unwait t w) s = { s with
      waitable := fun w => if w ∈ l then
          { _waiters := (s.waitable w)._waiters.erase t, _exception := (s.waitable w)._exception }
        else s.waitable w } := by
  induction l generalizing s with
  | nil => simp
  | cons w l ih =>
    obtain ⟨hw, hl⟩ := List.nodup_cons.mp hl
    have hstep : s._unwait t w = s.setWaitable w
        { s.waitable w with _waiters := (s.waitable w)._waiters.erase t } := by
      simp only [_unwait, assert_eq_self (hmem w List.mem_cons_self)]
    rw [List.foldl_cons, hstep, ih hl fun v hv => ?_]
    · simp only [setWaitable, Scheduler.mk.injEq, true_and, and_true]
      funext v
      by_cases hv : v = w
      · subst hv
        simp [hw]
      · simp [hv]
    · have hne : v ≠ w := fun he => hw (he ▸ hv)
      simpa [hne] using hmem v (List.mem_cons_of_mem w hv)

theorem wait_abort_eq (hl : s.Linked) (ht : (s.thread t)._state = .frozen) :
    s._wait_abort t = { s with
      thread := Function.update s.thread t (s.thread t).aborted,
      waitable := fun w =>
        { _waiters := (s.waitable w)._waiters.erase t, _exception := (s.waitable w)._exception },
      _frozen := s._frozen.erase t,
      _running := s._running.insert t } := by
  have hun : s.unwait_all t = { s with
      waitable := fun w =>
        { _waiters := (s.waitable w)._waiters.erase t,
          _exception := (s.waitable w)._exception } } := by
    rw [unwait_all, unwait_list (hl.waited_nodup t) fun w hw => (hl.registered t w).mpr hw]
    congr 1
    funext w
    split_ifs with hw
    · rfl
    · have hnot : t ∉ (s.waitable w)._waiters := fun hm => hw ((hl.registered t w).mp hm)
      simp only [List.erase_of_not_mem hnot]
  simp only [_wait_abort, assert_eq_self ht, hun]
  rw [thaw_eq (by simpa using ht)]
  simp [setThread, Thread.aborted]

theorem Sound._wait_abort (h : s.Sound ending) (ht : (s.thread t)._state = .frozen) :
    (s._wait_abort t).Sound ending := by
  have hthaw := h.placed.thaw ht
  rw [thaw_eq ht] at hthaw
  rw [wait_abort_eq h.linked ht]
  refine ⟨hthaw.same (fun u => ?_) rfl rfl rfl rfl rfl, ⟨?_, ?_, ?_⟩, ?_⟩
  · by_cases hu : u = t
    · subst hu
      simp [Thread.aborted]
    · simp [hu]
  · intro u w
    rw [(h.linked.waiters_nodup w).mem_erase_iff]
    by_cases hu : u = t
    · subst hu
      simp [Thread.aborted]
    · simp [hu, h.linked.registered]
  · exact fun w => (h.linked.waiters_nodup w).erase t
  · intro u
    by_cases hu : u = t
    · subst hu
      simp [Thread.aborted]
    · simpa [hu] using h.linked.waited_nodup u
  · intro u
    by_cases hu : u = t
    · subst hu
      simp [Waits, Thread.aborted]
    · simpa [Waits, hu] using h.waits u

omit [DecidableEq W] in
theorem Sound.setThread (h : s.Sound ending) (hstate : th._state = (s.thread t)._state)
    (hwaited : th._waited = (s.thread t)._waited) : (s.setThread t th).Sound ending := by
  have hthread : ∀ u, ((s.setThread t th).thread u)._waited = (s.thread u)._waited ∧
      ((s.setThread t th).thread u)._state = (s.thread u)._state := by
    intro u
    by_cases hu : u = t
    · subst hu
      simp [hstate, hwaited]
    · simp [hu]
  refine ⟨h.placed.setThread hstate, ⟨fun u w => ?_, h.linked.waiters_nodup, fun u => ?_⟩,
    fun u => ?_⟩
  · rw [(hthread u).1]
    exact h.linked.registered u w
  · rw [(hthread u).1]
    exact h.linked.waited_nodup u
  · rw [Waits, (hthread u).1, (hthread u).2]
    exact h.waits u

/-! ## The registrations of a wait -/

/-- The exception with which a waitable ends a wait at once. -/
def stored (s : Scheduler T W E) (w : Ref T W) : Option (Exn T E) :=
  match s.answer w with
  | .registers => none
  | .throws e => some e
  | .passes => (s.waitable w)._exception

/-- No waitable that ends the wait by an exception is reached after one that takes the thread
as a waiter. -/
def Orderly (s : Scheduler T W E) : List (Ref T W) → Prop
  | [] => True
  | w :: ws =>
    match s.answer w with
    | .registers => ∀ v ∈ ws, s.stored v = none
    | _ => s.stored w ≠ none ∨ s.Orderly ws

/-- The thread `t` is registered with more waitables, which are of those that take it. -/
structure Enlists (t : T) (s s' : Scheduler T W E) : Prop where
  thread : ∃ l, s'.thread = Function.update s.thread t { s.thread t with _waited := l }
  exception : ∀ w, (s'.waitable w)._exception = (s.waitable w)._exception
  waitable : ∀ w, s.answer w ≠ .registers → s'.waitable w = s.waitable w
  kind : s'.kind = s.kind
  sets : s'._starting = s._starting ∧ s'._running = s._running ∧ s'._frozen = s._frozen
  current : s'._current = s._current
  broken : s'.broken = s.broken

omit [DecidableEq W] in
theorem Enlists.refl : Enlists t s s :=
  ⟨⟨_, (Function.update_eq_self t s.thread).symm⟩, fun _ => rfl, fun _ _ => rfl, rfl,
    ⟨rfl, rfl, rfl⟩, rfl, rfl⟩

omit [DecidableEq W] in
theorem Enlists.same (h : Enlists t s s') (u : T) :
    s'.thread u = { s.thread u with _waited := (s'.thread u)._waited } := by
  obtain ⟨l, hl⟩ := h.thread
  rw [hl]
  by_cases hu : u = t
  · subst hu
    simp
  · simp [hu]

omit [DecidableEq W] in
theorem Enlists.state (h : Enlists t s s') (u : T) :
    (s'.thread u)._state = (s.thread u)._state := by
  rw [h.same u]

omit [DecidableEq W] in
theorem Enlists.answer (h : Enlists t s s') (w : Ref T W) : s'.answer w = s.answer w := by
  cases w with
  | thread u => rw [Scheduler.answer, h.same u]; rfl
  | other v => rw [Scheduler.answer, h.kind]; rfl

omit [DecidableEq W] in
theorem Enlists.stored (h : Enlists t s s') (w : Ref T W) : s'.stored w = s.stored w := by
  simp only [Scheduler.stored, h.answer, h.exception]

omit [DecidableEq W] in
theorem Enlists.trans {s'' : Scheduler T W E} (h : Enlists t s s') (h' : Enlists t s' s'') :
    Enlists t s s'' := by
  refine ⟨?_, fun w => (h'.exception w).trans (h.exception w), fun w hw => ?_,
    h'.kind.trans h.kind, ⟨h'.sets.1.trans h.sets.1, h'.sets.2.1.trans h.sets.2.1,
      h'.sets.2.2.trans h.sets.2.2⟩, h'.current.trans h.current, h'.broken.trans h.broken⟩
  · obtain ⟨l, hl⟩ := h.thread
    obtain ⟨l', hl'⟩ := h'.thread
    exact ⟨l', by rw [hl', hl]; simp⟩
  · rw [h'.waitable w (by rwa [h.answer]), h.waitable w hw]

theorem enlist_spec (hl : s.Linked) (hw : w ∉ (s.thread t)._waited)
    (hreg : s.answer w = .registers) :
    let e := s.enlist t w
    let s' := e.setThread t { e.thread t with _waited := (e.thread t)._waited.insert w }
    Enlists t s s' ∧ s'.Linked ∧ (s'.thread t)._waited = w :: (s.thread t)._waited := by
  have hnot : t ∉ (s.waitable w)._waiters := fun hm => hw ((hl.registered t w).mp hm)
  have he : s.enlist t w = s.setWaitable w
      { s.waitable w with _waiters := (s.waitable w)._waiters ++ [t] } := by
    simp only [enlist, assert_eq_self hnot]
  rw [he]
  refine ⟨⟨⟨_, rfl⟩, fun v => ?_, fun v hv => ?_, rfl, ⟨rfl, rfl, rfl⟩, rfl, rfl⟩,
    ⟨fun u v => ?_, fun v => ?_, fun u => ?_⟩, ?_⟩
  · by_cases hvw : v = w
    · subst hvw
      simp
    · simp [hvw]
  · have hne : v ≠ w := fun heq => hv (heq ▸ hreg)
    simp [hne]
  · have hcases := hl.registered u v
    by_cases hu : u = t <;> by_cases hv : v = w
    · subst hu hv
      simp [List.mem_insert_iff]
    · subst hu
      simp [hv, hcases, List.mem_insert_iff]
    · subst hv
      simp [hu, hcases]
    · simp [hu, hv, hcases]
  · by_cases hvw : v = w
    · subst hvw
      have hconcat := List.Nodup.concat hnot (hl.waiters_nodup v)
      rw [List.concat_eq_append] at hconcat
      simpa using hconcat
    · simpa [hvw] using hl.waiters_nodup v
  · by_cases hu : u = t
    · subst hu
      simpa using List.Nodup.insert (hl.waited_nodup u)
    · simpa [hu] using hl.waited_nodup u
  · simp [List.insert_of_not_mem hw]

theorem register_spec {freeze : Bool} (hl : s.Linked) (hws : ws.Nodup)
    (hdisj : ∀ w ∈ ws, w ∉ (s.thread t)._waited)
    (hfreeze : freeze = true ↔ (s.thread t)._waited ≠ []) (hstored : ∀ w ∈ ws, s.stored w = none) :
    ∃ s', register t freeze s ws =
        (if (s'.thread t)._waited = [] then .returns true else .freezes, s') ∧
      Enlists t s s' ∧ s'.Linked := by
  induction ws generalizing s freeze with
  | nil =>
    refine ⟨s, ?_, Enlists.refl, hl⟩
    cases freeze with
    | false => simp [register, not_not.mp (mt hfreeze.mpr (by simp))]
    | true => simp [register, hfreeze.mp rfl]
  | cons w ws ih =>
    obtain ⟨hw, hws⟩ := List.nodup_cons.mp hws
    have hrest : ∀ v ∈ ws, v ∉ (s.thread t)._waited :=
      fun v hv => hdisj v (List.mem_cons_of_mem w hv)
    have hrest' : ∀ v ∈ ws, v ∉ w :: (s.thread t)._waited := fun v hv => by
      rw [List.mem_cons, not_or]
      exact ⟨fun he => hw (he ▸ hv), hrest v hv⟩
    have hhead := hstored w List.mem_cons_self
    rw [register]
    cases hans : s.answer w with
    | throws e => simp [stored, hans] at hhead
    | passes =>
      have hnone : (s.waitable w)._exception = none := by simpa [stored, hans] using hhead
      simp only [hnone]
      exact ih hl hws hrest hfreeze fun v hv => hstored v (List.mem_cons_of_mem w hv)
    | registers =>
      obtain ⟨hen, hl', hwaited⟩ := enlist_spec hl (hdisj w List.mem_cons_self) hans
      have hmore : true = true ↔ w :: (s.thread t)._waited ≠ [] := by simp
      rw [← hwaited] at hmore hrest'
      obtain ⟨s', heq, hen', hlinked⟩ := ih hl' hws hrest' hmore fun v hv =>
        (hen.stored v).trans (hstored v (List.mem_cons_of_mem w hv))
      exact ⟨s', heq, hen.trans hen', hlinked⟩

theorem register_orderly (hl : s.Linked) (hws : ws.Nodup) (hempty : (s.thread t)._waited = [])
    (ho : s.Orderly ws) :
    (∃ e, ws.findSome? s.stored = some e ∧ register t false s ws = (.throws e, s)) ∨
      ws.findSome? s.stored = none ∧ ∃ s', register t false s ws =
          (if (s'.thread t)._waited = [] then .returns true else .freezes, s') ∧
        Enlists t s s' ∧ s'.Linked := by
  have hall : ∀ l : List (Ref T W), l.Nodup → (∀ w ∈ l, s.stored w = none) →
      l.findSome? s.stored = none ∧ ∃ s', register t false s l =
          (if (s'.thread t)._waited = [] then .returns true else .freezes, s') ∧
        Enlists t s s' ∧ s'.Linked := fun l hn hs =>
    ⟨List.findSome?_eq_none_iff.mpr hs,
      register_spec hl hn (by simp [hempty]) (by simp [hempty]) hs⟩
  induction ws with
  | nil => exact Or.inr (hall [] List.nodup_nil (by simp))
  | cons w ws ih =>
    have hnodup := (List.nodup_cons.mp hws).2
    rw [Orderly] at ho
    cases hans : s.answer w with
    | registers =>
      rw [hans] at ho
      have hw : s.stored w = none := by simp [stored, hans]
      exact Or.inr (hall _ hws (by simpa [hw] using ho))
    | throws e =>
      exact Or.inl ⟨e, by simp [stored, hans], by simp [register, hans]⟩
    | passes =>
      rw [hans] at ho
      cases hexc : (s.waitable w)._exception with
      | some e =>
        have hun : s.unwait_all t = s := by simp [unwait_all, hempty]
        exact Or.inl ⟨e, by simp [stored, hans, hexc],
          by simp [register, hans, hexc, hun, assert_eq_self hempty]⟩
      | none =>
        have hw : s.stored w = none := by simp [stored, hans, hexc]
        simpa [register, hans, hexc, hw] using ih hnodup (ho.resolve_left (not_not_intro hw))

omit [DecidableEq W] in
theorem pause_eq (hstate : (s.thread t)._state = .running) (ht : t ∈ s._running) :
    s.pause t timeout = { s with
      thread := Function.update s.thread t { s.thread t with
        timed := timeout, _timeout := (s.thread t)._timeout && !timeout, _state := .frozen }
      _running := s._running.erase t
      _frozen := s._frozen.insert t
      _current := none } := by
  simp [pause, _freeze, assert, Scheduler.setThread, hstate, ht]

omit [DecidableEq W] in
theorem pause_thread : (s.pause t timeout).thread =
    Function.update s.thread t { s.thread t with
      timed := timeout, _timeout := (s.thread t)._timeout && !timeout, _state := .frozen } := by
  simp [Scheduler.pause, _freeze, assert, Scheduler.setThread]

omit [DecidableEq W] in
theorem Sound.pause (h : s.Sound none) (ht : s._current = some t) (hen : Enlists t s s')
    (hl : s'.Linked) (hmore : (s'.thread t)._waited ≠ []) :
    (s'.pause t timeout).Sound none := by
  have hmem := h.placed.current t ht
  have hstate : (s.thread t)._state = .running := by simpa using h.placed.running t hmem
  have hsame := hen.state
  have hwaited : ∀ u, u ≠ t → (s'.thread u)._waited = (s.thread u)._waited := by
    intro u hu
    obtain ⟨l, hl⟩ := hen.thread
    rw [hl, Function.update_of_ne hu]
  obtain ⟨hstarting, hrunning, hfrozen⟩ := hen.sets
  have hnot : t ∉ s._starting := fun hm => (h.placed.starting t hm).2 hmem
  rw [pause_eq ((hsame t).trans hstate) (hrunning ▸ hmem)]
  refine ⟨⟨hen.broken.trans h.placed.unbroken, ?_, ?_, ?_, ?_, ?_, ?_, ?_, ?_, ?_⟩,
    ⟨?_, hl.waiters_nodup, ?_⟩, ?_⟩
  · intro u hu
    rw [hstarting] at hu
    have hne : u ≠ t := fun he => hnot (he ▸ hu)
    have hstart := h.placed.starting u hu
    simp [hne, hsame, hstart.1, hrunning, List.mem_erase_of_ne hne, hstart.2]
  · intro u hu
    rw [hrunning, h.placed.running_nodup.mem_erase_iff] at hu
    simpa [hu.1, hsame] using h.placed.running u hu.2
  · intro u hu
    by_cases hne : u = t
    · subst hne
      simp at hu
    · have hactive := h.placed.active u (by simpa [hne, hsame] using hu)
      simpa [hstarting, hrunning, List.mem_erase_of_ne hne] using hactive
  · intro u
    by_cases hne : u = t
    · subst hne
      simp [List.mem_insert_iff]
    · simpa [hne, hsame, hfrozen, List.mem_insert_iff] using h.placed.frozen u
  · exact hstarting ▸ h.placed.starting_nodup
  · exact hrunning ▸ h.placed.running_nodup.erase t
  · exact hfrozen ▸ List.Nodup.insert h.placed.frozen_nodup
  · simp
  · simp
  · intro u w
    by_cases hne : u = t
    · subst hne
      simpa using hl.registered u w
    · simpa [hne] using hl.registered u w
  · intro u
    by_cases hne : u = t
    · subst hne
      simpa using hl.waited_nodup u
    · simpa [hne] using hl.waited_nodup u
  · intro u
    by_cases hne : u = t
    · subst hne
      simpa [Waits] using hmore
    · simpa [Waits, hne, hsame, hwaited u hne] using h.waits u

theorem wait_spec {d : Bool} (h : s.Sound none) (ht : s._current = some t) (hws : ws.Nodup)
    (ho : s.Orderly ws) :
    (∃ e, ws.findSome? s.stored = some e ∧ s.wait t ws d = (.throws e, s)) ∨
      ws.findSome? s.stored = none ∧ ∃ s', Enlists t s s' ∧ s'.Linked ∧
        s.wait t ws d = if (s'.thread t)._waited = [] then (.returns true, s')
          else (.freezes, s'.pause t d) := by
  have hstate : (s.thread t)._state = .running := by
    simpa using h.placed.running t (h.placed.current t ht)
  have hempty : (s.thread t)._waited = [] := by
    by_contra hne
    simp [(h.waits t).mpr hne] at hstate
  rcases register_orderly h.linked hws hempty ho with ⟨e, he, hr⟩ | ⟨hnone, s', hr, hen, hl⟩
  · refine Or.inl ⟨e, he, ?_⟩
    simp [Scheduler.wait, assert_eq_self hstate, assert_eq_self hempty, hr]
  · refine Or.inr ⟨hnone, s', hen, hl, ?_⟩
    split_ifs at hr ⊢ <;>
      simp [Scheduler.wait, assert_eq_self hstate, assert_eq_self hempty, hr]

omit [DecidableEq W] in
theorem Sound.enlists (h : s.Sound ending) (hen : Enlists t s s') (hl : s'.Linked)
    (hempty : (s'.thread t)._waited = []) (hstate : (s.thread t)._state = .running) :
    s'.Sound ending := by
  refine ⟨h.placed.same hen.state hen.sets.1 hen.sets.2.1 hen.sets.2.2
    hen.current hen.broken, hl, fun u => ?_⟩
  by_cases hne : u = t
  · subst hne
    simp [Waits, hempty, hen.state u, hstate]
  · obtain ⟨l, hl⟩ := hen.thread
    rw [Waits, hl, Function.update_of_ne hne]
    exact h.waits u

theorem Sound.wait (h : s.Sound none) (ht : s._current = some t) (hws : ws.Nodup)
    (ho : s.Orderly ws) :
    (s.wait t ws timeout).2.Sound none := by
  have hstate : (s.thread t)._state = .running := by
    simpa using h.placed.running t (h.placed.current t ht)
  rcases wait_spec (d := timeout) h ht hws ho with ⟨e, -, heq⟩ | ⟨-, s', hen, hl, heq⟩
  · rw [heq]
    exact h
  · rw [heq]
    split_ifs with hempty
    · exact h.enlists hen hl hempty hstate
    · exact h.pause ht hen hl hempty

end Scheduler

end elle.reactor
