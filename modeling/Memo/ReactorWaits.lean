-- When a wait leaves no registration behind, and throws the exception that a
-- waitable held: nothing else raises into the thread in the meantime.
import Memo.ReactorEnds
import Memo.Runs

namespace elle.reactor

variable {T W E : Type} [DecidableEq T]

def Exn.terminates : Exn T E → Bool
  | .Terminate _ => true
  | .error _ => false

/-- The exception of a waitable is the one that the thread throws when it runs again: it is the
first one of its wait, and nothing is pending; or another waitable came first. -/
def Thread.Takes (th : Thread T W E) (e : Exn T E) : Prop :=
  th.held ≠ none ∨
    th._exception = none ∧ (e.terminates = true → th._interruptible = true)

/-- The exception that the thread throws when it runs again is the one that a waitable held. -/
def Thread.Kept (th : Thread T W E) : Prop :=
  ∀ e, th.held = some e → th._exception = some e ∧
    (e.terminates = true → th._interruptible = true)

theorem Thread.Kept.woken [DecidableEq W] {th : Thread T W E} (h : th.Kept) {w : Ref T W}
    {x : Option (Exn T E)} (hx : ∀ e, x = some e → th.Takes e) : (th.woken w x).Kept := by
  intro e he
  cases hheld : th.held with
  | some e' =>
    obtain rfl : e' = e := by simpa [Thread.woken, hheld] using he
    simpa [Thread.woken, (h e' hheld).1] using (h e' hheld).2
  | none =>
    obtain rfl : x = some e := by simpa [Thread.woken, hheld] using he
    obtain ⟨hnone, hint⟩ := (hx e rfl).resolve_left (by simp [hheld])
    simpa [Thread.woken, hnone] using hint

theorem Thread.Takes.woken [DecidableEq W] {th : Thread T W E} {e : Exn T E} (h : th.Takes e)
    {w : Ref T W} {x : Option (Exn T E)} : (th.woken w x).Takes e := by
  cases x with
  | none => simpa [Thread.Takes, Thread.woken] using h
  | some e' => exact Or.inl (by cases hh : th.held <;> simp [Thread.woken, hh])

namespace Scheduler

variable {s s' : Scheduler T W E} {t u : T} {w : Ref T W} {v : W}
variable {th : Thread T W E} {ending : Option T}

/-- Each thread of the list takes the exception with which the waitable signals, if any. -/
def Heard (s : Scheduler T W E) (w : Ref T W) (l : List T) : Prop :=
  ∀ e, (s.waitable w)._exception = some e → ∀ u ∈ l, (s.thread u).Takes e

/-- The waiters of the scope that ends with the thread take its exception. -/
def SlotHeard (s : Scheduler T W E) (t : T) : Prop :=
  ∀ v n e, (s.thread t).job = some v → s.kind v = .scope n e → n - 1 = 0 →
    s.Heard (.other v) (s.waitable (.other v))._waiters

/-- The waiters of a thread, and those of its scope, take their exceptions. -/
def EndHeard (s : Scheduler T W E) (t : T) : Prop :=
  s.Heard (.thread t) (s.waitable (.thread t))._waiters ∧ s.SlotHeard t

/-- The exceptions of the waitables are still those that the threads will throw, and the running
thread has thrown its own. -/
structure Kept (s : Scheduler T W E) : Prop where
  thread : ∀ t, (s.thread t).Kept
  current : ∀ t, s._current = some t → (s.thread t).held = none

theorem Kept.setThread (h : s.Kept) (hth : th.Kept)
    (hc : s._current = some t → th.held = none) : (s.setThread t th).Kept := by
  refine ⟨fun u => ?_, fun u hu => ?_⟩
  · by_cases hut : u = t
    · subst hut
      simpa using hth
    · simpa [hut] using h.thread u
  · by_cases hut : u = t
    · subst hut
      simpa using hc hu
    · simpa [hut] using h.current u hu

theorem Kept.same (h : s.Kept) (hheld : th.held = (s.thread t).held)
    (hexc : th._exception = (s.thread t)._exception)
    (hint : th._interruptible = (s.thread t)._interruptible) : (s.setThread t th).Kept := by
  refine h.setThread (fun e he => ?_) fun hc => hheld.trans (h.current t hc)
  rw [hexc, hint]
  exact h.thread t e (hheld ▸ he)

variable [DecidableEq W]

theorem Sound.kept_wake_list {l : List T} (h : s.Sound ending) (hk : s.Kept) (hl : l.Nodup)
    (hmem : ∀ u ∈ l, u ∈ (s.waitable w)._waiters) (hh : s.Heard w l) :
    (s.wake_list w l).Kept := by
  have hthread := wake_list_thread (s := s) (w := w) hl
  refine ⟨fun u => ?_, fun u hu => ?_⟩
  · rw [hthread]
    split_ifs with hul
    · exact (hk.thread u).woken fun e he => hh e he u hul
    · exact hk.thread u
  · rw [(wake_list_rest l).2.2.2] at hu
    have hnot : u ∉ l := fun hul => h.placed.not_frozen_of_running (h.placed.current u hu)
      (h.frozen_of_mem (hmem u hul))
    rw [hthread, if_neg hnot]
    exact hk.current u hu

theorem Kept.setWaitable {x : Waitable T E} (h : s.Kept) : (s.setWaitable w x).Kept :=
  ⟨h.thread, h.current⟩

omit [DecidableEq T] in
theorem Kept.setKind {k : Kind T E} (h : s.Kept) : (s.setKind v k).Kept :=
  ⟨h.thread, h.current⟩

theorem Sound.kept_wake_all (h : s.Sound ending) (hk : s.Kept)
    (hh : s.Heard w (s.waitable w)._waiters) : (s.wake_all w).Kept :=
  (h.kept_wake_list hk (h.linked.waiters_nodup w) (fun _ hu => hu) hh).setWaitable

theorem Sound.kept_on_signaled (h : s.Sound ending) (hk : s.Kept) (hh : s.SlotHeard t) :
    (s.on_signaled t).Kept := by
  unfold Scheduler.on_signaled
  split
  · exact hk
  case h_2 v hv =>
    split
    case h_1 n e hkind =>
      dsimp only
      split_ifs with hn
      · exact h.setKind.kept_wake_all hk.setKind (hh v n e hv hkind hn)
      · exact hk.setKind
    case h_2 => exact hk

theorem Sound.kept_end (h : s.Sound ending) (hk : s.Kept) (hh : s.EndHeard t) :
    (s._signal (.thread t)).Kept := by
  refine h.wake_all.kept_on_signaled (h.kept_wake_all hk hh.1) fun v n e hv hkind hn => ?_
  have hthread := wake_all_thread (h.linked.waiters_nodup (.thread t))
  have hjob : (s.thread t).job = some v := by
    rw [hthread] at hv
    split_ifs at hv <;> exact hv
  have hslot := hh.2 v n e hjob (by rwa [wake_all_rest.1] at hkind) hn
  have hne : (.other v : Ref T W) ≠ .thread t := nofun
  have hother : (s.wake_all (.thread t)).waitable (.other v) = s.waitable (.other v) := by
    rw [wake_all_waitable, Function.update_of_ne hne]
  rw [hother]
  intro x hx u hu
  rw [hother] at hx
  rw [hthread]
  split_ifs
  · exact (hslot x hx u hu).woken
  · exact hslot x hx u hu

theorem Sound.kept_abort (h : s.Sound ending) (hk : s.Kept)
    (ht : (s.thread t)._state = .frozen) : (s._wait_abort t).Kept := by
  have hset : (s.setThread t (s.thread t).aborted).Kept := hk.same rfl rfl rfl
  rw [wait_abort_eq h.linked ht]
  exact ⟨hset.thread, hset.current⟩

/-- What a request to terminate the thread must not hide. -/
def Tells (s : Scheduler T W E) (t : T) : Prop :=
  s._current ≠ some t →
    if t ∈ s._starting then (s.drop_starting t).EndHeard t
    else (s.thread t)._terminating = true ∨ (s.thread t).held = none

omit [DecidableEq T] [DecidableEq W] in
theorem terminated_kept {n : T} (hk : th.Kept) (h : th._terminating = true ∨ th.held = none) :
    (th.terminated n).Kept := by
  unfold Thread.terminated
  split_ifs with hterm
  · exact hk
  · intro e he
    simp [Thread.aborted, h.resolve_left hterm] at he
  · intro e he
    simp [h.resolve_left hterm] at he

theorem Sound.kept_terminate_one (h : s.Sound ending) (hk : s.Kept) (ht : s.Tells t) :
    (s._terminate t).Kept := by
  by_cases hc : s._current = some t
  · rwa [Scheduler._terminate, if_pos hc]
  · have htells := ht hc
    by_cases hs : t ∈ s._starting
    · rw [if_pos hs] at htells
      have hset : (s.setThread t { s.thread t with _state := .done }).Kept := hk.same rfl rfl rfl
      have hdrop : (s.drop_starting t).Kept := ⟨hset.thread, hset.current⟩
      rw [terminate_starting hc hs]
      exact (h.drop_starting hs).kept_end hdrop htells
    · rw [if_neg hs] at htells
      have hset : (s.setThread t ((s.thread t).terminated t)).Kept :=
        hk.setThread (terminated_kept (hk.thread t) htells) fun hcur => absurd hcur hc
      refine ⟨fun u => ?_, fun u hu => ?_⟩
      · rw [terminate_one_thread h.linked hc hs]
        exact hset.thread u
      · rw [terminate_one_current] at hu
        rw [terminate_one_thread h.linked hc hs]
        exact hset.current u hu

/-- What `Scheduler::terminate` must not hide. -/
def Untold (s : Scheduler T W E) : Prop :=
  ∀ t ∈ s.terminated, (s.thread t)._terminating = true ∨ (s.thread t).held = none

theorem Sound.kept_terminate (h : s.Sound ending) (hk : s.Kept) (hu : s.Untold) :
    s.terminate.Kept := by
  refine ⟨fun t => ?_, fun t ht => ?_⟩
  · rw [terminate_thread h]
    split_ifs with _ hin
    · exact hk.thread t
    · exact terminated_kept (hk.thread t) (hu t hin)
    · exact hk.thread t
  · rw [terminate_current] at ht
    have hnot : t ∉ s.terminated := fun hin => by
      rcases mem_terminated.mp hin with hru | hf
      · exact hru.2 ht
      · exact h.placed.not_frozen_of_running (h.placed.current t ht) ((h.placed.frozen t).mp hf)
    have hns : t ∉ s._starting := fun hs => (h.placed.starting t hs).2 (h.placed.current t ht)
    rw [terminate_thread h, if_neg hns, if_neg hnot]
    exact hk.current t ht

theorem Kept.closing {e : Option (Exn T E)} (hk : s.Kept) : (s.closing t e).Kept := by
  have hhalted : (s.halted t e).Kept := hk.same rfl rfl rfl
  rw [closing_eq]
  split_ifs
  · exact hhalted.setWaitable
  · exact hhalted

omit [DecidableEq T] [DecidableEq W] in
theorem Kept.leave (hk : s.Kept) : { s with _current := none }.Kept :=
  ⟨hk.thread, by simp⟩

theorem Sound.kept_finish {e : Option (Exn T E)} (h : s.Sound none) (hk : s.Kept)
    (ht : s._current = some t) (hh : (s.closing t e).EndHeard t)
    (hu : s.rethrows t e = true → { s.ended t e with _current := none }.Untold) :
    (s.finish t e).Kept := by
  have hended : (s.ended t e).Kept := (h.closing ht).kept_end hk.closing hh
  unfold Scheduler.finish
  dsimp only
  split_ifs with hre
  · have hterm := (h.ended ht).leave.kept_terminate hended.leave (hu hre)
    exact ⟨hterm.thread, hterm.current⟩
  · exact ⟨hended.thread, by simp⟩

omit [DecidableEq W] in
theorem Enlists.kept (h : Enlists t s s') (hk : s.Kept) : s'.Kept := by
  refine ⟨fun u => ?_, fun u hu => ?_⟩
  · rw [h.same u]
    exact hk.thread u
  · rw [h.current] at hu
    rw [h.same u]
    exact hk.current u hu

theorem Sound.kept_wait {ws : List (Ref T W)} {timeout : Bool} (h : s.Sound none) (hk : s.Kept)
    (ht : s._current = some t) (hws : ws.Nodup) (ho : s.Orderly ws) :
    (s.wait t ws timeout).2.Kept := by
  rcases wait_spec (d := timeout) h ht hws ho with ⟨e, -, heq⟩ | ⟨-, s', hen, -, heq⟩
  · rw [heq]
    exact hk
  · rw [heq]
    split_ifs
    · exact hen.kept hk
    · refine ⟨fun u => ?_, by simp [Scheduler.pause]⟩
      rw [pause_thread]
      by_cases hu : u = t
      · subst hu
        rw [Function.update_self]
        exact (hen.kept hk).thread u
      · simpa [hu] using (hen.kept hk).thread u

/-- What must hold of a step: nothing hides the exception that a waitable held from the thread
that waited for it. -/
def Undisturbed (s : Scheduler T W E) : Act T W E → Prop
  | .terminate t => s.Tells t
  | .terminate_now t _ => ∀ u, s._current = some u → s.Tells t
  | .terminate_all => s.Untold
  | .terminate_all_now => ∀ u, s._current = some u → s.Untold
  | .finish e => ∀ t, s._current = some t → (s.closing t e).EndHeard t ∧
      (s.rethrows t e = true → { s.ended t e with _current := none }.Untold)
  | .raise t _ => (s.thread t).held = none
  | .raise_and_wake t _ => (s.thread t).held = none
  | .signal v => s.Heard (.other v) (s.waitable (.other v))._waiters
  | .signal_one v => s.Heard (.other v) ((s.waitable (.other v))._waiters.take 1)
  | .open_barrier v => s.kind v = .barrier false →
      s.Heard (.other v) (s.waitable (.other v))._waiters
  | .raise_barrier v e => s.kind v = .barrier false →
      ∀ u ∈ (s.waitable (.other v))._waiters, (s.thread u).Takes e
  | _ => True

theorem Kept.create {m : Bool} {j : Option W} (hk : s.Kept) : (s.create t m j).Kept := by
  have hset : (s.setThread t { _managed := m, _state := .running, job := j }).Kept :=
    hk.setThread (by simp [Thread.Kept]) (by simp)
  have hnew : { (s.setThread t { _managed := m, _state := .running, job := j }).setWaitable
      (.thread t) {} with _starting := s._starting.insert t }.Kept := ⟨hset.thread, hset.current⟩
  unfold Scheduler.create
  split_ifs
  · dsimp only
    split
    · exact hnew
    · split
      · exact hnew.setKind
      · exact hnew
  · exact hk

omit [DecidableEq W] in
theorem Kept.schedule (hk : s.Kept) : (s.schedule t).2.Kept := by
  unfold Scheduler.schedule
  split_ifs with ht
  · have hset : ∀ th : Thread T W E, th.held = none →
        ({ s.assert ((s.thread t)._state = State.running) with _current := some t }.setThread t
          th).Kept := by
      intro th hheld
      refine ⟨fun u => ?_, fun u hu => ?_⟩
      · by_cases hut : u = t
        · subst hut
          simp [Thread.Kept, hheld]
        · simpa [hut] using hk.thread u
      · obtain rfl : t = u := Option.some.inj hu
        simpa using hheld
    dsimp only
    split
    · exact hset _ rfl
    · split_ifs <;> exact hset _ rfl
    · exact hset _ rfl
  · exact hk

omit [DecidableEq W] in
theorem Kept.interruptible {state raise : Bool} (hk : s.Kept) (ht : s._current = some t) :
    (s.interruptible t state raise).2.Kept := by
  have hheld := hk.current t ht
  have hset : ∀ th : Thread T W E, th.held = none → (s.setThread t th).Kept := fun th hth =>
    hk.setThread (by simp [Thread.Kept, hth]) fun _ => hth
  unfold Scheduler.interruptible
  dsimp only
  split
  · split_ifs <;> exact hset _ hheld
  · exact hset _ hheld

omit [DecidableEq W] in
theorem Kept.raise {e : Exn T E} (hk : s.Kept) (ht : (s.thread t).held = none) :
    (s.raise t e).Kept :=
  hk.setThread (by simp [Thread.Kept, ht]) fun _ => ht

theorem Sound.kept_raise_and_wake {e : Exn T E} (h : s.Sound ending) (hk : s.Kept)
    (ht : (s.thread t).held = none) : (s.raise_and_wake t e).Kept := by
  rw [raise_and_wake_eq h.linked]
  split_ifs with hfrozen
  · exact h.raise.kept_abort (hk.raise ht) (by simpa [Scheduler.raise] using hfrozen)
  · exact hk.raise ht

theorem Sound.kept_timeout (h : s.Sound ending) (hk : s.Kept) : (s._wait_timeout t).Kept := by
  have hset : (s.setThread t { s.thread t with _timeout := true }).Kept := hk.same rfl rfl rfl
  have hsound : (s.setThread t { s.thread t with _timeout := true }).Sound ending :=
    h.setThread rfl rfl
  unfold Scheduler._wait_timeout
  split_ifs with hfrozen
  · exact hsound.kept_abort hset (by simpa using hfrozen)
  · exact hk

theorem Sound.kept_signal_one (h : s.Sound ending) (hk : s.Kept)
    (hh : s.Heard w ((s.waitable w)._waiters.take 1)) : (s._signal_one w).Kept := by
  unfold Scheduler._signal_one
  split
  · exact hk.setWaitable
  case h_2 t rest hcons =>
    rw [hcons] at hh
    have hmem : ∀ u ∈ [t], u ∈ (s.waitable w)._waiters := by simp [hcons]
    exact (h.kept_wake_list hk (List.nodup_singleton t) hmem hh).setWaitable

theorem Sound.kept_open (h : s.Sound ending) (hk : s.Kept)
    (hh : s.kind v = .barrier false → s.Heard (.other v) (s.waitable (.other v))._waiters) :
    (s.open_barrier v).Kept := by
  unfold Scheduler.open_barrier
  split
  case h_1 hkind => exact h.setKind.kept_wake_all hk.setKind (hh hkind)
  · exact hk.setWaitable
  · exact hk

theorem Sound.kept_raise_barrier {e : Exn T E} (h : s.Sound ending) (hk : s.Kept)
    (hh : s.kind v = .barrier false →
      ∀ u ∈ (s.waitable (.other v))._waiters, (s.thread u).Takes e) :
    (s.raise_barrier v e).Kept := by
  have hsound : (s._raise (.other v) (some e)).Sound ending := h._raise
  have hkept : (s._raise (.other v) (some e)).Kept := hk.setWaitable
  unfold Scheduler.raise_barrier
  split
  · refine Kept.setWaitable (hsound.kept_open hkept fun hclosed x hx u hu => ?_)
    obtain rfl : e = x := by simpa [Scheduler._raise] using hx
    exact hh hclosed u (by simpa [Scheduler._raise] using hu)
  · exact hk

theorem Kept.fail_scope {e : Exn T E} (hk : s.Kept) : (s.fail_scope v e).Kept := by
  unfold Scheduler.fail_scope
  split
  · exact hk.setKind.setWaitable
  · exact hk

theorem Kept.close_barrier (hk : s.Kept) : (s.close_barrier v).Kept := by
  unfold Scheduler.close_barrier
  split
  · exact hk.setWaitable.setKind
  · exact hk

theorem Sound.kept_terminate_now {suicide : Bool} (h : s.Sound none) (hk : s.Kept)
    (hu : s._current = some u) (ht : s.Tells t) : (s._terminate_now t u suicide).2.Kept := by
  have hone := h.kept_terminate_one hk ht
  unfold Scheduler._terminate_now
  dsimp only
  split_ifs with _ _ hdone
  · exact hk
  · exact hk
  · exact hone
  · exact h._terminate.kept_wait hone (terminate_one_current.trans hu) (List.nodup_singleton _)
      (orderly_of_stored fun w hw => List.mem_singleton.mp hw ▸ stored_of_not_done hdone)

theorem Sound.kept_act {a : Act T W E} (h : s.Sound none) (hk : s.Kept) (hw : s.Waiting a)
    (ha : s.Undisturbed a) : (s.act a).Kept := by
  cases a with
  | create t m j => exact hk.create
  | round => exact ⟨hk.thread, hk.current⟩
  | schedule t => exact hk.schedule
  | yield => exact hk.leave
  | wait ws timeout => exact running_rule hk fun u hu => h.kept_wait hk hu hw.1 hw.2
  | finish e => exact running_rule hk fun u hu => h.kept_finish hk hu (ha u hu).1 (ha u hu).2
  | interruptible state raise => exact running_rule hk fun u hu => hk.interruptible hu
  | timeout t => exact h.kept_timeout hk
  | terminate t => exact h.kept_terminate_one hk ha
  | terminate_now t suicide =>
    exact running_rule hk fun u hu => h.kept_terminate_now hk hu (ha u hu)
  | terminate_all => exact h.kept_terminate hk ha
  | terminate_all_now =>
    exact running_rule hk fun u hu => h.terminate.kept_wait (h.kept_terminate hk (ha u hu))
      (terminate_current.trans hu) (terminated_orderly h).1 (terminated_orderly h).2
  | raise t e => exact hk.raise ha
  | raise_and_wake t e => exact h.kept_raise_and_wake hk ha
  | signal v => exact plainly_rule (f := (·._signal (.other v))) hk (h.kept_wake_all hk ha)
  | signal_one v =>
    exact plainly_rule (f := (·._signal_one (.other v))) hk (h.kept_signal_one hk ha)
  | raise_plain v e => exact plainly_rule (f := (·._raise (.other v) e)) hk hk.setWaitable
  | open_barrier v => exact h.kept_open hk ha
  | close_barrier v => exact hk.close_barrier
  | raise_barrier v e => exact h.kept_raise_barrier hk ha
  | fail_scope v e => exact hk.fail_scope

/-- What a step must do about the waits: no assertion fails, a thread that does not wait is
registered nowhere, and a wait that a waitable ends by an exception throws it. -/
structure WaitsEnd (s : Scheduler T W E) (a : Act T W E) : Prop where
  unbroken : (s.act a).broken = false
  forgotten : ∀ t, ((s.act a).thread t)._state ≠ .frozen →
    ((s.act a).thread t)._waited = [] ∧ ∀ w, t ∉ ((s.act a).waitable w)._waiters
  at_once : ∀ t ws timeout e, s._current = some t → a = .wait ws timeout →
    ws.findSome? s.stored = some e → (s.step a).1 = .throws e
  later : ∀ t e, s._current = none → t ∈ s._running → a = .schedule t →
    (s.thread t).held = some e → (s.step a).1 = .throws e

theorem Sound.waitsEnd {a : Act T W E} (h : s.Sound none) (hk : s.Kept) (ha : s.Waiting a) :
    s.WaitsEnd a := by
  have hact := h.act ha
  refine ⟨hact.placed.unbroken, fun t ht => ?_, ?_, ?_⟩
  · have hempty := hact.waited_nil ht
    exact ⟨hempty, fun w hw => by simpa [hempty] using (hact.linked.registered t w).mp hw⟩
  · rintro t ws timeout e ht rfl he
    have hstep : s.step (.wait ws timeout) = s.wait t ws timeout := by
      simp [step, Scheduler.running, ht]
    rw [hstep]
    rcases wait_spec (d := timeout) h ht ha.1 ha.2 with ⟨e', he', heq⟩ | ⟨hnone, -⟩
    · rw [heq]
      rw [he, Option.some.injEq] at he'
      rw [he']
    · simp [he] at hnone
  · rintro t e hc hmem rfl he
    obtain ⟨hexc, hint⟩ := hk.thread t e he
    have hstep : s.step (.schedule t) = s.schedule t := rfl
    rw [hstep, Scheduler.schedule, if_pos ⟨hc, hmem⟩]
    cases e with
    | Terminate name => simp [hexc, hint rfl]
    | error x => simp [hexc]

/-- In a run whose waits are orderly and whose steps hide no exception, each wait ends as it
should. -/
theorem run_waitsEnd (kind : W → Kind T E) (as : List (Act T W E))
    (h : runs.Always (fun s a => Waiting s a ∧ Undisturbed s a) act (init kind) as) :
    ∀ done a, done ++ [a] <+: as → (done.foldl act (init kind)).WaitsEnd a := by
  intro done a hp
  have hinv : (done.foldl act (init kind)).Sound none ∧ (done.foldl act (init kind)).Kept :=
    h.invariant (I := fun s => s.Sound none ∧ s.Kept)
      ⟨init_sound kind, by constructor <;> simp [init, Thread.Kept]⟩
      (fun s a hi ha => ⟨hi.1.act ha.1, hi.1.kept_act hi.2 ha.1 ha.2⟩)
      ((List.prefix_append done [a]).trans hp)
  exact hinv.1.waitsEnd hinv.2 (h.at hp).1

/-- A thread waits for two managed ones, of which the first ends with an exception. -/
theorem managed_exception_is_thrown :
    (([.create 0 false none, .create 1 true none, .create 2 true none, .round, .schedule 0,
        .wait [.thread 1, .thread 2] false, .schedule 1, .finish (some (.error ())), .schedule 2,
        .finish none] : List (Act Nat Unit Unit)).foldl act (init fun _ => .plain)).WaitsEnd
      (.schedule 0) := by
  refine run_waitsEnd (fun _ => .plain) _ ?_ _ _ (List.prefix_refl _)
  refine ⟨⟨trivial, trivial⟩, ⟨trivial, trivial⟩, ⟨trivial, trivial⟩, ⟨trivial, trivial⟩,
    ⟨trivial, trivial⟩, ⟨⟨by decide, orderly_of_stored (by decide)⟩, trivial⟩,
    ⟨trivial, trivial⟩, ⟨trivial, fun t ht => ?_⟩, ⟨trivial, trivial⟩, ⟨trivial, fun t ht => ?_⟩,
    ⟨trivial, trivial⟩, trivial⟩
  · obtain rfl : 1 = t := Option.some.inj ht
    refine ⟨⟨fun e _ u hu => ?_, fun v n e hv => ?_⟩, fun hre => absurd hre (by decide)⟩
    · obtain rfl : u = 0 := List.mem_singleton.mp hu
      exact Or.inr ⟨rfl, fun _ => rfl⟩
    · exact absurd (show none = some v from hv) (by simp)
  · obtain rfl : 2 = t := Option.some.inj ht
    refine ⟨⟨fun e he => ?_, fun v n e hv => ?_⟩, fun hre => absurd hre (by decide)⟩
    · exact absurd (show none = some e from he) (by simp)
    · exact absurd (show none = some v from hv) (by simp)

/-- A wait on a closed barrier and on an opened one that holds an exception: it is registered
with the first, and `Thread::wait` fails before it throws the exception of the second. -/
theorem stored_exception_breaks_wait :
    ¬(([.create 0 false none, .round, .raise_barrier true (.error ()), .schedule 0] :
        List (Act Nat Bool Unit)).foldl act (init fun _ => .barrier false)).WaitsEnd
      (.wait [.other false, .other true] false) := by
  intro h
  exact absurd h.unbroken (by decide)

-- The exception of a managed thread that is done leaves the registration with the other
-- waitable, and the thread that waited goes on.
example : ((([.create 0 false none, .create 1 true none, .round, .schedule 1,
    .finish (some (.error ())), .schedule 0, .wait [.other (), .thread 1] false] :
    List (Act Nat Unit Unit)).foldl act (init fun _ => .plain)).waitable (.other ()))._waiters =
    [0] := by decide

end Scheduler

end elle.reactor
