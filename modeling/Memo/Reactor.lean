-- The threads of a reactor and what they wait for. A thread that waits is
-- registered with each of its waitables, and frozen until each of them has
-- signalled it or its wait is aborted. The code that the threads run is not
-- modelled: the running thread may take any action.
import Mathlib.Data.List.Basic

namespace elle.reactor

/-- An exception: the one that terminates the thread of that name, or another. -/
inductive Exn (T E : Type)
  | Terminate (name : T)
  | error (e : E)
deriving DecidableEq

/-- `Waitable*`: a thread, or another waitable. -/
inductive Ref (T W : Type)
  | thread (t : T)
  | other (w : W)
deriving DecidableEq

/-- What every waitable has. -/
structure Waitable (T E : Type) where
  _waiters : List T := []
  _exception : Option (Exn T E) := none

/-- What the waitables that are not threads add to it. -/
inductive Kind (T E : Type)
  | plain
  | barrier (_opened : Bool)
  | scope (_running : Int) (_exception : Option (Exn T E))

/-- `Thread::State` -/
inductive State
  | running | frozen | done
deriving DecidableEq

structure Thread (T W E : Type) where
  _managed : Bool := false
  _state : State := .done
  _waited : List (Ref T W) := []
  _exception : Option (Exn T E) := none
  _exception_thrown : Option (Exn T E) := none
  _timeout : Bool := false
  _terminating : Bool := false
  _interruptible : Bool := true
  /-- The scope whose slot is connected to `on_signaled`. -/
  job : Option W := none
  /-- The wait in progress has a timeout. -/
  timed : Bool := false
  /-- The first exception that a waitable of the wait in progress held when it signalled the
  thread. The code does not keep it. -/
  held : Option (Exn T E) := none

/-- A thread that does not exist yet, or no more, is done. -/
structure Scheduler (T W E : Type) where
  thread : T → Thread T W E := fun _ => {}
  waitable : Ref T W → Waitable T E := fun _ => {}
  kind : W → Kind T E
  _starting : List T := []
  _running : List T := []
  _frozen : List T := []
  _current : Option T := none
  /-- An assertion failed. -/
  broken : Bool := false

/-- How a call ends for the thread that makes it. -/
inductive Outcome (T E : Type)
  | continues
  | freezes
  | returns (b : Bool)
  | throws (e : Exn T E)
deriving DecidableEq

variable {T W E : Type} [DecidableEq T] [DecidableEq W]

namespace Scheduler

/-- A scheduler without threads, and waitables of these kinds. -/
def init (kind : W → Kind T E) : Scheduler T W E where
  kind := kind

variable (s : Scheduler T W E) (t : T) (w : Ref T W) (v : W)

def setThread (th : Thread T W E) : Scheduler T W E :=
  { s with thread := Function.update s.thread t th }

def setWaitable (x : Waitable T E) : Scheduler T W E :=
  { s with waitable := Function.update s.waitable w x }

def setKind (k : Kind T E) : Scheduler T W E :=
  { s with kind := Function.update s.kind v k }

/-- `ELLE_ASSERT` -/
def assert (p : Prop) [Decidable p] : Scheduler T W E :=
  { s with broken := s.broken || !decide p }

/-! ## Waits -/

/-- `Scheduler::_freeze` -/
def _freeze : Scheduler T W E :=
  let s := (s.assert ((s.thread t)._state = .running)).assert (t ∈ s._running)
  { s with _running := s._running.erase t, _frozen := s._frozen.insert t }

/-- `Scheduler::_unfreeze` -/
def _unfreeze : Scheduler T W E :=
  let s := s.assert ((s.thread t)._state = .frozen)
  { s with _frozen := s._frozen.erase t, _running := s._running.insert t }

/-- `_unfreeze`, and the state of the thread with it. -/
def thaw : Scheduler T W E :=
  let s := s._unfreeze t
  s.setThread t { s.thread t with _state := .running }

/-- `Waitable::_unwait` -/
def _unwait : Scheduler T W E :=
  let s := s.assert (t ∈ (s.waitable w)._waiters)
  s.setWaitable w { s.waitable w with _waiters := (s.waitable w)._waiters.erase t }

/-- Each of the waitables of the thread forgets it. -/
def unwait_all : Scheduler T W E :=
  (s.thread t)._waited.foldl (fun s w => s._unwait t w) s

/-- `Thread::_wait_abort` -/
def _wait_abort : Scheduler T W E :=
  let s := (s.assert ((s.thread t)._state = .frozen)).unwait_all t
  (s.setThread t { s.thread t with _waited := [] }).thaw t

/-- `Thread::_wake` -/
def _wake : Scheduler T W E :=
  let th := s.thread t
  let e := (s.waitable w)._exception
  let s := s.setThread t { th with
    _exception := th._exception.or e, held := th.held.or e, _waited := th._waited.erase w }
  if (s.thread t)._waited = [] then s.thaw t else s

/-- The waiters are woken, and the waitable is left without them and without exception. -/
def wake_all : Scheduler T W E :=
  ((s.waitable w)._waiters.foldl (fun s t => s._wake t w) s).setWaitable w {}

/-- The slot that `Scope::run_background` connects to the signal of the job. -/
def on_signaled : Scheduler T W E :=
  match (s.thread t).job with
  | none => s
  | some v =>
    match s.kind v with
    | .scope n e =>
      let s := s.setKind v (.scope (n - 1) e)
      if n - 1 = 0 then s.wake_all (.other v) else s
    | _ => s

/-- `Waitable::_signal` -/
def _signal : Scheduler T W E :=
  match w with
  | .thread t => (s.wake_all (.thread t)).on_signaled t
  | .other v => s.wake_all (.other v)

/-- `Waitable::_signal_one` -/
def _signal_one : Scheduler T W E :=
  match (s.waitable w)._waiters with
  | [] => s.setWaitable w {}
  | t :: rest => (s._wake t w).setWaitable w { _waiters := rest }

/-- `Waitable::_raise` -/
def _raise (e : Option (Exn T E)) : Scheduler T W E :=
  s.setWaitable w { s.waitable w with _exception := e }

/-- `Waitable::_wait` -/
def enlist : Scheduler T W E :=
  let s := s.assert (t ∉ (s.waitable w)._waiters)
  s.setWaitable w { s.waitable w with _waiters := (s.waitable w)._waiters ++ [t] }

/-- A waitable takes the thread for a waiter, or lets it pass, or throws. -/
inductive Answer (T E : Type)
  | registers
  | passes
  | throws (e : Exn T E)

/-- What `Thread::_wait`, `Barrier::_wait`, `Scope::_wait` and `Waitable::_wait` answer. -/
def answer : Ref T W → Answer T E
  | .thread u =>
    if (s.thread u)._state = .done then
      if (s.thread u)._managed then
        match (s.thread u)._exception_thrown with
        | some e => .throws e
        | none => .passes
      else .passes
    else .registers
  | .other v =>
    match s.kind v with
    | .plain => .registers
    | .barrier _opened => if _opened then .passes else .registers
    | .scope _running _exception =>
      if _running = 0 then
        match _exception with
        | some e => .throws e
        | none => .passes
      else .registers

/-- The loop of `Thread::wait` over the waitables. -/
def register (t : T) (freeze : Bool) : Scheduler T W E → List (Ref T W) →
    Outcome T E × Scheduler T W E
  | s, [] => (if freeze then .freezes else .returns true, s)
  | s, w :: ws =>
    match s.answer w with
    | .registers =>
      let s := s.enlist t w
      register t true (s.setThread t { s.thread t with _waited := (s.thread t)._waited.insert w })
        ws
    | .throws e => (.throws e, s)
    | .passes =>
      match (s.waitable w)._exception with
      | none => register t freeze s ws
      | some e =>
        let s := s.unwait_all t
        (.throws e, s.assert ((s.thread t)._waited = []))

/-- The timer of a wait, and `Thread::_freeze` up to its `yield`. -/
def pause (timeout : Bool) : Scheduler T W E :=
  let th := s.thread t
  let s := s.setThread t { th with timed := timeout, _timeout := th._timeout && !timeout }
  let s := s._freeze t
  { s.setThread t { s.thread t with _state := .frozen } with _current := none }

/-- `Thread::wait`, up to its `yield`. -/
def wait (ws : List (Ref T W)) (timeout : Bool) : Outcome T E × Scheduler T W E :=
  let s := (s.assert ((s.thread t)._state = .running)).assert ((s.thread t)._waited = [])
  match s.register t false ws with
  | (.freezes, s) => (.freezes, s.pause t timeout)
  | r => r

/-- `Thread::_wait_timeout`. A timer that expired already calls it also when it is cancelled. -/
def _wait_timeout : Scheduler T W E :=
  if (s.thread t)._state = .frozen then
    (s.setThread t { s.thread t with _timeout := true })._wait_abort t
  else s

/-! ## The life of a thread -/

/-- The constructor of `Thread`, and `Scope::run_background` for a job. No thread is deleted
before it is done and without waiters. -/
def create (_managed : Bool) (job : Option W) : Scheduler T W E :=
  if (s.thread t)._state = .done ∧ (s.waitable (.thread t))._waiters = [] then
    let s := s.setThread t { _managed := _managed, _state := .running, job := job }
    let s := s.setWaitable (.thread t) {}
    let s := { s with _starting := s._starting.insert t }
    match job with
    | none => s
    | some v =>
      match s.kind v with
      | .scope n e => s.setKind v (.scope (n + 1) e)
      | _ => s
  else s

/-- The beginning of `Scheduler::step`: the threads that start are running. -/
def round : Scheduler T W E :=
  { s with _running := s._running ∪ s._starting, _starting := [] }

/-- `Scheduler::_step` and the rest of `Thread::yield`. A thread that never ran throws its
exception from `Thread::_action_wrapper`. -/
def schedule : Outcome T E × Scheduler T W E :=
  if s._current = none ∧ t ∈ s._running then
    let s := s.assert ((s.thread t)._state = .running)
    let th := { s.thread t with held := none, timed := false }
    let result := Outcome.returns !((s.thread t).timed && th._timeout)
    let s := { s with _current := some t }
    match th._exception with
    | none => (result, s.setThread t th)
    | some (.Terminate name) =>
      if th._interruptible then
        (.throws (.Terminate name), s.setThread t { th with _exception := none })
      else (result, s.setThread t th)
    | some (.error e) => (.throws (.error e), s.setThread t { th with _exception := none })
  else (.continues, s)

/-- `Thread::interruptible` -/
def interruptible (state raise : Bool) : Outcome T E × Scheduler T W E :=
  let th := { s.thread t with _interruptible := state }
  match th._exception with
  | some e =>
    if state && raise then (.throws e, s.setThread t { th with _exception := none })
    else (.continues, s.setThread t th)
  | none => (.continues, s.setThread t th)

/-- `Thread::raise` -/
def raise (e : Exn T E) : Scheduler T W E :=
  s.setThread t { s.thread t with _exception := some e }

/-- `Thread::raise_and_wake` -/
def raise_and_wake (e : Exn T E) : Scheduler T W E :=
  let s := s.raise t e
  if (s.thread t)._state = .frozen then
    let s := s._wait_abort t
    s.assert ((s.thread t)._state = .running)
  else s

/-- `Scheduler::_terminate`. The running thread throws `Terminate`. -/
def _terminate : Scheduler T W E :=
  if s._current = some t then s
  else if t ∈ s._starting then
    let s := { s with _starting := s._starting.erase t }
    (s.setThread t { s.thread t with _state := .done })._signal (.thread t)
  else if (s.thread t)._terminating then s
  else
    let s := (s.setThread t { s.thread t with _terminating := true }).raise t (.Terminate t)
    if (s.thread t)._state = .frozen ∧ (s.thread t)._interruptible then
      let s := s._wait_abort t
      s.assert ((s.thread t)._state = .running)
    else s

/-- The threads that did not start are discarded. -/
def discard : Scheduler T W E :=
  { s._starting.foldl (fun s t => s.setThread t { s.thread t with _state := .done }) s with
    _starting := [] }

/-- `Scheduler::terminate` -/
def terminate : Scheduler T W E :=
  let s := s.discard
  let s := (s._running.filter fun t => s._current ≠ some t).foldl _terminate s
  s._frozen.foldl _terminate s

/-- The threads that `Scheduler::terminate` returns. -/
def terminated : List T :=
  (s._running.filter fun t => s._current ≠ some t) ++ s._frozen

/-- `Scheduler::terminate_now` of the running thread `u`. -/
def terminate_now (u : T) : Outcome T E × Scheduler T W E :=
  s.terminate.wait u (s.terminated.map .thread) false

/-- `Scheduler::_terminate_now` of the running thread `u`, up to its first wait. It waits again
each time that its wait throws. -/
def _terminate_now (u : T) (suicide : Bool) : Outcome T E × Scheduler T W E :=
  if u = t then (if suicide then .throws (.Terminate t) else .continues, s)
  else
    let s := s._terminate t
    if (s.thread t)._state = .done then (.continues, s) else s.wait u [.thread t] false

/-- What `Thread::_action_wrapper` keeps of the exception that escapes the action. -/
def escaped : Option (Exn T E) → Option (Exn T E)
  | some (.error e) => some (.error e)
  | _ => none

/-- `Thread::_step` when the action ended, up to its signal. -/
def closing (e : Option (Exn T E)) : Scheduler T W E :=
  let th := s.thread t
  let s := s.setThread t { th with _state := .done, _exception_thrown := escaped e }
  if th._managed && (escaped e).isSome then s._raise (.thread t) (escaped e) else s

/-- `Thread::_step` when the action ended, up to its rethrow. -/
def ended (e : Option (Exn T E)) : Scheduler T W E :=
  (s.closing t e)._signal (.thread t)

/-- The exception of a thread that is not managed goes to `Scheduler::_step`. -/
def rethrows (e : Option (Exn T E)) : Bool :=
  !(s.thread t)._managed && (escaped e).isSome

/-- The last `Scheduler::_step` of a thread. -/
def finish (e : Option (Exn T E)) : Scheduler T W E :=
  let s' := { s.ended t e with _current := none }
  let s' := if s.rethrows t e then s'.terminate else s'
  { s' with _running := s'._running.erase t }

/-! ## Barriers, scopes and other waitables -/

/-- `Barrier::open` -/
def open_barrier : Scheduler T W E :=
  match s.kind v with
  | .barrier false => (s.setKind v (.barrier true))._signal (.other v)
  | .barrier true => s._raise (.other v) none
  | _ => s

/-- `Barrier::close` -/
def close_barrier : Scheduler T W E :=
  match s.kind v with
  | .barrier true => (s._raise (.other v) none).setKind v (.barrier false)
  | _ => s

/-- `Barrier::raise` -/
def raise_barrier (e : Exn T E) : Scheduler T W E :=
  match s.kind v with
  | .barrier _ => ((s._raise (.other v) (some e)).open_barrier v)._raise (.other v) (some e)
  | _ => s

/-- What a job of the scope that throws does first. -/
def fail_scope (e : Exn T E) : Scheduler T W E :=
  match s.kind v with
  | .scope n none => (s.setKind v (.scope n (some e)))._raise (.other v) (some e)
  | _ => s

/-- A waitable without more than the members of `Waitable` uses them. -/
def plainly (f : Scheduler T W E → Scheduler T W E) : Scheduler T W E :=
  match s.kind v with
  | .plain => f s
  | _ => s

end Scheduler

/-- What the running thread does, or a handler between two of them. -/
inductive Act (T W E : Type)
  | create (t : T) (_managed : Bool) (job : Option W)
  | round
  | schedule (t : T)
  | yield
  | wait (ws : List (Ref T W)) (timeout : Bool)
  | finish (e : Option (Exn T E))
  | interruptible (state raise : Bool)
  | timeout (t : T)
  | terminate (t : T)
  | terminate_now (t : T) (suicide : Bool)
  | terminate_all
  | terminate_all_now
  | raise (t : T) (e : Exn T E)
  | raise_and_wake (t : T) (e : Exn T E)
  | signal (v : W)
  | signal_one (v : W)
  | raise_plain (v : W) (e : Option (Exn T E))
  | open_barrier (v : W)
  | close_barrier (v : W)
  | raise_barrier (v : W) (e : Exn T E)
  | fail_scope (v : W) (e : Exn T E)

namespace Scheduler

/-- An action of the running thread. -/
def running (s : Scheduler T W E) (f : T → Outcome T E × Scheduler T W E) :
    Outcome T E × Scheduler T W E :=
  match s._current with
  | none => (.continues, s)
  | some u => f u

def step (s : Scheduler T W E) : Act T W E → Outcome T E × Scheduler T W E
  | .create t _managed job => (.continues, s.create t _managed job)
  | .round => (.continues, s.round)
  | .schedule t => s.schedule t
  | .yield => (.continues, { s with _current := none })
  | .wait ws timeout => s.running fun u => s.wait u ws timeout
  | .finish e => s.running fun u => (.continues, s.finish u e)
  | .interruptible state raise => s.running fun u => s.interruptible u state raise
  | .timeout t => (.continues, s._wait_timeout t)
  | .terminate t => (.continues, s._terminate t)
  | .terminate_now t suicide => s.running fun u => s._terminate_now t u suicide
  | .terminate_all => (.continues, s.terminate)
  | .terminate_all_now => s.running fun u => s.terminate_now u
  | .raise t e => (.continues, s.raise t e)
  | .raise_and_wake t e => (.continues, s.raise_and_wake t e)
  | .signal v => (.continues, s.plainly v (·._signal (.other v)))
  | .signal_one v => (.continues, s.plainly v (·._signal_one (.other v)))
  | .raise_plain v e => (.continues, s.plainly v (·._raise (.other v) e))
  | .open_barrier v => (.continues, s.open_barrier v)
  | .close_barrier v => (.continues, s.close_barrier v)
  | .raise_barrier v e => (.continues, s.raise_barrier v e)
  | .fail_scope v e => (.continues, s.fail_scope v e)

def act (s : Scheduler T W E) (a : Act T W E) : Scheduler T W E := (s.step a).2

end Scheduler

end elle.reactor
