-- A wait on an alternative. The thread is registered with both sides, each with a waker that gives
-- up the other side, and with the alternative itself. Only the alternative is known to the thread.
import Memo.Runs
import Mathlib.Data.Option.Basic

open runs

namespace elle.reactor.alternatives

variable {I O E : Type}

/-! ## Waitables -/

/-- `Waitable*`: a barrier, a semaphore or a thread, or an alternative. -/
inductive Ref (I O : Type) where
  | leaf (i : I)
  | alt (o : O)
deriving DecidableEq

/-- `OrWaitable`, over the waitables that are not alternatives. -/
inductive Waitable (I O : Type) where
  | leaf (i : I)
  | alt (o : O) (_lhs _rhs : Waitable I O)

namespace Waitable

def ref : Waitable I O → Ref I O
  | leaf i => .leaf i
  | alt o _ _ => .alt o

def refs : Waitable I O → List (Ref I O)
  | leaf i => [.leaf i]
  | alt o lhs rhs => .alt o :: (lhs.refs ++ rhs.refs)

def leaves : Waitable I O → List I
  | leaf i => [i]
  | alt _ lhs rhs => lhs.leaves ++ rhs.leaves

def height : Waitable I O → Nat
  | leaf _ => 1
  | alt _ lhs rhs => max lhs.height rhs.height + 1

def isLeaf : Waitable I O → Bool
  | leaf _ => true
  | alt _ _ _ => false

/-- The first waitable that is done, from left to right. -/
def first_done (done : I → Bool) : Waitable I O → Option I
  | leaf i => if done i then some i else none
  | alt _ lhs rhs => first_done done lhs <|> first_done done rhs

end Waitable

/-- What the waitables that are not alternatives are. -/
inductive Kind (E : Type) where
  | barrier (_opened : Bool)
  | semaphore (_count : Int)
  | thread (done _managed : Bool) (_exception_thrown : Option E)
deriving DecidableEq

/-- A waker of the class `OrWaitable`, which gives up the other side and signals the alternative,
or an empty one. -/
inductive Waker (I O : Type) where
  | empty
  | cancel (other : Ref I O) (this : O)
deriving DecidableEq

inductive Exn (E : Type) where
  | Terminate
  | error (e : E)
deriving DecidableEq

/-- How a wait is over. -/
inductive Outcome (E : Type) where
  | returned (b : Bool)
  | thrown (e : Exn E)
deriving DecidableEq

inductive Phase (E : Type) where
  | before
  | frozen
  /-- The thread was unfrozen, and did not run yet. -/
  | running
  | ended (o : Outcome E)
deriving DecidableEq

/-- What ended a wait. -/
inductive Cause (E : Type) where
  /-- A waitable, and the exception with which it was raised. -/
  | signal (e : Option E)
  | timeout
  | termination
deriving DecidableEq

/-- A thread, and the waitables where it may be registered. -/
structure State (I O E : Type) where
  kind : I → Kind E
  _exception : Ref I O → Option E := fun _ => none
  /-- The waker with which the thread is registered. -/
  _waiters : Ref I O → Option (Waker I O) := fun _ => none
  phase : Phase E := .before
  _waited : List (Ref I O) := []
  /-- The exception of the thread. -/
  exception : Option (Exn E) := none
  _interruptible : Bool
  _terminating : Bool := false
  timed : Bool := false
  _timeout : Bool := false
  /-- What ended the wait. The code does not keep it. -/
  cause : Option (Cause E) := none
  /-- An assertion failed. -/
  broken : Bool := false

namespace State

variable [DecidableEq I] [DecidableEq O] {s : State I O E}

/-! ## Signals -/

/-- `Waitable::_unwait` -/
def _unwait (r : Ref I O) (s : State I O E) : State I O E :=
  if (s._waiters r).isSome then { s with _waiters := Function.update s._waiters r none }
  else { s with broken := true }

/-- `Thread::_wake` -/
def _wake (r : Ref I O) (s : State I O E) : State I O E :=
  let waited := s._waited.erase r
  { s with
    exception := s.exception <|> (s._exception r).map .error
    _waited := waited
    phase := if waited = [] then .running else s.phase }

/-- A waitable forgets a thread that it woke, and its exception. -/
def forget (r : Ref I O) (s : State I O E) : State I O E :=
  { s with
    _waiters := Function.update s._waiters r none
    _exception := Function.update s._exception r none }

/-- `Waitable::_signal_one`. An alternative within another one signals it. -/
def _signal_one : Nat → Ref I O → State I O E → State I O E
  | 0, _, s => s
  | fuel + 1, r, s =>
    match s._waiters r with
    | none => s
    | some .empty => (s._wake r).forget r
    | some (.cancel other this) => (_signal_one fuel (.alt this) (s._unwait other)).forget r

/-- `Waitable::_signal`. What ended the wait is noted. -/
def _signal (fuel : Nat) (i : I) (s : State I O E) : State I O E :=
  if (s._waiters (.leaf i)).isSome then
    { _signal_one fuel (.leaf i) s with cause := some (.signal (s._exception (.leaf i))) }
  else { s with _exception := Function.update s._exception (.leaf i) none }

def _raise (i : I) (e : Option E) (s : State I O E) : State I O E :=
  { s with _exception := Function.update s._exception (.leaf i) e }

def become (i : I) (k : Kind E) (s : State I O E) : State I O E :=
  { s with kind := Function.update s.kind i k }

/-- `Barrier::open` -/
def «open» (fuel : Nat) (i : I) (s : State I O E) : State I O E :=
  match s.kind i with
  | .barrier false => (s.become i (.barrier true))._signal fuel i
  | .barrier true => s._raise i none
  | _ => s

/-- `Barrier::close` -/
def close (i : I) (s : State I O E) : State I O E :=
  match s.kind i with
  | .barrier true => (s._raise i none).become i (.barrier false)
  | _ => s

/-- `Barrier::raise` -/
def raise (fuel : Nat) (i : I) (e : E) (s : State I O E) : State I O E :=
  match s.kind i with
  | .barrier _ => ((s._raise i (some e)).open fuel i)._raise i (some e)
  | _ => s

/-- `Semaphore::acquire` -/
def acquire (i : I) (s : State I O E) : State I O E :=
  match s.kind i with
  | .semaphore count => if 0 < count then s.become i (.semaphore (count - 1)) else s
  | _ => s

/-- `Semaphore::release` -/
def release (fuel : Nat) (i : I) (s : State I O E) : State I O E :=
  match s.kind i with
  | .semaphore count => (s.become i (.semaphore (count + 1)))._signal fuel i
  | _ => s

/-- The end of `Thread::_step`, when the thread that is waited for is done. -/
def finish (fuel : Nat) (i : I) (thrown : Option E) (s : State I O E) : State I O E :=
  match s.kind i with
  | .thread false managed _ =>
    let s := s.become i (.thread true managed thrown)
    let s := if managed ∧ thrown.isSome then s._raise i thrown else s
    s._signal fuel i
  | _ => s

/-! ## Waits -/

/-- What a call of `_wait` gives. -/
inductive Answer (I O E : Type) where
  | waits (s : State I O E)
  | ready (s : State I O E)
  | throws (e : E) (s : State I O E)

/-- `Waitable::_wait` -/
def register (r : Ref I O) (w : Waker I O) (s : State I O E) : State I O E :=
  if (s._waiters r).isSome then { s with broken := true }
  else { s with _waiters := Function.update s._waiters r (some w) }

/-- `_wait` of a barrier, a semaphore and a thread. -/
def _wait_leaf (i : I) (w : Waker I O) (s : State I O E) : Answer I O E :=
  match s.kind i with
  | .barrier opened => if opened then .ready s else .waits (s.register (.leaf i) w)
  | .semaphore count => if count ≤ 0 then .waits (s.register (.leaf i) w) else .ready s
  | .thread done managed thrown =>
    if done then
      match managed, thrown with
      | true, some e => .throws e s
      | _, _ => .ready s
    else .waits (s.register (.leaf i) w)

/-- `OrWaitable::_wait` -/
def _wait : Waitable I O → Waker I O → State I O E → Answer I O E
  | .leaf i, w, s => _wait_leaf i w s
  | .alt o lhs rhs, w, s =>
    match _wait lhs (.cancel rhs.ref o) s with
    | .ready s => .ready s
    | .throws e s => .throws e s
    | .waits s =>
      match _wait rhs (.cancel lhs.ref o) s with
      | .ready s => .ready (s._unwait lhs.ref)
      | .throws e s => .throws e s
      | .waits s => .waits (s.register (.alt o) w)

/-- The exception with which a waitable that is done was raised. -/
def raised (s : State I O E) (i : I) : Option E :=
  match s.kind i with
  | .barrier _ => s._exception (.leaf i)
  | .semaphore _ => none
  | .thread _ managed thrown => if managed then thrown else none

/-- A call of `_wait` does not freeze the thread. -/
def is_done (s : State I O E) (i : I) : Bool :=
  match s.kind i with
  | .barrier opened => opened
  | .semaphore count => 0 < count
  | .thread done _ _ => done

/-- `Thread::wait`, up to where the thread freezes. -/
def wait (w : Waitable I O) (timed : Bool) (s : State I O E) : State I O E :=
  let cause := (w.first_done s.is_done).map fun i => Cause.signal (s.raised i)
  match _wait w .empty s with
  | .throws e s => { s with phase := .ended (.thrown (.error e)), cause }
  | .ready s =>
    match s._exception w.ref with
    | some e => { s with phase := .ended (.thrown (.error e)), cause }
    | none => { s with phase := .ended (.returned true), cause }
  | .waits s => { s with _waited := [w.ref], phase := .frozen, timed, _timeout := false }

/-- `Thread::_wait_abort` -/
def _wait_abort (s : State I O E) : State I O E :=
  let s := s._waited.foldl (fun s r => s._unwait r) s
  { s with _waited := [], phase := .running }

/-- The thread runs again: it throws its exception, or returns. -/
def resume (s : State I O E) : State I O E :=
  match s.exception with
  | some .Terminate =>
    if s._interruptible then { s with phase := .ended (.thrown .Terminate), exception := none }
    else { s with phase := .ended (.returned (!s._timeout)) }
  | some (.error e) => { s with phase := .ended (.thrown (.error e)), exception := none }
  | none => { s with phase := .ended (.returned (!s._timeout)) }

/-! ## Steps -/

end State

inductive Event (I E : Type) where
  | «open» (i : I)
  | close (i : I)
  | raise (i : I) (e : E)
  | acquire (i : I)
  | release (i : I)
  | finish (i : I) (thrown : Option E)
  | wait (timed : Bool)
  | timeout
  | terminate
  | resume

namespace State

variable [DecidableEq I] [DecidableEq O] [DecidableEq E]

/-- The waitables change at any time. -/
def step (w : Waitable I O) (s : State I O E) : Event I E → Option (State I O E)
  | .open i => some (s.open w.height i)
  | .close i => some (s.close i)
  | .raise i e => some (s.raise w.height i e)
  | .acquire i => some (s.acquire i)
  | .release i => some (s.release w.height i)
  | .finish i thrown => some (s.finish w.height i thrown)
  | .wait timed => if s.phase = .before then some (s.wait w timed) else none
  | .timeout =>
    if s.phase = .frozen ∧ s.timed then
      some { ({ s with _timeout := true } : State I O E)._wait_abort with cause := some .timeout }
    else none
  | .terminate =>
    if s._terminating then none
    else if s.phase = .frozen ∧ s._interruptible then
      some { ({ s with _terminating := true, exception := some .Terminate } :
        State I O E)._wait_abort with cause := some .termination }
    else if s.phase = .frozen ∨ s.phase = .running then
      some { s with _terminating := true, exception := some .Terminate }
    else none
  | .resume => if s.phase = .running then some s.resume else none

/-- What a wait that ended is to give. A thread that is terminated throws as soon as it runs, if
it is interruptible. -/
def expected (s : State I O E) : Outcome E :=
  if s._terminating ∧ s._interruptible then .thrown .Terminate
  else
    match s.cause with
    | some (.signal (some e)) => .thrown (.error e)
    | some (.signal none) => .returned true
    | some .timeout | none => .returned false
    | some .termination => .thrown .Terminate

/-- A wait that ended gives what it is to give, and leaves the thread registered nowhere. -/
structure Ends (w : Waitable I O) (s : State I O E) : Prop where
  unregistered : s.phase = .running ∨ (∃ o, s.phase = .ended o) →
    ∀ r ∈ w.refs, s._waiters r = none
  gives : s.phase = .running → s.resume.phase = .ended s.expected
  gave : ∀ o, s.phase = .ended o → o = s.expected

end State

/-! ## What is given up -/

namespace Waitable

variable [DecidableEq I] {w : Waitable I O} {i : I}

/-- A signal of this leaf gives up leaves only. -/
def signal_quits (i : I) : Waitable I O → Prop
  | leaf _ => True
  | alt _ lhs rhs =>
    if i ∈ lhs.leaves then lhs.signal_quits i ∧ rhs.isLeaf else rhs.signal_quits i ∧ lhs.isLeaf

/-- The leaf is done when the wait begins, and what is registered before it are leaves only. -/
def done_quits (i : I) : Waitable I O → Prop
  | leaf _ => True
  | alt _ lhs rhs => if i ∈ lhs.leaves then lhs.done_quits i else rhs.done_quits i ∧ lhs.isLeaf

/-- Nothing is registered before the leaf. -/
def leftmost (i : I) : Waitable I O → Prop
  | leaf _ => True
  | alt _ lhs _ => i ∈ lhs.leaves ∧ lhs.leftmost i

/-- From the alternative down to the leaf. -/
def path (i : I) : Waitable I O → List (Ref I O)
  | leaf j => [.leaf j]
  | alt o lhs rhs => .alt o :: if i ∈ lhs.leaves then lhs.path i else rhs.path i

/-- The other sides, all along the path. -/
def sides (i : I) : Waitable I O → List (Ref I O)
  | leaf _ => []
  | alt _ lhs rhs =>
    if i ∈ lhs.leaves then rhs.ref :: lhs.sides i else lhs.ref :: rhs.sides i

def depth (i : I) : Waitable I O → Nat
  | leaf _ => 1
  | alt _ lhs rhs => (if i ∈ lhs.leaves then lhs.depth i else rhs.depth i) + 1

omit [DecidableEq I] in
theorem ref_mem (w : Waitable I O) : w.ref ∈ w.refs := by
  cases w <;> simp [ref, refs]

theorem path_subset (i : I) (w : Waitable I O) : w.path i ⊆ w.refs := by
  induction w with
  | leaf j => simp [path, refs]
  | alt o lhs rhs ihl ihr =>
    simp only [path, refs]
    refine List.cons_subset_cons _ ?_
    split
    · exact List.Subset.trans ihl (List.subset_append_left _ _)
    · exact List.Subset.trans ihr (List.subset_append_right _ _)

theorem sides_subset (i : I) (w : Waitable I O) : w.sides i ⊆ w.refs := by
  induction w with
  | leaf j => simp [sides]
  | alt o lhs rhs ihl ihr =>
    simp only [sides, refs]
    intro r hr
    split at hr
    · rcases List.mem_cons.1 hr with rfl | hr
      · simp [ref_mem]
      · simp [ihl hr]
    · rcases List.mem_cons.1 hr with rfl | hr
      · simp [ref_mem]
      · simp [ihr hr]

theorem depth_le (i : I) (w : Waitable I O) : w.depth i ≤ w.height := by
  induction w with
  | leaf j => exact Nat.le_refl _
  | alt o lhs rhs ihl ihr =>
    simp only [depth, height]
    split <;> omega

omit [DecidableEq I] in
theorem nodup_sides {o : O} {lhs rhs : Waitable I O} (h : (alt o lhs rhs).refs.Nodup) :
    lhs.refs.Nodup ∧ rhs.refs.Nodup ∧ .alt o ∉ lhs.refs ∧ .alt o ∉ rhs.refs ∧
      ∀ r ∈ lhs.refs, r ∉ rhs.refs := by
  simp only [refs, List.nodup_cons, List.mem_append, not_or] at h
  obtain ⟨⟨hl, hr⟩, hboth⟩ := h
  rw [List.nodup_append] at hboth
  exact ⟨hboth.1, hboth.2.1, hl, hr, fun r hmem hmem' => hboth.2.2 r hmem r hmem' rfl⟩

omit [DecidableEq I] in
theorem isLeaf_of_refs (hnodup : w.refs.Nodup) (h : ∀ r ∈ w.refs, r = w.ref) :
    w.isLeaf = true := by
  cases w with
  | leaf j => rfl
  | alt o lhs rhs =>
    have hmem : lhs.ref ∈ (alt o lhs rhs).refs := by simp [refs, ref_mem]
    have hnot := (List.nodup_cons.1 hnodup).1
    have heq := h lhs.ref hmem
    have hroot : Ref.alt o ∈ lhs.refs := by
      have hin := ref_mem lhs
      rwa [heq] at hin
    exact absurd (List.mem_append_left _ hroot) hnot

omit [DecidableEq I] in
theorem refs_of_isLeaf (h : w.isLeaf = true) {r : Ref I O} (hr : r ∈ w.refs) : r = w.ref := by
  cases w with
  | leaf j => simpa [refs, ref] using hr
  | alt o lhs rhs => cases h

omit [DecidableEq I] in
theorem mem_leaves_refs (h : i ∈ w.leaves) : Ref.leaf i ∈ w.refs := by
  induction w with
  | leaf j => simpa [leaves, refs] using h
  | alt o lhs rhs ihl ihr =>
    rcases List.mem_append.1 h with h | h
    · simp [refs, ihl h]
    · simp [refs, ihr h]

theorem covered_iff (hnodup : w.refs.Nodup) (hi : i ∈ w.leaves) :
    (∀ r ∈ w.refs, r ∈ w.path i ∨ r ∈ w.sides i) ↔ w.signal_quits i := by
  induction w with
  | leaf j => simp [refs, path, signal_quits]
  | alt o lhs rhs ihl ihr =>
    obtain ⟨hl, hr, hnotl, hnotr, hdisjoint⟩ := nodup_sides hnodup
    have hcovers : ∀ {x y : Waitable I O}, .alt o ∉ x.refs → (∀ r ∈ x.refs, r ∉ y.refs) →
        ((∀ r ∈ (Ref.alt o :: (x.refs ++ y.refs)),
          r ∈ Ref.alt o :: x.path i ∨ r ∈ y.ref :: x.sides i) ↔
          (∀ r ∈ x.refs, r ∈ x.path i ∨ r ∈ x.sides i) ∧
            ∀ r ∈ y.refs, r = .alt o ∨ r = y.ref) := by
      intro x y hx hxy
      constructor
      · intro h
        refine ⟨fun r hrx => ?_, fun r hry => ?_⟩
        · have hmem := h r (by simp [hrx])
          have hne : r ≠ .alt o := fun heq => hx (heq ▸ hrx)
          have hne' : r ≠ y.ref := fun heq => hxy r hrx (heq ▸ ref_mem y)
          simpa [hne, hne'] using hmem
        · have hmem := h r (by simp [hry])
          simp only [List.mem_cons] at hmem
          rcases hmem with (heq | hpath) | (heq | hside)
          · exact .inl heq
          · exact absurd hry (hxy r (path_subset i x hpath))
          · exact .inr heq
          · exact absurd hry (hxy r (sides_subset i x hside))
      · rintro ⟨hin, hout⟩ r hr
        simp only [List.mem_cons, List.mem_append] at hr
        rcases hr with rfl | hr | hr
        · simp
        · rcases hin r hr with h | h
          · simp [h]
          · simp [h]
        · rcases hout r hr with rfl | rfl
          · simp
          · simp
    have hleaf : ∀ {y : Waitable I O}, y.refs.Nodup → .alt o ∉ y.refs →
        ((∀ r ∈ y.refs, r = .alt o ∨ r = y.ref) ↔ y.isLeaf = true) := by
      intro y hy hoy
      constructor
      · intro h
        refine isLeaf_of_refs hy fun r hr => (h r hr).resolve_left ?_
        rintro rfl
        exact hoy hr
      · exact fun h r hr => .inr (refs_of_isLeaf h hr)
    by_cases hin : i ∈ lhs.leaves
    · simp only [path, sides, signal_quits, refs, if_pos hin]
      rw [hcovers hnotl hdisjoint, hleaf hr hnotr, ihl hl hin]
    · have hin' : i ∈ rhs.leaves := (List.mem_append.1 hi).resolve_left hin
      simp only [path, sides, signal_quits, refs, if_neg hin]
      have hswap : (∀ r ∈ Ref.alt o :: (lhs.refs ++ rhs.refs),
          r ∈ Ref.alt o :: rhs.path i ∨ r ∈ lhs.ref :: rhs.sides i) ↔
          ∀ r ∈ Ref.alt o :: (rhs.refs ++ lhs.refs),
            r ∈ Ref.alt o :: rhs.path i ∨ r ∈ lhs.ref :: rhs.sides i := by
        simp only [List.mem_cons, List.mem_append, or_comm (a := _ ∈ lhs.refs)]
      rw [hswap, hcovers hnotr (fun r hr' hl' => hdisjoint r hl' hr'), hleaf hl hnotl, ihr hr hin']

end Waitable

namespace Waitable

variable [DecidableEq I] [DecidableEq O]

/-- The waker with which the thread is registered with a part of a waitable. -/
def waker : Waitable I O → Waker I O → Ref I O → Option (Waker I O)
  | leaf i, wk, r => if r = .leaf i then some wk else none
  | alt o lhs rhs, wk, r =>
    if r = .alt o then some wk
    else lhs.waker (.cancel rhs.ref o) r <|> rhs.waker (.cancel lhs.ref o) r

variable {wk : Waker I O} {r : Ref I O}

theorem waker_eq_none {w : Waitable I O} :
    w.waker wk r = none ↔ r ∉ w.refs := by
  induction w generalizing wk with
  | leaf i => simp [waker, refs]
  | alt o lhs rhs ihl ihr =>
    simp only [waker, refs]
    split
    · next h => simp [h]
    · next h => simp [h, ihl, ihr]

theorem waker_left {o : O} {lhs rhs : Waitable I O} (hnodup : (alt o lhs rhs).refs.Nodup)
    (hr : r ∈ lhs.refs) :
    (alt o lhs rhs).waker wk r = lhs.waker (.cancel rhs.ref o) r := by
  obtain ⟨-, -, hnotl, -, hdisjoint⟩ := nodup_sides hnodup
  have hne : r ≠ .alt o := fun heq => hnotl (heq ▸ hr)
  have hnone : rhs.waker (.cancel lhs.ref o) r = none := waker_eq_none.2 (hdisjoint r hr)
  rw [waker, if_neg hne, hnone]
  simp

theorem waker_right {o : O} {lhs rhs : Waitable I O} (hnodup : (alt o lhs rhs).refs.Nodup)
    (hr : r ∈ rhs.refs) :
    (alt o lhs rhs).waker wk r = rhs.waker (.cancel lhs.ref o) r := by
  obtain ⟨-, -, -, hnotr, hdisjoint⟩ := nodup_sides hnodup
  have hne : r ≠ .alt o := fun heq => hnotr (heq ▸ hr)
  have hnone : lhs.waker (.cancel rhs.ref o) r = none :=
    waker_eq_none.2 fun hr' => hdisjoint r hr' hr
  rw [waker, if_neg hne, hnone]
  simp

theorem waker_ref (w : Waitable I O) (wk : Waker I O) : w.waker wk w.ref = some wk := by
  cases w <;> simp [waker, ref]

end Waitable

namespace State

variable [DecidableEq I] [DecidableEq O] {s s' : State I O E} {w : Waitable I O} {i : I}

/-! ## Signals -/

def drop (l : List (Ref I O)) (s : State I O E) : State I O E :=
  { s with _waiters := fun r => if r ∈ l then none else s._waiters r }

def forgets (l : List (Ref I O)) (s : State I O E) : State I O E :=
  { s with
    _waiters := fun r => if r ∈ l then none else s._waiters r
    _exception := fun r => if r ∈ l then none else s._exception r }

variable {k wk : Waker I O} {lhs rhs : Waitable I O} {r : Ref I O}

theorem _unwait_registered (h : (s._waiters r).isSome) (l : List (Ref I O)) (hl : r ∉ l) :
    (s.drop l)._unwait r = s.drop (r :: l) := by
  have hsome : ((s.drop l)._waiters r).isSome := by simpa [drop, hl] using h
  rw [_unwait, if_pos hsome]
  simp only [drop]
  congr 1
  funext x
  by_cases hx : x = r
  · simp [hx]
  · simp [hx]

theorem forget_forgets (r : Ref I O) (l : List (Ref I O)) (s : State I O E) :
    (s.forget r).forgets l = s.forgets (r :: l) := by
  simp only [forget, forgets]
  congr 1
  · funext x
    by_cases hx : x = r
    · simp [hx]
    · simp [hx]
  · funext x
    by_cases hx : x = r
    · simp [hx]
    · simp [hx]

/-- What a waker does. -/
def fire (fuel : Nat) (r : Ref I O) : Waker I O → State I O E → State I O E
  | .empty, s => s._wake r
  | .cancel other this, s => s._unwait other |>._signal_one fuel (.alt this)

theorem _signal_one_registered (h : s._waiters r = some wk) (fuel : Nat) :
    s._signal_one (fuel + 1) r = (s.fire fuel r wk).forget r := by
  cases wk with
  | empty => simp [_signal_one, h, fire]
  | cancel other this => simp [_signal_one, h, fire]

theorem climb_side {o : O} {x y : Waitable I O} {fuel : Nat}
    (hx : s._signal_one fuel (.leaf i) = ((s.drop (x.sides i)).fire (fuel - x.depth i) x.ref
      (.cancel y.ref o)).forgets (x.path i)) (hfuel : x.depth i + 1 ≤ fuel)
    (ho : s._waiters (.alt o) = some wk) (hox : .alt o ∉ x.refs) (hoy : .alt o ∉ y.refs)
    (hy : (s._waiters y.ref).isSome) (hyx : y.ref ∉ x.refs) :
    s._signal_one fuel (.leaf i) =
      ((s.drop (y.ref :: x.sides i)).fire (fuel - (x.depth i + 1)) (.alt o) wk).forgets
        (.alt o :: x.path i) := by
  have hne : Ref.alt o ≠ y.ref := fun heq => hoy (heq ▸ Waitable.ref_mem y)
  have hside : y.ref ∉ x.sides i := fun hmem => hyx (Waitable.sides_subset i x hmem)
  have hside' : Ref.alt o ∉ x.sides i := fun hmem => hox (Waitable.sides_subset i x hmem)
  have hwaker : (s.drop (y.ref :: x.sides i))._waiters (.alt o) = some wk := by
    simp [drop, hne, hside', ho]
  obtain ⟨n, hn⟩ : ∃ n, fuel - x.depth i = n + 1 := ⟨fuel - x.depth i - 1, by omega⟩
  have hn' : fuel - (x.depth i + 1) = n := by omega
  rw [hx, hn, hn', fire, _unwait_registered hy _ hside, _signal_one_registered hwaker,
    forget_forgets]

/-- A signal climbs from a leaf to the root: it gives up the other sides, fires the waker of the
root, and forgets the path. There is enough fuel for the height. -/
theorem climb {fuel : Nat} (hnodup : w.refs.Nodup) (hi : i ∈ w.leaves)
    (hregistered : ∀ r ∈ w.refs, s._waiters r = w.waker wk r) (hfuel : w.height ≤ fuel) :
    s._signal_one fuel (.leaf i) =
      ((s.drop (w.sides i)).fire (fuel - w.depth i) w.ref wk).forgets (w.path i) := by
  induction w generalizing wk with
  | leaf j =>
    have hij : i = j := by simpa [Waitable.leaves] using hi
    subst hij
    have hwaker := hregistered (.leaf i) (by simp [Waitable.refs])
    simp only [Waitable.waker, if_true] at hwaker
    obtain ⟨fuel, rfl⟩ : ∃ n, fuel = n + 1 := ⟨fuel - 1, by simp [Waitable.height] at hfuel; omega⟩
    rw [_signal_one_registered hwaker]
    have hdrop : s.drop [] = s := by simp [drop]
    simp only [Waitable.sides, Waitable.path, Waitable.depth, Waitable.ref, hdrop,
      Nat.add_sub_cancel, ← forget_forgets]
    simp [forgets]
  | alt o lhs rhs ihl ihr =>
    obtain ⟨hl, hr, hnotl, hnotr, hdisjoint⟩ := Waitable.nodup_sides hnodup
    have hroot := hregistered (.alt o) (by simp [Waitable.refs])
    simp only [Waitable.waker, if_true] at hroot
    have hleft : ∀ r ∈ lhs.refs, s._waiters r = lhs.waker (.cancel rhs.ref o) r := fun r hmem =>
      (hregistered r (by simp [Waitable.refs, hmem])).trans (Waitable.waker_left hnodup hmem)
    have hright : ∀ r ∈ rhs.refs, s._waiters r = rhs.waker (.cancel lhs.ref o) r := fun r hmem =>
      (hregistered r (by simp [Waitable.refs, hmem])).trans (Waitable.waker_right hnodup hmem)
    have hsome : ∀ {x : Waitable I O} {wk : Waker I O},
        (∀ r ∈ x.refs, s._waiters r = x.waker wk r) → (s._waiters x.ref).isSome := by
      intro x wk hx
      rw [hx _ (Waitable.ref_mem x), Waitable.waker_ref]
      rfl
    simp only [Waitable.height] at hfuel
    by_cases hin : i ∈ lhs.leaves
    · have hdepth := Waitable.depth_le i lhs
      have hbelow := ihl hl hin hleft (by omega)
      simp only [Waitable.sides, Waitable.path, Waitable.depth, Waitable.ref, if_pos hin]
      exact climb_side hbelow (by omega) hroot hnotl hnotr (hsome hright)
        fun hmem => hdisjoint _ hmem (Waitable.ref_mem rhs)
    · have hin' : i ∈ rhs.leaves := (List.mem_append.1 hi).resolve_left hin
      have hdepth := Waitable.depth_le i rhs
      have hbelow := ihr hr hin' hright (by omega)
      simp only [Waitable.sides, Waitable.path, Waitable.depth, Waitable.ref, if_neg hin]
      exact climb_side hbelow (by omega) hroot hnotr hnotl (hsome hleft)
        (hdisjoint _ (Waitable.ref_mem lhs))

/-! ## The start of a wait -/

/-- The thread is registered with the waitable and its parts. -/
def registered (w : Waitable I O) (wk : Waker I O) (s : State I O E) : State I O E :=
  { s with _waiters := fun r => w.waker wk r <|> s._waiters r }

theorem register_free (h : s._waiters r = none) (wk : Waker I O) :
    s.register r wk = { s with _waiters := Function.update s._waiters r (some wk) } := by
  simp [register, h]

theorem registered_right {o : O} (hnodup : (Waitable.alt o lhs rhs).refs.Nodup)
    (hfree : ∀ r ∈ rhs.refs, s._waiters r = none) :
    ∀ r ∈ rhs.refs, (s.registered lhs wk)._waiters r = none := by
  obtain ⟨-, -, -, -, hdisjoint⟩ := Waitable.nodup_sides hnodup
  intro r hmem
  have hnone : lhs.waker wk r = none :=
    Waitable.waker_eq_none.2 fun hmem' => hdisjoint r hmem' hmem
  simp [registered, hnone, hfree r hmem]

/-- What a thread that is done and waited for throws into those that wait for it. -/
def throws (s : State I O E) (i : I) : Option E :=
  match s.kind i with
  | .thread _ managed thrown => if managed then thrown else none
  | .barrier _ | .semaphore _ => none

/-- The answer of a waitable that is done. -/
def answer (thrown : Option E) (s : State I O E) : Answer I O E :=
  match thrown with
  | some e => .throws e s
  | none => .ready s

omit [DecidableEq I] [DecidableEq O] in
theorem first_done_mem {done : I → Bool} (h : w.first_done done = some i) : i ∈ w.leaves := by
  induction w with
  | leaf j =>
    simp only [Waitable.first_done, Option.ite_none_right_eq_some, Option.some.injEq] at h
    simp [Waitable.leaves, h.2]
  | alt o lhs rhs ihl ihr =>
    simp only [Waitable.first_done, Option.orElse_eq_some] at h
    rcases h with h | ⟨-, h⟩
    · simp [Waitable.leaves, ihl h]
    · simp [Waitable.leaves, ihr h]

theorem _wait_leaf_waits (h : s.is_done i = false) :
    s._wait_leaf i wk = .waits (s.register (.leaf i) wk) := by
  unfold is_done at h
  unfold _wait_leaf
  split at h
  · subst h
    simp
  · next count _ =>
    have hcount : count ≤ 0 := by simpa using h
    simp [hcount]
  · subst h
    simp

theorem _wait_leaf_done (h : s.is_done i = true) :
    s._wait_leaf i wk = s.answer (s.throws i) := by
  unfold is_done at h
  unfold _wait_leaf throws
  split at h
  · next opened hkind =>
    subst h
    simp [hkind, answer]
  · next count hkind =>
    have hcount : ¬ count ≤ 0 := by simpa using h
    simp [hkind, hcount, answer]
  · next done managed thrown hkind =>
    subst h
    rw [hkind]
    cases managed <;> cases thrown <;> simp [answer]

theorem _wait_none (hnodup : w.refs.Nodup) (hfree : ∀ r ∈ w.refs, s._waiters r = none)
    (hdone : w.first_done s.is_done = none) :
    s._wait w k = .waits (s.registered w k) := by
  induction w generalizing k s with
  | leaf i =>
    have hnot : s.is_done i = false := by simpa [Waitable.first_done] using hdone
    rw [_wait, _wait_leaf_waits hnot, register_free (hfree _ (by simp [Waitable.refs]))]
    simp only [registered, Waitable.waker]
    congr 2
    funext r
    by_cases hr : r = .leaf i
    · simp [hr]
    · simp [hr]
  | alt o lhs rhs ihl ihr =>
    obtain ⟨hl, hr, hnotl, hnotr, hdisjoint⟩ := Waitable.nodup_sides hnodup
    simp only [Waitable.first_done, Option.orElse_eq_none] at hdone
    have hleft := ihl (s := s) (k := .cancel rhs.ref o) hl
      (fun r hmem => hfree r (by simp [Waitable.refs, hmem])) hdone.1
    have hfree' : ∀ r ∈ rhs.refs, (s.registered lhs (.cancel rhs.ref o))._waiters r = none :=
      registered_right hnodup fun r hmem => hfree r (by simp [Waitable.refs, hmem])
    have hright := ihr (k := .cancel lhs.ref o) hr hfree' hdone.2
    have hroot : ((s.registered lhs (.cancel rhs.ref o)).registered rhs
        (.cancel lhs.ref o))._waiters (.alt o) = none := by
      simp [registered, Waitable.waker_eq_none.2 hnotl, Waitable.waker_eq_none.2 hnotr,
        hfree (.alt o) (by simp [Waitable.refs])]
    simp only [_wait, hleft, hright, register_free hroot]
    simp only [registered, Waitable.waker]
    congr 2
    funext r
    by_cases hro : r = .alt o
    · simp [hro]
    · by_cases hmem : r ∈ lhs.refs
      · have hnone : rhs.waker (.cancel lhs.ref o) r = none :=
          Waitable.waker_eq_none.2 (hdisjoint r hmem)
        simp [hro, hnone]
      · have hnone : lhs.waker (.cancel rhs.ref o) r = none := Waitable.waker_eq_none.2 hmem
        simp [hro, hnone]

/-- What is registered before a leaf that is done is leaves only, if the wait returns, and is
nothing, if it throws. -/
def StartsClean (thrown : Option E) (i : I) (w : Waitable I O) : Prop :=
  match thrown with
  | some _ => w.leftmost i
  | none => w.done_quits i

theorem quits_left_iff {o : O} {f : Ref I O → Option (Waker I O)}
    (hnodup : (Waitable.alt o lhs rhs).refs.Nodup) (hroot : f (.alt o) = none)
    (hlhs : ∀ r ∈ lhs.refs, (f r).isSome) :
    (∀ r ∈ (Waitable.alt o lhs rhs).refs, Function.update f lhs.ref none r = none) ↔
      (∀ r ∈ rhs.refs, f r = none) ∧ lhs.isLeaf = true := by
  obtain ⟨hl, -, -, -, hdisjoint⟩ := Waitable.nodup_sides hnodup
  constructor
  · intro hall
    refine ⟨fun r hmem => ?_, Waitable.isLeaf_of_refs hl fun r hmem => ?_⟩
    · have hne : r ≠ lhs.ref := by
        rintro rfl
        exact hdisjoint _ (Waitable.ref_mem lhs) hmem
      have hnone := hall r (by simp [Waitable.refs, hmem])
      rwa [Function.update_of_ne hne] at hnone
    · by_contra hne
      have hnone := hall r (by simp [Waitable.refs, hmem])
      have hsome := hlhs r hmem
      rw [Function.update_of_ne hne] at hnone
      rw [hnone] at hsome
      cases hsome
  · rintro ⟨hrhs, hleaf⟩ r hmem
    simp only [Waitable.refs, List.mem_cons, List.mem_append] at hmem
    by_cases hne : r = lhs.ref
    · simp [hne]
    · rw [Function.update_of_ne hne]
      rcases hmem with rfl | hmem | hmem
      · exact hroot
      · exact absurd (Waitable.refs_of_isLeaf hleaf hmem) hne
      · exact hrhs r hmem

theorem _wait_done_right {o : O} {f : Ref I O → Option (Waker I O)}
    (hnodup : (Waitable.alt o lhs rhs).refs.Nodup)
    (hfree : ∀ r ∈ (Waitable.alt o lhs rhs).refs, s._waiters r = none) (hi : i ∈ rhs.leaves)
    (hleft : s._wait lhs (.cancel rhs.ref o) = .waits (s.registered lhs (.cancel rhs.ref o)))
    (hanswer : (s.registered lhs (.cancel rhs.ref o))._wait rhs (.cancel lhs.ref o) =
      answer (s.throws i) { s with _waiters := f })
    (hout : ∀ r ∉ rhs.refs, f r = (s.registered lhs (.cancel rhs.ref o))._waiters r)
    (hclean : (∀ r ∈ rhs.refs, f r = none) ↔ StartsClean (s.throws i) i rhs) :
    ∃ f, s._wait (.alt o lhs rhs) k = answer (s.throws i) { s with _waiters := f } ∧
      (∀ r ∉ (Waitable.alt o lhs rhs).refs, f r = s._waiters r) ∧
      ((∀ r ∈ (Waitable.alt o lhs rhs).refs, f r = none) ↔
        StartsClean (s.throws i) i (.alt o lhs rhs)) := by
  obtain ⟨-, -, hnotl, hnotr, hdisjoint⟩ := Waitable.nodup_sides hnodup
  have hnotin : i ∉ lhs.leaves := fun h =>
    hdisjoint _ (Waitable.mem_leaves_refs h) (Waitable.mem_leaves_refs hi)
  have hlhs : ∀ r ∈ lhs.refs, (f r).isSome := by
    intro r hmem
    rw [hout r (hdisjoint r hmem)]
    have hsome : lhs.waker (.cancel rhs.ref o) r ≠ none := fun heq =>
      Waitable.waker_eq_none.1 heq hmem
    obtain ⟨wk, hwk⟩ := Option.ne_none_iff_exists'.1 hsome
    simp [registered, hwk]
  have hroot : f (.alt o) = none := by
    rw [hout _ hnotr]
    simp [registered, Waitable.waker_eq_none.2 hnotl, hfree (.alt o) (by simp [Waitable.refs])]
  have houtside : ∀ r ∉ (Waitable.alt o lhs rhs).refs, f r = s._waiters r := by
    intro r hnot
    simp only [Waitable.refs, List.mem_cons, List.mem_append, not_or] at hnot
    rw [hout r hnot.2.2]
    simp [registered, Waitable.waker_eq_none.2 hnot.2.1]
  cases hthrows : s.throws i with
  | some e =>
    refine ⟨f, ?_, houtside, ?_⟩
    · rw [hthrows] at hanswer
      simp only [_wait, hleft, hanswer, answer]
    · refine iff_of_false (fun hall => ?_) ?_
      · have hsome := hlhs _ (Waitable.ref_mem lhs)
        rw [hall _ (by simp [Waitable.refs, Waitable.ref_mem])] at hsome
        cases hsome
      · simp [StartsClean, Waitable.leftmost, hnotin]
  | none =>
    rw [hthrows] at hanswer hclean
    refine ⟨Function.update f lhs.ref none, ?_, fun r hnot => ?_, ?_⟩
    · simp only [_wait, hleft, hanswer, answer]
      simp only [_unwait, hlhs _ (Waitable.ref_mem lhs), if_true]
    · have hne : r ≠ lhs.ref := by
        rintro rfl
        exact hnot (by simp [Waitable.refs, Waitable.ref_mem])
      rw [Function.update_of_ne hne]
      exact houtside r hnot
    · rw [quits_left_iff hnodup hroot hlhs, hclean]
      simp [StartsClean, Waitable.done_quits, hnotin]

theorem _wait_done (hnodup : w.refs.Nodup) (hfree : ∀ r ∈ w.refs, s._waiters r = none)
    (hdone : w.first_done s.is_done = some i) :
    ∃ f, s._wait w k = answer (s.throws i) { s with _waiters := f } ∧
      (∀ r ∉ w.refs, f r = s._waiters r) ∧
      ((∀ r ∈ w.refs, f r = none) ↔ StartsClean (s.throws i) i w) := by
  induction w generalizing k s with
  | leaf j =>
    have hj : s.is_done j = true ∧ j = i := by simpa [Waitable.first_done] using hdone
    obtain ⟨hj, rfl⟩ := hj
    refine ⟨s._waiters, _wait_leaf_done hj, fun _ _ => rfl, iff_of_true hfree ?_⟩
    unfold StartsClean
    cases s.throws j <;> trivial
  | alt o lhs rhs ihl ihr =>
    obtain ⟨hl, hr, hnotl, hnotr, hdisjoint⟩ := Waitable.nodup_sides hnodup
    have hfreel : ∀ r ∈ lhs.refs, s._waiters r = none := fun r hmem =>
      hfree r (by simp [Waitable.refs, hmem])
    have hfreer : ∀ r ∈ rhs.refs, s._waiters r = none := fun r hmem =>
      hfree r (by simp [Waitable.refs, hmem])
    have hfreeo : s._waiters (.alt o) = none := hfree _ (by simp [Waitable.refs])
    simp only [Waitable.first_done, Option.orElse_eq_some] at hdone
    rcases hdone with hin | ⟨hnone, hin⟩
    · have hmem := first_done_mem hin
      obtain ⟨f, hanswer, hout, hclean⟩ := ihl (k := .cancel rhs.ref o) hl hfreel hin
      refine ⟨f, ?_, fun r hnot => hout r fun h => hnot (by simp [Waitable.refs, h]), ?_⟩
      · rw [_wait, hanswer]
        cases s.throws i <;> rfl
      · have hall : (∀ r ∈ (Waitable.alt o lhs rhs).refs, f r = none) ↔
            ∀ r ∈ lhs.refs, f r = none := by
          constructor
          · exact fun h r hr => h r (by simp [Waitable.refs, hr])
          · intro h r hr
            by_cases hrl : r ∈ lhs.refs
            · exact h r hrl
            · rw [hout r hrl, hfree r hr]
        rw [hall, hclean]
        unfold StartsClean
        cases s.throws i with
        | none => simp [Waitable.done_quits, hmem]
        | some e => simp [Waitable.leftmost, hmem]
    · have hleft := _wait_none (s := s) (k := .cancel rhs.ref o) hl hfreel hnone
      obtain ⟨f, hanswer, hout, hclean⟩ := ihr (s := s.registered lhs (.cancel rhs.ref o))
        (k := .cancel lhs.ref o) hr (registered_right hnodup hfreer) hin
      exact _wait_done_right hnodup hfree (first_done_mem hin) hleft hanswer hout hclean

end State

end elle.reactor.alternatives
