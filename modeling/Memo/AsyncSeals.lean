-- Pushes that stop in the middle. A store that is squashed moves the resolver of the pending
-- operation away, and then has its block sealed at that operation's version: the seal of an ACB
-- may fetch a group, while the queue goes on, and may throw.
import Memo.Async
import Memo.Runs

open runs

namespace memo.consensus

variable {A B D R S : Type} [DecidableEq A] [Inhabited S]

/-- A push whose block is being sealed: its operation, the pending one that it is squashed with, as
it was, and how. -/
structure Sealing (A B R S : Type) where
  op : Op A B R S
  cop : Op A B R S
  order : Squash

/-- The queue, and the pushes that are in the middle. `undefined` is set when C++ does not say what
comes next. -/
structure Calls (A B R S : Type) where
  async : Async A B R S
  sealing : List (Sealing A B R S) := []
  undefined : Bool := false

/-- A step of the queue, a store whose seal waits, one whose seal throws, and the end of a seal that
waited: the push goes on, or the seal throws. -/
inductive Call (A B R S : Type) where
  | async (act : Action A B R S)
  | waits (block : B) (mode : StoreMode) (resolver : R)
  | throws (block : B) (mode : StoreMode) (resolver : R)
  | sealed (i : Nat)
  | fails (i : Nat)

/-- A call that pushes an operation. -/
def Action.pushes : Action A B R S → Bool
  | .store _ _ _ | .remove _ _ => true
  | _ => false

namespace Async

variable (env : Blocks A B D R S)

/-- The resolver of a pending operation is moved into the merged one. -/
def release (cop : Op A B R S) (s : Async A B R S) : Async A B R S :=
  { s with _operations :=
      s._operations.map fun o => if o.index = cop.index then { o with resolver := [] } else o }

/-- What `_push_op` does once the block is sealed. It is not defined if the pending operation is
gone and would be modified, or if there is no last one. -/
def resume (p : Sealing A B R S) (s : Async A B R S) : Option (Async A B R S) :=
  let op := s.numbered p.op
  let s := { s with pushed := s.pushed ++ [op] }
  let cop := (s._operations.find? fun o => o.index = p.cop.index).map fun o =>
    { o with resolver := p.cop.resolver }
  if p.order.first then cop.map fun cop => overwrite env cop op s
  else if s._operations.isEmpty then none
  else enqueue env (merged_last env (cop.getD p.cop) op) (s.erase p.cop)

end Async

namespace Calls

variable (env : Blocks A B D R S)

/-- What a store comes to before its block is sealed. -/
def found (c : Calls A B R S) (block : B) (mode : StoreMode) (resolver : R) :
    Option (Sealing A B R S) :=
  let op := Async.stored env block mode (some resolver)
  (Async.squash env c.async op).map fun (cop, order) => { op, cop, order }

/-- A step, if it can be taken. A push that the queue has no step for invalidates the loop over the
operations that re-entered. -/
def step (c : Calls A B R S) (call : Call A B R S) : Option (Calls A B R S) :=
  if c.undefined then none
  else
    match call with
    | .async act =>
      match c.async.step env act with
      | some s => some { c with async := s }
      | none => if act.pushes then some { c with undefined := true } else none
    | .waits block mode resolver =>
      (c.found env block mode resolver).map fun p =>
        { c with async := c.async.release p.cop, sealing := c.sealing ++ [p] }
    | .throws block mode resolver =>
      (c.found env block mode resolver).map fun p => { c with async := c.async.release p.cop }
    | .sealed i =>
      c.sealing[i]?.map fun p =>
        match c.async.resume env p with
        | some s => { c with async := s, sealing := c.sealing.eraseIdx i }
        | none => { c with undefined := true }
    | .fails i => c.sealing[i]?.map fun _ => { c with sealing := c.sealing.eraseIdx i }

/-- No seal of a squash waits or throws, no push comes while the operations that re-entered are
being queued, and the queue's step meets `ok`. -/
def Each (ok : Async A B R S → Action A B R S → Prop) (c : Calls A B R S) : Call A B R S → Prop
  | .async act => ¬(act.pushes ∧ c.async.flushing) ∧ ok c.async act
  | _ => False

variable {env : Blocks A B D R S} {ok : Async A B R S → Action A B R S → Prop}
  {c c' : Calls A B R S} {s s' : Async A B R S} {call : Call A B R S}

omit [Inhabited S] in
theorem push_defined (h : s.waiting = none ∨ ¬s.flushing) (op : Op A B R S) :
    (Async.push env op s).isSome := by
  have henqueue : ∀ (op : Op A B R S) (s : Async A B R S), s.waiting = none ∨ ¬s.flushing →
      (Async.enqueue env op s).isSome := by
    intro op s h
    unfold Async.enqueue
    cases hw : s.waiting with
    | none => simp [Async.fs, hw]
    | some o => simp [Async.fs, hw, h.resolve_left (by simp [hw])]
  unfold Async.push Async._push_op
  split
  · exact henqueue _ _ h
  · split_ifs
    · rfl
    · exact henqueue _ _ h

theorem step_defined {act : Action A B R S} (hpushes : act.pushes)
    (h : s.waiting = none ∨ ¬s.flushing) : (Async.step env s act).isSome := by
  cases act with
  | store block mode resolver => exact push_defined h _
  | remove address rs => exact push_defined h (Async.removal address rs)
  | _ => cases hpushes

/-- The queue takes the step, unless a push comes while what re-entered is being queued. -/
theorem step_async {act : Action A B R S} (hs : step env c (.async act) = some c')
    (h : act.pushes → c.async.waiting = none ∨ ¬c.async.flushing) :
    Async.step env c.async act = some c'.async ∧ c'.sealing = c.sealing ∧
      c'.undefined = c.undefined := by
  unfold step at hs
  split_ifs at hs with hundefined
  cases hstep : Async.step env c.async act with
  | some s =>
    simp only [hstep, Option.some.injEq] at hs
    simp [← hs]
  | none =>
    simp only [hstep] at hs
    split_ifs at hs with hpushes
    have hsome : (Async.step env c.async act).isSome := step_defined hpushes (h hpushes)
    simp [hstep] at hsome

theorem Each.step (hok : Each ok c call) (hs : Calls.step env c call = some c') :
    ∃ act, ok c.async act ∧ Async.step env c.async act = some c'.async ∧
      c'.sealing = c.sealing ∧ c'.undefined = c.undefined := by
  cases call with
  | async act =>
    exact ⟨act, hok.2, step_async hs fun hpushes => Or.inr fun hflush => hok.1 ⟨hpushes, hflush⟩⟩
  | _ => exact absurd hok id

/-- A run whose steps all meet the condition is one of the queue. -/
theorem Each.run {calls : List (Call A B R S)} (h : Run (Calls.step env) (Each ok) c calls c') :
    (∃ actions, Run (Async.step env) ok c.async actions c'.async) ∧ c'.sealing = c.sealing ∧
      c'.undefined = c.undefined := by
  induction h with
  | nil => exact ⟨⟨[], Run.nil⟩, rfl, rfl⟩
  | snoc _ hok hs ih =>
    obtain ⟨⟨actions, hrun⟩, hsealing, hundefined⟩ := ih
    obtain ⟨act, hact, hstep, hsealing', hundefined'⟩ := hok.step hs
    exact ⟨⟨_, hrun.snoc hact hstep⟩, hsealing'.trans hsealing, hundefined'.trans hundefined⟩

instance [∀ s act, Decidable (ok s act)] (c : Calls A B R S) :
    (call : Call A B R S) → Decidable (Each ok c call)
  | .async act => inferInstanceAs (Decidable (¬(act.pushes ∧ c.async.flushing) ∧ _))
  | .waits _ _ _ | .throws _ _ _ | .sealed _ | .fails _ => isFalse id

end Calls

end memo.consensus
