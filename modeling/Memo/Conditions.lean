-- Condition variables. A thread waits until it is notified, and runs once it has the lock again.
-- A wake-up is lost when what a thread waits for is there, and nobody was notified.
import Mathlib.Data.List.Nodup
import Mathlib.Data.List.Perm.Basic

namespace conditions

variable {T : Type*} [DecidableEq T]

/-- The threads that wait, and those that were notified and did not run yet. -/
structure Condition (T : Type*) where
  waiting : List T := []
  notified : List T := []

namespace Condition

def wait (t : T) (c : Condition T) : Condition T := { c with waiting := c.waiting ++ [t] }

/-- A waiting thread, whichever it is, if there is one. -/
def notify_one (woken : Option T) (c : Condition T) : Option (Condition T) :=
  match woken with
  | none => if c.waiting = [] then some c else none
  | some t =>
    if t ∈ c.waiting then some ⟨c.waiting.erase t, c.notified ++ [t]⟩ else none

/-- A waiting thread, on a transition only. -/
def notify_one_when (transition : Prop) [Decidable transition] (woken : Option T)
    (c : Condition T) : Option (Condition T) :=
  if transition then c.notify_one woken else some c

def notify_all (c : Condition T) : Condition T := ⟨[], c.notified ++ c.waiting⟩

/-- A thread that was notified runs. -/
def run (t : T) (c : Condition T) : Option (Condition T) :=
  if t ∈ c.notified then some { c with notified := c.notified.erase t } else none

def threads (c : Condition T) : List T := c.waiting ++ c.notified

/-- No wake-up is lost. -/
def Kept (c : Condition T) (ready : Prop) : Prop := ready → c.waiting ≠ [] → c.notified ≠ []

/-! ## What wakes -/

omit [DecidableEq T] in
theorem Kept.mono {c : Condition T} {ready ready' : Prop} (h : c.Kept ready)
    (himp : ready' → ready) : c.Kept ready' := fun hready => h (himp hready)

omit [DecidableEq T] in
theorem kept_of_not (c : Condition T) {ready : Prop} (h : ¬ ready) : c.Kept ready :=
  fun hready => absurd hready h

omit [DecidableEq T] in
theorem kept_notify_all (c : Condition T) (ready : Prop) : c.notify_all.Kept ready :=
  fun _ hwaiting => absurd rfl hwaiting

theorem kept_notify_one {c c' : Condition T} {woken : Option T}
    (h : c.notify_one woken = some c') (ready : Prop) : c'.Kept ready := by
  intro _ hwaiting
  cases woken with
  | none =>
    simp only [notify_one, Option.ite_none_right_eq_some, Option.some.injEq] at h
    obtain ⟨hnil, rfl⟩ := h
    exact absurd hnil hwaiting
  | some t =>
    simp only [notify_one, Option.ite_none_right_eq_some, Option.some.injEq] at h
    obtain ⟨-, rfl⟩ := h
    simp

theorem kept_notify_one_when {c c' : Condition T} {woken : Option T} {transition ready : Prop}
    [Decidable transition] (h : c.notify_one_when transition woken = some c')
    (hkept : ¬ transition → c.Kept ready) : c'.Kept ready := by
  unfold notify_one_when at h
  split at h
  · exact kept_notify_one h ready
  · next hno =>
    cases h
    exact hkept hno

theorem run_eq_some {c c' : Condition T} {t : T} (h : c.run t = some c') :
    t ∈ c.notified ∧ c' = { c with notified := c.notified.erase t } := by
  simp only [run, Option.ite_none_right_eq_some, Option.some.injEq] at h
  exact ⟨h.1, h.2.symm⟩

theorem kept_run_iff {c c' : Condition T} {t : T} {ready : Prop} (h : c.run t = some c') :
    c'.Kept ready ↔ ¬ (ready ∧ c.notified = [t] ∧ c.waiting ≠ []) := by
  obtain ⟨hmem, rfl⟩ := run_eq_some h
  have herase : c.notified.erase t = [] ↔ c.notified = [t] := by
    rw [List.erase_eq_nil_iff]
    constructor
    · rintro (hnil | hone)
      · rw [hnil] at hmem
        cases hmem
      · exact hone
    · exact .inr
  unfold Kept
  simp only [ne_eq, herase]
  tauto

end Condition

end conditions
