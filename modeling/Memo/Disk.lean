-- Programs that act on the files of a disk, one action after the other, and may
-- be cut between two actions. A specification says what the disk is when the
-- program ends, and what it is wherever the program is cut.
import Mathlib.Logic.Function.Basic

namespace disk

variable {N α R R' : Type} [DecidableEq N]

/-- The content of each file that exists. -/
abbrev Disk (N α : Type) := N → Option (List α)

inductive Action (N α : Type) where
  | present (p : N)
  | create (p : N)
  | append (p : N) (l : List α)
  | rename (source target : N)
  | remove (p : N)

/-- An action on a file that is not there throws, but for a removal. -/
def Action.run : Action N α → Disk N α → Option (Bool × Disk N α)
  | .present p, d => some ((d p).isSome, d)
  | .create p, d => some (true, Function.update d p (some []))
  | .append p l, d => (d p).map fun c => (true, Function.update d p (some (c ++ l)))
  | .rename p q, d =>
    (d p).map fun c => (true, Function.update (Function.update d p none) q (some c))
  | .remove p, d => some ((d p).isSome, Function.update d p none)

inductive Program (N α R : Type) where
  | ret (r : R)
  | act (a : Action N α) (k : Bool → Program N α R)

namespace Program

def bind : Program N α R → (R → Program N α R') → Program N α R'
  | ret r, f => f r
  | act a k, f => act a fun b => bind (k b) f

instance : Monad (Program N α) where
  pure := ret
  bind := bind

def present (p : N) : Program N α Bool := act (.present p) ret

def create (p : N) : Program N α Unit := act (.create p) fun _ => ret ()

def append (p : N) (l : List α) : Program N α Unit := act (.append p l) fun _ => ret ()

def rename (p q : N) : Program N α Unit := act (.rename p q) fun _ => ret ()

def remove (p : N) : Program N α Unit := act (.remove p) fun _ => ret ()

/-! ## Specifications -/

/-- From this disk the program does not throw, ends with `Q`, and leaves a disk with `I` wherever
it is cut. -/
def Ends (Q : R → Disk N α → Prop) (I : Disk N α → Prop) : Program N α R → Disk N α → Prop
  | ret r, d => I d ∧ Q r d
  | act a k, d => I d ∧ ∃ b d', a.run d = some (b, d') ∧ Ends Q I (k b) d'

variable {Q Q' : R → Disk N α → Prop} {I : Disk N α → Prop} {d : Disk N α}

theorem Ends.cut {c : Program N α R} (h : Ends Q I c d) : I d := by
  cases c <;> exact h.1

theorem Ends.bind {c : Program N α R} {f : R → Program N α R'} {Q' : R' → Disk N α → Prop}
    (h : Ends (fun r d => Ends Q' I (f r) d) I c d) : Ends Q' I (c >>= f) d := by
  induction c generalizing d with
  | ret r => exact h.2
  | act a k ih =>
    obtain ⟨hI, b, d', hrun, hk⟩ := h
    exact ⟨hI, b, d', hrun, ih b hk⟩

theorem Ends.pure {r : R} (hI : I d) (hQ : Q r d) : Ends Q I (pure r) d := ⟨hI, hQ⟩

/-! ## The rules of the actions -/

theorem Ends.present {p : N} {Q : Bool → Disk N α → Prop} (hI : I d) (hQ : Q (d p).isSome d) :
    Ends Q I (present p) d :=
  ⟨hI, _, d, rfl, hI, hQ⟩

theorem Ends.create {p : N} {Q : Unit → Disk N α → Prop} (hI : I d)
    (hI' : I (Function.update d p (some []))) (hQ : Q () (Function.update d p (some []))) :
    Ends Q I (create p) d :=
  ⟨hI, _, _, rfl, hI', hQ⟩

theorem Ends.append {p : N} {l c : List α} {Q : Unit → Disk N α → Prop} (hI : I d)
    (hc : d p = some c) (hI' : I (Function.update d p (some (c ++ l))))
    (hQ : Q () (Function.update d p (some (c ++ l)))) : Ends Q I (append p l) d :=
  ⟨hI, true, _, by simp [Action.run, hc], hI', hQ⟩

theorem Ends.rename {p q : N} {c : List α} {Q : Unit → Disk N α → Prop} (hI : I d)
    (hc : d p = some c) (hI' : I (Function.update (Function.update d p none) q (some c)))
    (hQ : Q () (Function.update (Function.update d p none) q (some c))) :
    Ends Q I (rename p q) d :=
  ⟨hI, true, _, by simp [Action.run, hc], hI', hQ⟩

theorem Ends.remove {p : N} {Q : Unit → Disk N α → Prop} (hI : I d)
    (hI' : I (Function.update d p none)) (hQ : Q () (Function.update d p none)) :
    Ends Q I (remove p) d :=
  ⟨hI, _, _, rfl, hI', hQ⟩

end Program

end disk
