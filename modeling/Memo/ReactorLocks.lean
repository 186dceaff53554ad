-- The locks of the reactor. They wake everybody that waits when they are released, and
-- a thread that is woken tries again.
import Memo.Locks

open runs locks

namespace elle.reactor

variable {T : Type} [DecidableEq T]

/-! ## Mutex -/

/-- `_locked` -/
def Mutex (T : Type) : Lockable Bool T Unit where
  acquire _locked _ _ := if _locked then none else some true
  wait _locked _ _ := if _locked then some true else none
  release _locked _ := if _locked then some (false, [()]) else none

def Mutex.Good (_locked : Bool) (owners : List (T × Unit)) : Prop :=
  owners.length = if _locked then 1 else 0

theorem mutex_laws : Laws (Mutex T) Mutex.Good where
  acquired := by
    intro lock lock' owners t f hgood h
    simp only [Mutex, Option.ite_none_left_eq_some, Bool.not_eq_true, Option.some.injEq] at h
    obtain ⟨rfl, rfl⟩ := h
    refine ⟨?_, fun u g hu => by simp [Mutex] at hu⟩
    simpa [Mutex.Good] using hgood
  waits := by
    intro lock owners t f hgood h
    have hlock : lock = true := by simpa [Mutex] using h
    subst hlock
    exact ⟨true, rfl, hgood, fun u g hu => hu⟩
  released := by
    intro lock owners t f hgood h
    cases lock with
    | false =>
      have hnil : owners = [] := by simpa [Mutex.Good] using hgood
      simp [hnil] at h
    | true =>
      obtain ⟨x, rfl⟩ := List.length_eq_one_iff.mp (by simpa [Mutex.Good] using hgood)
      obtain ⟨htrue, rfl⟩ : x.1 = t ∧ x = (t, f) := by simpa [List.find?_cons_eq_some] using h
      exact ⟨false, [()], rfl, by simp [Mutex.Good], fun u g hg => absurd (by simp) hg⟩

/-! ## Semaphore -/

/-- `_count` -/
def Semaphore (T : Type) : Lockable Int T Unit where
  acquire _count _ _ := if 0 < _count then some (_count - 1) else none
  wait _count _ _ := if _count ≤ 0 then some _count else none
  release _count _ := some (_count + 1, [()])

/-- The permits that are not held are left. -/
def Semaphore.Good (permits _count : Int) (owners : List (T × Unit)) : Prop :=
  _count + owners.length = permits ∧ (owners = [] ∨ 0 ≤ _count)

theorem semaphore_laws (permits : Int) : Laws (Semaphore T) (Semaphore.Good permits) where
  acquired := by
    intro lock lock' owners t f hgood h
    obtain ⟨hpos, rfl⟩ : 0 < lock ∧ lock - 1 = lock' := by simpa [Semaphore] using h
    refine ⟨⟨?_, Or.inr (by omega)⟩, fun u g hu => ?_⟩
    · have := hgood.1
      simp only [List.length_cons]
      omega
    · simp [Semaphore, hpos] at hu
  waits := by
    intro lock owners t f hgood h
    have hlock : lock ≤ 0 := by simpa [Semaphore] using h
    exact ⟨lock, by simp [Semaphore, hlock], hgood, fun u g hu => hu⟩
  released := by
    intro lock owners t f hgood h
    refine ⟨lock + 1, [()], rfl, ?_, fun u g hg => absurd (by simp) hg⟩
    have hmem : (t, f) ∈ owners := List.mem_of_find?_eq_some h
    have hlen : (owners.eraseP (·.1 = t)).length = owners.length - 1 :=
      List.length_eraseP_of_mem hmem (by simp)
    have hpos : 0 < owners.length := List.length_pos_of_mem hmem
    have hcount : 0 ≤ lock := hgood.2.resolve_left (List.ne_nil_of_mem hmem)
    have := hgood.1
    exact ⟨by omega, Or.inr (by omega)⟩

/-! ## RWMutex -/

inductive Face
  | read | write
deriving DecidableEq

structure RWMutex (T : Type) where
  _locked : Option T
  _locked_recursive : Int
  _readers : Int
deriving DecidableEq

namespace RWMutex

def free : RWMutex T := ⟨none, 0, 0⟩

def acquire (l : RWMutex T) (t : T) : Face → Option (RWMutex T)
  | .write =>
    if l._locked = some t then some { l with _locked_recursive := l._locked_recursive + 1 }
    else if 0 < l._readers ∨ l._locked.isSome then none
    else some { l with _locked := some t }
  | .read =>
    match l._locked with
    | some u =>
      if u = t then some { l with _locked_recursive := l._locked_recursive + 1 } else none
    | none => some { l with _readers := l._readers + 1 }

def wait (l : RWMutex T) (t : T) : Face → Option (RWMutex T)
  | .write =>
    if l._locked = some t then none
    else if 0 < l._readers ∨ l._locked.isSome then some l
    else none
  | .read =>
    match l._locked with
    | some u => if u = t then none else some l
    | none => none

def release (l : RWMutex T) : Face → Option (RWMutex T × List Face)
  | .write =>
    if l._locked_recursive ≠ 0 then
      some ({ l with _locked_recursive := l._locked_recursive - 1 }, [])
    else if l._locked.isSome then some ({ l with _locked := none }, [.write, .read])
    else none
  | .read =>
    if l._locked.isSome then
      if 0 < l._locked_recursive then
        some ({ l with _locked_recursive := l._locked_recursive - 1 }, [])
      else none
    else if 0 < l._readers then
      some ({ l with _readers := l._readers - 1 }, if l._readers - 1 = 0 then [.write] else [])
    else none

end RWMutex

def rw_mutex (T : Type) [DecidableEq T] : Lockable (RWMutex T) T Face where
  acquire := RWMutex.acquire
  wait := RWMutex.wait
  release := RWMutex.release

namespace RWMutex

variable {l l' : RWMutex T} {owners : List (T × Face)} {t u : T} {f g : Face}

/-- The writer holds all the locks, the first of them for writing; else all are for reading. -/
def Good (l : RWMutex T) (owners : List (T × Face)) : Prop :=
  match l._locked with
  | some t => (∀ x ∈ owners, x.1 = t) ∧ owners.getLast? = some (t, .write) ∧ l._readers = 0 ∧
      (owners.length : Int) = l._locked_recursive + 1
  | none => (∀ x ∈ owners, x.2 = .read) ∧ l._locked_recursive = 0 ∧
      (owners.length : Int) = l._readers

theorem acquire_eq_none : l.acquire u g = none ↔
    (∃ o, l._locked = some o ∧ o ≠ u) ∨ l._locked = none ∧ g = .write ∧ 0 < l._readers := by
  cases hl : l._locked with
  | none => cases g <;> simp [acquire, hl]
  | some o => cases g <;> simp [acquire, hl]

theorem acquire_of_locked (hl : l._locked = some t) :
    l.acquire t f = some { l with _locked_recursive := l._locked_recursive + 1 } := by
  cases f <;> simp [acquire, hl]

theorem good_acquired (h : l.Good owners) (ha : l.acquire t f = some l') :
    l'.Good ((t, f) :: owners) ∧ ∀ u g, l.acquire u g = none → l'.acquire u g = none := by
  cases hl : l._locked with
  | some o =>
    have hot : o = t := by
      by_contra hne
      have hnone : l.acquire t f = none := acquire_eq_none.mpr (Or.inl ⟨o, hl, hne⟩)
      simp [hnone] at ha
    subst hot
    rw [acquire_of_locked hl, Option.some.injEq] at ha
    subst ha
    simp only [Good, hl] at h
    obtain ⟨hall, hlast, hreaders, hlen⟩ := h
    constructor
    · simp only [Good, hl]
      refine ⟨?_, by simp [List.getLast?_cons, hlast], hreaders, ?_⟩
      · simpa using hall
      · simp only [List.length_cons]
        omega
    · intro u g hu
      rw [acquire_eq_none] at hu ⊢
      simpa [hl] using hu
  | none =>
    simp only [Good, hl] at h
    obtain ⟨hall, hrec, hlen⟩ := h
    cases f with
    | write =>
      simp only [acquire, hl, reduceCtorEq, if_false, Option.isSome_none, Bool.false_eq_true,
        or_false, Option.ite_none_left_eq_some, Option.some.injEq] at ha
      obtain ⟨hreaders, rfl⟩ := ha
      have hnil : owners = [] := List.length_eq_zero_iff.mp (by omega)
      subst hnil
      constructor
      · refine ⟨by simp, by simp, ?_, by simp [hrec]⟩
        simpa using hlen.symm
      · intro u g hu
        rw [acquire_eq_none] at hu
        simp [hl, hreaders] at hu
    | read =>
      simp only [acquire, hl, Option.some.injEq] at ha
      subst ha
      constructor
      · simp only [Good]
        refine ⟨by simpa using hall, hrec, ?_⟩
        simp only [List.length_cons]
        omega
      · intro u g hu
        rw [acquire_eq_none] at hu ⊢
        simp only [hl, reduceCtorEq, false_and, exists_false, true_and, false_or] at hu ⊢
        exact ⟨hu.1, by omega⟩

theorem wait_of_acquire (h : l.acquire t f = none) : l.wait t f = some l := by
  rcases acquire_eq_none.mp h with ⟨o, hl, hne⟩ | ⟨hl, rfl, hreaders⟩
  · cases f <;> simp [wait, hl, hne]
  · simp [wait, hl, hreaders]

theorem good_released (h : l.Good owners) (ht : owners.find? (·.1 = t) = some (t, f)) :
    ∃ l' faces, l.release f = some (l', faces) ∧ l'.Good (owners.eraseP (·.1 = t)) ∧
      ∀ u g, g ∉ faces → l.acquire u g = none → l'.acquire u g = none := by
  have hmem : (t, f) ∈ owners := List.mem_of_find?_eq_some ht
  cases hl : l._locked with
  | some o =>
    simp only [Good, hl] at h
    obtain ⟨hall, hlast, hreaders, hlen⟩ := h
    obtain rfl : t = o := hall _ hmem
    -- the lock that is released is the last one acquired
    obtain ⟨x, rest, rfl⟩ := List.exists_cons_of_ne_nil (List.ne_nil_of_mem hmem)
    have hx : x.1 = t := hall x (List.mem_cons_self ..)
    have hxf : x = (t, f) := by simpa [List.find?_cons, hx] using ht
    have herase : (x :: rest).eraseP (·.1 = t) = rest := by simp [hx]
    rw [herase]
    simp only [List.length_cons] at hlen
    by_cases hrest : rest = []
    · subst hrest
      have hf : f = .write := by simpa [hxf] using hlast
      have hrec : l._locked_recursive = 0 := by
        simp only [List.length_nil] at hlen
        omega
      refine ⟨{ l with _locked := none }, [.write, .read], by simp [release, hf, hrec, hl],
        ?_, fun u g hg => ?_⟩
      · simp [Good, hrec, hreaders]
      · cases g <;> simp at hg
    · have hpos : 0 < l._locked_recursive := by
        have := List.length_pos_iff.mpr hrest
        omega
      refine ⟨{ l with _locked_recursive := l._locked_recursive - 1 }, [], ?_, ?_, ?_⟩
      · have hne : l._locked_recursive ≠ 0 := by omega
        cases f <;> simp [release, hl, hpos, hne]
      · simp only [Good, hl]
        refine ⟨fun y hy => hall y (List.mem_cons_of_mem x hy), ?_, hreaders, by omega⟩
        rwa [List.getLast?_cons_of_ne_nil hrest] at hlast
      · intro u g _ hu
        rw [acquire_eq_none] at hu ⊢
        simpa [hl] using hu
  | none =>
    simp only [Good, hl] at h
    obtain ⟨hall, hrec, hlen⟩ := h
    have hf : f = .read := hall _ hmem
    have herase : (owners.eraseP (·.1 = t)).length = owners.length - 1 :=
      List.length_eraseP_of_mem hmem (by simp)
    have hpos : 0 < owners.length := List.length_pos_of_mem hmem
    have hreaders : 0 < l._readers := by omega
    refine ⟨{ l with _readers := l._readers - 1 }, if l._readers - 1 = 0 then [.write] else [],
      by simp [release, hf, hl, hreaders], ?_, ?_⟩
    · simp only [Good, hl]
      exact ⟨fun y hy => hall y (List.mem_of_mem_eraseP hy), hrec, by omega⟩
    · intro u g hg hu
      rw [acquire_eq_none] at hu ⊢
      simp only [hl, reduceCtorEq, false_and, exists_false, true_and, false_or] at hu ⊢
      obtain ⟨rfl, -⟩ := hu
      refine ⟨rfl, ?_⟩
      split_ifs at hg with hlast
      · simp at hg
      · omega

end RWMutex

theorem rw_mutex_laws : Laws (rw_mutex T) RWMutex.Good where
  acquired := RWMutex.good_acquired
  waits := fun hgood h => ⟨_, RWMutex.wait_of_acquire h, hgood, fun _ _ hu => hu⟩
  released := RWMutex.good_released

omit [DecidableEq T] in
theorem RWMutex.Good.excludes {l : RWMutex T} {owners : List (T × Face)} {t u : T} {f : Face}
    (h : l.Good owners) (ht : (t, .write) ∈ owners) (hu : (u, f) ∈ owners) : u = t := by
  unfold RWMutex.Good at h
  split at h
  · exact (h.1 _ hu).trans (h.1 _ ht).symm
  · cases h.1 _ ht

/-- In every run of lock constructions and destructions, and of waits that are aborted, a mutex has
one owner, a semaphore no more than its permits and a writer no other beside it; and nobody is left
waiting for a lock that it would acquire. -/
theorem locks_exclude :
    (∀ (as : List (Action T Unit)) s, Run (locks.State.step (Mutex T)) anyStep (.start false) as s →
      s.owners.length ≤ 1 ∧ s.NobodyLeft (Mutex T)) ∧
    (∀ permits (as : List (Action T Unit)) s,
      Run (locks.State.step (Semaphore T)) anyStep (.start permits) as s →
        (s.owners.length : Int) ≤ max permits 0 ∧ s.NobodyLeft (Semaphore T)) ∧
    ∀ (as : List (Action T Face)) s,
      Run (locks.State.step (rw_mutex T)) anyStep (.start .free) as s →
      (∀ t u f, (t, .write) ∈ s.owners → (u, f) ∈ s.owners → u = t) ∧
        s.NobodyLeft (rw_mutex T) := by
  refine ⟨fun as s hrun => ?_, fun permits as s hrun => ?_, fun as s hrun => ?_⟩
  · obtain ⟨hgood, hleft⟩ := locks.State.run_laws mutex_laws (by simp [Mutex.Good]) hrun
    refine ⟨?_, hleft⟩
    unfold Mutex.Good at hgood
    split_ifs at hgood <;> omega
  · obtain ⟨hgood, hleft⟩ :=
      locks.State.run_laws (semaphore_laws permits) (by simp [Semaphore.Good]) hrun
    refine ⟨?_, hleft⟩
    have hsum := hgood.1
    rcases hgood.2 with hnil | hcount
    · simp only [hnil, List.length_nil]
      omega
    · omega
  · have hfree : RWMutex.Good (.free : RWMutex T) [] := by simp [RWMutex.Good, RWMutex.free]
    obtain ⟨hgood, hleft⟩ := locks.State.run_laws rw_mutex_laws hfree hrun
    exact ⟨fun t u f => hgood.excludes, hleft⟩

/-- Two readers, and a writer that waits for both and locks again for reading. -/
def readers_then_writer : List (Action Nat Face) :=
  [.lock 0 .read, .lock 1 .read, .lock 2 .write, .unlock 0, .unlock 1, .resume 2, .lock 2 .read,
    .lock 0 .read]

theorem the_writer_is_alone : ∃ s : locks.State (RWMutex Nat) Nat Face,
    Run (locks.State.step (rw_mutex Nat)) anyStep (.start .free) readers_then_writer s ∧
    s.owners = [(2, .read), (2, .write)] ∧ s.phase 0 = .waiting .read ∧
    (∀ t u f, (t, .write) ∈ s.owners → (u, f) ∈ s.owners → u = t) ∧
    s.NobodyLeft (rw_mutex Nat) := by
  have hrun : Run (locks.State.step (rw_mutex Nat)) anyStep (.start .free) readers_then_writer _ :=
    Run.of_exec rfl
  exact ⟨_, hrun, rfl, rfl, locks_exclude.2.2 _ _ hrun⟩

end elle.reactor
