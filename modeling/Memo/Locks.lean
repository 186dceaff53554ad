-- Locks that a thread acquires or waits for. A lock may have several faces (for
-- reading, for writing), each with the threads that wait on it. What a lock has to
-- satisfy is in `Laws`; from it, exclusion and wake-ups hold in every run.
import Memo.Runs

open runs

namespace locks

/-- A lock whose state is of type `L`, for the threads `T`, with the faces `F`. -/
structure Lockable (L T F : Type) where
  /-- The lock once it is acquired, unless the thread has to wait. -/
  acquire : L → T → F → Option L
  /-- The lock once the thread is registered, unless it does not have to wait. -/
  wait : L → T → F → Option L
  /-- The lock once it is released, with the faces that are signalled, unless an assertion fails. -/
  release : L → F → Option (L × List F)

inductive Phase (F : Type) where
  | running
  | waiting (f : F)
  /-- The wait is over, and the thread is to try again. -/
  | woken (f : F)
deriving DecidableEq

/-- A lock and the threads that use it. -/
structure State (L T F : Type) where
  lock : L
  waiters : F → List T
  phase : T → Phase F
  /-- The locks held, the last one acquired first. -/
  owners : List (T × F)
  /-- An assertion has failed, or a thread has not to wait for a lock that it does not acquire. -/
  failed : Bool

inductive Action (T F : Type) where
  | lock (t : T) (f : F)
  | resume (t : T)
  /-- The lock that the thread acquired last is released. -/
  | unlock (t : T)
  /-- The wait of the thread is aborted. -/
  | abort (t : T)
deriving DecidableEq

variable {L T F : Type} [DecidableEq T] [DecidableEq F]

namespace State

variable {k : Lockable L T F} {s s' : State L T F} {t u : T} {f g : F}

def start (lock : L) : State L T F := ⟨lock, fun _ => [], fun _ => .running, [], false⟩

/-- One turn of the loop that acquires the lock. -/
def attempt (k : Lockable L T F) (s : State L T F) (t : T) (f : F) : State L T F :=
  match k.acquire s.lock t f with
  | some lock =>
    { s with
      lock
      owners := (t, f) :: s.owners
      phase := Function.update s.phase t .running }
  | none =>
    match k.wait s.lock t f with
    | some lock =>
      { s with
        lock
        waiters := Function.update s.waiters f (s.waiters f ++ [t])
        phase := Function.update s.phase t (.waiting f) }
    | none => { s with failed := true }

/-- The threads that wait on the face are woken. -/
def signal (s : State L T F) (f : F) : State L T F :=
  { s with
    waiters := Function.update s.waiters f []
    phase := fun t => if t ∈ s.waiters f then .woken f else s.phase t }

def unlock (k : Lockable L T F) (s : State L T F) (t : T) (f : F) : State L T F :=
  match k.release s.lock f with
  | some (lock, faces) =>
    faces.foldl signal { s with lock, owners := s.owners.eraseP (·.1 = t) }
  | none => { s with failed := true }

def step (k : Lockable L T F) (s : State L T F) : Action T F → Option (State L T F)
  | .lock t f =>
    match s.phase t with
    | .running => some (s.attempt k t f)
    | _ => none
  | .resume t =>
    match s.phase t with
    | .woken f => some (s.attempt k t f)
    | _ => none
  | .unlock t =>
    match s.phase t, s.owners.find? (·.1 = t) with
    | .running, some (_, f) => some (s.unlock k t f)
    | _, _ => none
  | .abort t =>
    match s.phase t with
    | .waiting f =>
      some { s with
        waiters := Function.update s.waiters f ((s.waiters f).erase t)
        phase := Function.update s.phase t .running }
    | .woken _ => some { s with phase := Function.update s.phase t .running }
    | .running => none

end State

/-! ## The laws of a lock -/

/-- A lock that follows its owners as `Good` says. -/
structure Laws (k : Lockable L T F) (Good : L → List (T × F) → Prop) : Prop where
  acquired : ∀ {lock lock' owners t f}, Good lock owners → k.acquire lock t f = some lock' →
    Good lock' ((t, f) :: owners) ∧
      ∀ u g, k.acquire lock u g = none → k.acquire lock' u g = none
  /-- A thread that does not acquire the lock has to wait. -/
  waits : ∀ {lock owners t f}, Good lock owners → k.acquire lock t f = none →
    ∃ lock', k.wait lock t f = some lock' ∧ Good lock' owners ∧
      ∀ u g, k.acquire lock u g = none → k.acquire lock' u g = none
  /-- The threads that do not acquire the lock afterwards are the only ones that are not woken. -/
  released : ∀ {lock owners t f}, Good lock owners → owners.find? (·.1 = t) = some (t, f) →
    ∃ lock' faces, k.release lock f = some (lock', faces) ∧
      Good lock' (owners.eraseP (·.1 = t)) ∧
      ∀ u g, g ∉ faces → k.acquire lock u g = none → k.acquire lock' u g = none

namespace State

variable {k : Lockable L T F} {Good : L → List (T × F) → Prop} {s s' : State L T F}
variable {t u : T} {f g : F} {a : Action T F}

/-- The threads that wait are those that are registered. -/
structure Tidy (s : State L T F) : Prop where
  listed : ∀ t f, s.phase t = .waiting f ↔ t ∈ s.waiters f
  once : ∀ f, (s.waiters f).Nodup

structure Inv (k : Lockable L T F) (Good : L → List (T × F) → Prop) (s : State L T F) : Prop where
  tidy : s.Tidy
  good : Good s.lock s.owners
  asserted : s.failed = false
  blocked : ∀ t f, s.phase t = .waiting f → k.acquire s.lock t f = none

omit [DecidableEq T] [DecidableEq F] in
theorem inv_start {lock : L} (h : Good lock []) : (start lock : State L T F).Inv k Good :=
  ⟨⟨by simp [start], by simp [start]⟩, h, rfl, by simp [start]⟩

theorem Inv.attempt (hk : Laws k Good) (h : s.Inv k Good) (ht : ∀ g, s.phase t ≠ .waiting g) :
    (s.attempt k t f).Inv k Good := by
  unfold State.attempt
  split
  · rename_i lock hacquire
    obtain ⟨hgood, hrest⟩ := hk.acquired h.good hacquire
    refine ⟨⟨fun u g => ?_, h.tidy.once⟩, hgood, h.asserted, fun u g hu => ?_⟩
    · simp only [← h.tidy.listed u g, Function.update_apply]
      split_ifs with heq
      · simp [heq, ht g]
      · rfl
    · simp only [Function.update_apply] at hu
      split_ifs at hu
      exact hrest u g (h.blocked u g hu)
  · rename_i hacquire
    obtain ⟨lock, hwait, hgood, hrest⟩ := hk.waits h.good hacquire
    have hnew : t ∉ s.waiters f := fun hm => ht f ((h.tidy.listed t f).mpr hm)
    rw [hwait]
    refine ⟨⟨fun u g => ?_, fun g => ?_⟩, hgood, h.asserted, fun u g hu => ?_⟩
    · simp only [Function.update_apply]
      by_cases hut : u = t
      · subst hut
        by_cases hgf : g = f
        · simp [hgf]
        · simp [hgf, Ne.symm hgf, ← h.tidy.listed u g, ht g]
      · by_cases hgf : g = f
        · simp [hut, hgf, h.tidy.listed u f]
        · simp [hut, hgf, h.tidy.listed u g]
    · simp only [Function.update_apply]
      split_ifs
      · refine List.nodup_append.mpr ⟨h.tidy.once f, by simp, fun x hx y hy => ?_⟩
        obtain rfl : y = t := by simpa using hy
        rintro rfl
        exact hnew hx
      · exact h.tidy.once g
    · simp only [Function.update_apply] at hu
      split_ifs at hu with hut
      · cases hu
        exact hut ▸ hrest t f hacquire
      · exact hrest u g (h.blocked u g hu)

theorem Tidy.signal (h : s.Tidy) : (s.signal f).Tidy ∧
    ∀ u g, (s.signal f).phase u = .waiting g → s.phase u = .waiting g ∧ g ≠ f := by
  have hphase : ∀ u g, (s.signal f).phase u = .waiting g ↔ s.phase u = .waiting g ∧ g ≠ f := by
    intro u g
    simp only [State.signal]
    split_ifs with hm
    · have hu : s.phase u = .waiting f := (h.listed u f).mpr hm
      simp [hu, eq_comm]
    · have hu : s.phase u ≠ .waiting f := fun hu => hm ((h.listed u f).mp hu)
      constructor
      · intro hg
        refine ⟨hg, ?_⟩
        rintro rfl
        exact hu hg
      · exact fun hg => hg.1
  refine ⟨⟨fun u g => ?_, fun g => ?_⟩, fun u g => (hphase u g).mp⟩
  · rw [hphase u g, h.listed u g]
    simp only [State.signal, Function.update_apply]
    split_ifs with hgf
    · simp [hgf]
    · simp [hgf]
  · simp only [State.signal, Function.update_apply]
    split_ifs
    · exact List.nodup_nil
    · exact h.once g

theorem Tidy.signal_all (h : s.Tidy) (faces : List F) : (faces.foldl State.signal s).Tidy ∧
    (faces.foldl State.signal s).lock = s.lock ∧
    (faces.foldl State.signal s).owners = s.owners ∧
    (faces.foldl State.signal s).failed = s.failed ∧
    ∀ u g, (faces.foldl State.signal s).phase u = .waiting g →
      s.phase u = .waiting g ∧ g ∉ faces := by
  induction faces generalizing s with
  | nil => exact ⟨h, rfl, rfl, rfl, fun u g hu => ⟨hu, by simp⟩⟩
  | cons f faces ih =>
    obtain ⟨htidy, hone⟩ := h.signal (f := f)
    obtain ⟨hall, hlock, howners, hfailed, hrest⟩ := ih htidy
    refine ⟨hall, hlock, howners, hfailed, fun u g hu => ?_⟩
    obtain ⟨hu, hg⟩ := hrest u g hu
    obtain ⟨hu, hne⟩ := hone u g hu
    exact ⟨hu, by simp [hne, hg]⟩

theorem Inv.unlock (hk : Laws k Good) (h : s.Inv k Good)
    (ht : s.owners.find? (·.1 = t) = some (t, f)) : (s.unlock k t f).Inv k Good := by
  obtain ⟨lock, faces, hrelease, hgood, hrest⟩ := hk.released h.good ht
  have htidy : { s with lock, owners := s.owners.eraseP (·.1 = t) }.Tidy :=
    ⟨h.tidy.listed, h.tidy.once⟩
  obtain ⟨hall, hlock, howners, hfailed, hwaiting⟩ := htidy.signal_all faces
  simp only [State.unlock, hrelease]
  refine ⟨hall, ?_, hfailed.trans h.asserted, fun u g hu => ?_⟩
  · rw [hlock, howners]
    exact hgood
  · obtain ⟨hu, hg⟩ := hwaiting u g hu
    rw [hlock]
    exact hrest u g hg (h.blocked u g hu)

theorem Inv.step (hk : Laws k Good) (h : s.Inv k Good) (hs : s.step k a = some s') :
    s'.Inv k Good := by
  cases a with
  | lock t f =>
    simp only [State.step] at hs
    split at hs
    · rename_i ht
      cases hs
      exact h.attempt hk (by simp [ht])
    · cases hs
  | resume t =>
    simp only [State.step] at hs
    split at hs
    · rename_i f ht
      cases hs
      exact h.attempt hk (by simp [ht])
    · cases hs
  | unlock t =>
    simp only [State.step] at hs
    split at hs
    · rename_i u f hphase ht
      cases hs
      obtain rfl : u = t := by simpa using List.find?_some ht
      exact h.unlock hk ht
    · cases hs
  | abort t =>
    simp only [State.step] at hs
    split at hs
    · rename_i f ht
      cases hs
      refine ⟨⟨fun u g => ?_, fun g => ?_⟩, h.good, h.asserted, fun u g hu => ?_⟩
      · simp only [Function.update_apply]
        by_cases hut : u = t
        · subst hut
          by_cases hgf : g = f
          · simp [hgf, (h.tidy.once f).mem_erase_iff]
          · simp [hgf, ← h.tidy.listed u g, ht, Ne.symm hgf]
        · by_cases hgf : g = f
          · simp [hut, hgf, h.tidy.listed u f, List.mem_erase_of_ne hut]
          · simp [hut, hgf, h.tidy.listed u g]
      · simp only [Function.update_apply]
        split_ifs
        · exact (h.tidy.once f).erase t
        · exact h.tidy.once g
      · simp only [Function.update_apply] at hu
        split_ifs at hu
        exact h.blocked u g hu
    · rename_i f ht
      cases hs
      refine ⟨⟨fun u g => ?_, h.tidy.once⟩, h.good, h.asserted, fun u g hu => ?_⟩
      · simp only [Function.update_apply]
        split_ifs with hut
        · simp [hut, ← h.tidy.listed t g, ht]
        · exact h.tidy.listed u g
      · simp only [Function.update_apply] at hu
        split_ifs at hu
        exact h.blocked u g hu
    · cases hs

/-- No thread is left waiting on a lock that it would acquire. -/
structure NobodyLeft (k : Lockable L T F) (s : State L T F) : Prop where
  blocked : ∀ t f, s.phase t = .waiting f → k.acquire s.lock t f = none
  asserted : s.failed = false

theorem run_laws {as : List (Action T F)} {lock : L} (hk : Laws k Good) (h₀ : Good lock [])
    (hrun : Run (step k) anyStep (start lock) as s) : Good s.lock s.owners ∧ s.NobodyLeft k := by
  have h : s.Inv k Good := hrun.invariant (inv_start h₀) fun _ _ _ h _ hs => h.step hk hs
  exact ⟨h.good, h.blocked, h.asserted⟩

end State

end locks
