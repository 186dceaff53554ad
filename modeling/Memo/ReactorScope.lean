-- A `Scope`, the thread that owns it and the jobs that they start. The first job that
-- throws terminates the others, deletes them, and throws its exception into the thread
-- that started it.
import Memo.Runs
import Mathlib.Data.List.Count

open runs

namespace elle.reactor.scope

/-- What a thread throws when it runs on. -/
inductive Pending (E : Type) where
  | terminate
  | error (e : E)
deriving DecidableEq

/-- Where a job stands. -/
inductive Phase (E : Type) where
  | starting
  | ready
  /-- It waits for something else than the scope. -/
  | frozen
  /-- It threw `e`, and waits in `_terminate_now` for the others; the wait may have thrown. -/
  | joining (e : E) (interrupted : Bool)
  /-- It started a job in a scope that has an exception, and waits on the scope. -/
  | discarded
  | done
deriving DecidableEq

structure Job (T E : Type) where
  /-- The job that started it, or the owner of the scope. -/
  parent : Option T
  phase : Phase E
  _terminating : Bool
  _exception : Option (Pending E)
  deleted : Bool

/-- The owner starts jobs, waits on the scope, is woken, and has returned from its wait or
thrown. -/
inductive Stage (E : Type) where
  | working
  | waiting
  | woken
  | ended (result : Option E)
deriving DecidableEq

/-- The scope and its threads. -/
structure Scope (T E : Type) where
  _threads : List T
  _running : Int
  _exception : Option E
  /-- The exception of the scope as a `Waitable`. -/
  held : Option E
  jobs : T → Job T E
  owner : Stage E
  /-- `_exception` of the owner. -/
  pending : Option E
  /-- The jobs started. -/
  created : List T
  /-- The exceptions that jobs threw, and those that the owner did. -/
  thrown : List E
  received : List E
  /-- An exception was raised in a thread that had been deleted. -/
  broken : Bool

inductive Action (T E : Type) where
  | run_background (parent : Option T) (t : T)
  /-- The owner waits on the scope. -/
  | wait
  /-- The owner runs on. -/
  | resume
  /-- A job starts, waits, and is woken. -/
  | begin (t : T)
  | freeze (t : T)
  | wake (t : T)
  /-- A job throws the exception that was raised in it. -/
  | deliver (t : T)
  /-- A job is over, by itself or by `Terminate`. -/
  | finish (t : T)
  | throw (t : T) (e : E)
  /-- The jobs that a job waited for in `_terminate_now` are done. -/
  | joined (t : T)
  | terminate (t : T)
deriving DecidableEq

variable {T E : Type} [DecidableEq T] [DecidableEq E]

namespace Scope

def start : Scope T E where
  _threads := []
  _running := 0
  _exception := none
  held := none
  jobs _ := ⟨none, .done, false, none, false⟩
  owner := .working
  pending := none
  created := []
  thrown := []
  received := []
  broken := false

def setJob (s : Scope T E) (t : T) (job : Job T E) : Scope T E :=
  { s with jobs := Function.update s.jobs t job }

def setPhase (s : Scope T E) (t : T) (phase : Phase E) : Scope T E :=
  s.setJob t { s.jobs t with phase }

/-- `Waitable::_signal` of the scope. -/
def _signal (s : Scope T E) : Scope T E :=
  { s with
    held := none
    owner := if s.owner = .waiting then .woken else s.owner
    pending := if s.owner = .waiting then s.pending.or s.held else s.pending
    jobs := fun t =>
      if (s.jobs t).phase = .discarded then { s.jobs t with phase := .ready } else s.jobs t }

/-- A job is done, and its signal reaches the scope. -/
def finished (s : Scope T E) (t : T) : Scope T E :=
  let s := { s.setPhase t .done with _running := s._running - 1 }
  if s._running = 0 then s._signal else s

/-- `Scheduler::_terminate` -/
def terminate (s : Scope T E) (t : T) : Scope T E :=
  let job := s.jobs t
  if job.phase = .starting then s.finished t
  else if job._terminating then s
  else
    let phase := if job.phase = .frozen ∨ job.phase = .discarded then .ready else job.phase
    s.setJob t { job with phase, _terminating := true, _exception := some .terminate }

/-- The threads of the scope that are not the current one are terminated. -/
def terminate_others (s : Scope T E) (t : T) : Scope T E :=
  (s._threads.filter (· ≠ t)).foldl terminate s

/-- A job is registered, and those that are done are deleted. -/
def register (s : Scope T E) (parent : Option T) (t : T) : Scope T E :=
  let s := { s.setJob t ⟨parent, .starting, false, none, false⟩ with
    _running := s._running + 1
    _threads := s._threads ++ [t]
    created := s.created ++ [t] }
  { s with
    jobs := fun u =>
      if u ∈ s._threads ∧ (s.jobs u).phase = .done then { s.jobs u with deleted := true }
      else s.jobs u
    _threads := s._threads.filter fun u => (s.jobs u).phase ≠ .done }

/-- `Thread::wait` of the owner on the scope. -/
def wait (s : Scope T E) : Scope T E :=
  if s._running = 0 then
    match s._exception.or s.held with
    | some e => { s with owner := .ended (some e), received := s.received ++ [e] }
    | none => { s with owner := .ended none }
  else { s with owner := .waiting }

/-- The exception is raised in the thread that started the job, whose wait is aborted. -/
def raise (s : Scope T E) (parent : Option T) (e : E) : Scope T E :=
  match parent with
  | none =>
    { s with
      pending := some e
      owner := if s.owner = .waiting then .woken else s.owner }
  | some p =>
    if (s.jobs p).deleted then { s with broken := true }
    else
      let phase := if (s.jobs p).phase = .frozen ∨ (s.jobs p).phase = .discarded then .ready
        else (s.jobs p).phase
      s.setJob p { s.jobs p with phase, _exception := some (.error e) }

/-- The scope takes the exception of a job, and holds it for those that wait. -/
def fail (s : Scope T E) (e : E) : Scope T E :=
  { s with thrown := s.thrown ++ [e], _exception := some e, held := some e }

/-- What a job does with the exception that it throws. -/
def throw (s : Scope T E) (t : T) (e : E) : Scope T E :=
  match s._exception with
  | some _ => { s with thrown := s.thrown ++ [e] }.finished t
  | none => ((s.fail e).terminate_others t).setPhase t (.joining e false)

/-- The end of `_terminate_now`, and of the job. An exception that it rethrows ends the job. -/
def joined (s : Scope T E) (t : T) (e : E) (interrupted : Bool) : Scope T E :=
  let parent := (s.jobs t).parent
  let s := { s with
    jobs := fun u =>
      if u ∈ s._threads ∧ u ≠ t then { s.jobs u with deleted := true } else s.jobs u
    _threads := s._threads.filter (· = t) }
  let s := if interrupted then s else s.raise parent e
  s.finished t

/-- The job runs, and has nothing to throw. -/
def Runs (s : Scope T E) (t : T) : Prop :=
  (s.jobs t).phase = .ready ∧ (s.jobs t)._exception = none

instance (s : Scope T E) (t : T) : Decidable (s.Runs t) := inferInstanceAs (Decidable (_ ∧ _))

def step (s : Scope T E) : Action T E → Option (Scope T E)
  | .run_background none t =>
    if s.owner = .working ∧ s.pending = none ∧ t ∉ s.created then
      some (if s._exception.isSome then s.wait else s.register none t)
    else none
  | .run_background (some p) t =>
    if s.Runs p ∧ t ∉ s.created then
      -- the scope counts the job `p`, which waits on it
      some (if s._exception.isSome then s.setPhase p .discarded else s.register (some p) t)
    else none
  | .wait => if s.owner = .working ∧ s.pending = none then some s.wait else none
  | .resume =>
    match s.owner, s.pending with
    | .working, some e | .woken, some e =>
      some { s with owner := .ended (some e), pending := none, received := s.received ++ [e] }
    | .woken, none => some { s with owner := .ended none }
    | _, _ => none
  | .begin t => if (s.jobs t).phase = .starting then some (s.setPhase t .ready) else none
  | .freeze t => if s.Runs t then some (s.setPhase t .frozen) else none
  | .wake t => if (s.jobs t).phase = .frozen then some (s.setPhase t .ready) else none
  | .deliver t =>
    match (s.jobs t).phase, (s.jobs t)._exception with
    | .ready, some _ => some (s.setJob t { s.jobs t with _exception := none })
    | .joining e _, some _ =>
      some (s.setJob t { s.jobs t with phase := .joining e true, _exception := none })
    | _, _ => none
  | .finish t => if s.Runs t then some (s.finished t) else none
  | .throw t e => if s.Runs t then some (s.throw t e) else none
  | .joined t =>
    match (s.jobs t).phase, (s.jobs t)._exception with
    | .joining e interrupted, none =>
      if ∀ u ∈ s._threads, u ≠ t → (s.jobs u).phase = .done then some (s.joined t e interrupted)
      else none
    | _, _ => none
  | .terminate t => if (s.jobs t).phase ≠ .done then some (s.terminate t) else none

/-! ## What holds -/

/-- The number of jobs that are not done. -/
def unfinished (s : Scope T E) : Nat := s.created.countP fun t => (s.jobs t).phase ≠ .done

/-- The owner has waited or does, and no thread can go on. -/
def Complete (s : Scope T E) : Prop :=
  s.owner ≠ .working ∧ s.step .resume = none ∧ ∀ t, s.step (.begin t) = none ∧
    s.step (.wake t) = none ∧ s.step (.deliver t) = none ∧ s.step (.finish t) = none ∧
    s.step (.joined t) = none

/-- The jobs are counted, the wait of the owner lasts while one is not done, has ended when no
thread can go on, and ends with the first exception, which it throws once, the other jobs are
terminated after it, and no exception is raised in a thread that has been deleted. -/
structure Reports (s : Scope T E) : Prop where
  counted : s._running = s.unfinished
  waits : s.owner = .waiting → 0 < s.unfinished
  result : ∀ r, s.owner = .ended r → r = s.thrown.head? ∧ s.received = r.toList ∧
    s.unfinished = 0
  ends : s.Complete → ∃ r, s.owner = .ended r
  once : s.received.length ≤ 1
  terminated : s.thrown ≠ [] → ∀ t ∈ s.created, (s.jobs t).phase = .done ∨
    (s.jobs t)._terminating = true ∨ ∃ e i, (s.jobs t).phase = .joining e i ∧
      s.thrown.head? = some e
  alive : s.broken = false

/-- The first job that throws was started by the owner, and no job starts one after it. -/
def left_to_owner (s : Scope T E) : Action T E → Bool
  | .throw t _ => s._exception.isSome || (s.jobs t).parent.isNone
  | .run_background (some _) _ => s._exception.isNone
  | _ => true

variable {s s' : Scope T E} {t u : T} {e : E}

omit [DecidableEq T] in
theorem countP_flip {l : List T} {p q : T → Bool} (hl : l.Nodup) (ht : t ∈ l) (hp : p t = true)
    (hq : q t = false) (hsame : ∀ u ∈ l, u ≠ t → q u = p u) : l.countP q + 1 = l.countP p := by
  induction l with
  | nil => cases ht
  | cons x l ih =>
    obtain ⟨hx, hl⟩ := List.nodup_cons.mp hl
    rw [List.countP_cons, List.countP_cons]
    rcases List.mem_cons.mp ht with rfl | ht
    · have hrest : l.countP q = l.countP p := by
        refine List.countP_congr fun u hu => ?_
        rw [hsame u (List.mem_cons_of_mem _ hu) fun heq => hx (heq ▸ hu)]
      simp [hp, hq, hrest]
    · have hxt : x ≠ t := fun heq => hx (heq ▸ ht)
      have hrest := ih hl ht fun u hu hne => hsame u (List.mem_cons_of_mem _ hu) hne
      rw [hsame x (List.mem_cons_self ..) hxt]
      omega

omit [DecidableEq T] in
theorem unfinished_pos (ht : t ∈ s.created) (hp : (s.jobs t).phase ≠ .done) :
    0 < s.unfinished :=
  List.countP_pos_iff.mpr ⟨t, ht, by simpa using hp⟩

/-- What holds whether or not the other jobs have been terminated. -/
structure Core (s : Scope T E) : Prop where
  nodup : s.created.Nodup
  listed : ∀ t ∈ s._threads, t ∈ s.created
  gone : ∀ t ∈ s.created, t ∉ s._threads → (s.jobs t).phase = .done
  known : ∀ t, (s.jobs t).phase ≠ .done → t ∈ s.created
  counted : s._running = s.unfinished
  quiet : s._exception = none → s.held = none ∧ s.pending = none ∧ s.thrown = [] ∧
    ∀ t, (s.jobs t).phase ≠ .discarded
  first : s._exception = s.thrown.head?
  joins : ∀ t e i, (s.jobs t).phase = .joining e i →
    s._exception = some e ∧ (s.jobs t).parent = none
  held : s._running ≠ 0 → s.held = s._exception
  waiting : s.owner = .waiting → s._running ≠ 0 ∧ s.pending = none
  pending : ∀ e, s.pending = some e → s._exception = some e ∧ s._running = 0
  woken : s.owner = .woken → s._running = 0 ∧ s.pending = s._exception
  ended : ∀ r, s.owner = .ended r → r = s._exception ∧ s._running = 0 ∧ s.pending = none ∧
    s.received = r.toList
  received : (∀ r, s.owner ≠ .ended r) → s.received = []
  alive : s.broken = false

/-- The other jobs have been terminated. -/
def Asked (s : Scope T E) : Prop :=
  s._exception.isSome → ∀ t ∈ s.created, (s.jobs t).phase = .done ∨
    (s.jobs t)._terminating = true ∨ ∃ e i, (s.jobs t).phase = .joining e i

/-- No job waits on the scope, and one at most for the others in `_terminate_now`. -/
structure Single (s : Scope T E) : Prop where
  held : ∀ t, (s.jobs t).phase ≠ .discarded
  joins : ∀ t u e i e' i', (s.jobs t).phase = .joining e i → (s.jobs u).phase = .joining e' i' →
    t = u

theorem Core.ends (h : s.Core) (hs : s.Single) (hcomplete : s.Complete) :
    ∃ r, s.owner = .ended r := by
  obtain ⟨howner, hresume, hjobs⟩ := hcomplete
  have hphase : ∀ t, (s.jobs t).phase = .done ∨
      ∃ e i, (s.jobs t).phase = .joining e i ∧ (s.jobs t)._exception = none := by
    intro t
    obtain ⟨hbegin, hwake, hdeliver, hfinish, -⟩ := hjobs t
    cases hp : (s.jobs t).phase with
    | starting => simp [Scope.step, hp] at hbegin
    | frozen => simp [Scope.step, hp] at hwake
    | discarded => exact absurd hp (hs.held t)
    | done => exact .inl rfl
    | ready =>
      cases he : (s.jobs t)._exception with
      | none => simp [Scope.step, Runs, hp, he] at hfinish
      | some p => simp [Scope.step, hp, he] at hdeliver
    | joining e i =>
      cases he : (s.jobs t)._exception with
      | none => exact .inr ⟨e, i, rfl, rfl⟩
      | some p => simp [Scope.step, hp, he] at hdeliver
  -- a job that joins the others would be done next
  have hdone : ∀ t, (s.jobs t).phase = .done := by
    intro t
    rcases hphase t with hd | ⟨e, i, hj, hnone⟩
    · exact hd
    · have hothers : ∀ u ∈ s._threads, u ≠ t → (s.jobs u).phase = .done := by
        intro u _ hne
        rcases hphase u with hd | ⟨e', i', hj', -⟩
        · exact hd
        · exact absurd (hs.joins u t e' i' e i hj' hj) hne
      have hjoined := (hjobs t).2.2.2.2
      simp only [Scope.step, hj, hnone, if_pos hothers] at hjoined
      cases hjoined
  have hzero : s._running = 0 := by
    have hunfinished : s.unfinished = 0 :=
      List.countP_eq_zero.mpr fun t _ => by simp [hdone t]
    rw [h.counted, hunfinished]
    rfl
  cases ho : s.owner with
  | working => exact absurd ho howner
  | waiting => exact absurd hzero (h.waiting ho).1
  | woken => cases hp : s.pending <;> simp [Scope.step, ho, hp] at hresume
  | ended r => exact ⟨r, rfl⟩

theorem Core.reports (h : s.Core) (ha : s.Asked) (hs : s.Single) : s.Reports where
  counted := h.counted
  waits hw := by
    have := (h.waiting hw).1
    have := h.counted
    omega
  result r hr := by
    obtain ⟨hfirst, hrun, -, hrec⟩ := h.ended r hr
    have := h.counted
    exact ⟨hfirst.trans h.first, hrec, by omega⟩
  ends := h.ends hs
  once := by
    cases ho : s.owner with
    | ended r =>
      rw [(h.ended r ho).2.2.2]
      cases r <;> simp
    | _ => simp [h.received (by simp [ho])]
  terminated hthrown t ht := by
    have hsome : s._exception.isSome := by
      rw [h.first]
      cases hl : s.thrown with
      | nil => exact absurd hl hthrown
      | cons e l => rfl
    rcases ha hsome t ht with hd | hterm | ⟨e, i, hj⟩
    · exact Or.inl hd
    · exact Or.inr (Or.inl hterm)
    · exact Or.inr (Or.inr ⟨e, i, hj, h.first ▸ (h.joins t e i hj).1⟩)
  alive := h.alive

omit [DecidableEq T] in
theorem core_start : (start : Scope T E).Core where
  nodup := List.nodup_nil
  listed := by simp [start]
  gone := by simp [start]
  known := by simp [start]
  counted := rfl
  quiet := by simp [start]
  first := rfl
  joins := by simp [start]
  held := by simp [start]
  waiting := by simp [start]
  pending := by simp [start]
  woken := by simp [start]
  ended := by simp [start]
  received _ := rfl
  alive := rfl

theorem Core.setJob {job : Job T E} (h : s.Core)
    (hd : job.phase = .done ↔ (s.jobs t).phase = .done)
    (hj : ∀ e i, job.phase = .joining e i → s._exception = some e ∧ job.parent = none)
    (hq : job.phase = .discarded → s._exception ≠ none) : (s.setJob t job).Core := by
  have hphase : ∀ u, ((s.setJob t job).jobs u).phase = .done ↔ (s.jobs u).phase = .done := by
    intro u
    simp only [Scope.setJob, Function.update_apply]
    split_ifs with heq
    · rw [hd, heq]
    · rfl
  have hcount : (s.setJob t job).unfinished = s.unfinished :=
    List.countP_congr fun u _ => by simp [hphase u]
  refine { h with
      gone := fun u hu hn => (hphase u).mpr (h.gone u hu hn)
      known := fun u hu => h.known u fun hdone => hu ((hphase u).mpr hdone)
      counted := ?_
      quiet := fun hnone => ?_
      joins := fun u e i hu => ?_ }
  · rw [hcount]
    exact h.counted
  · obtain ⟨hheld, hpending, hthrown, hphases⟩ := h.quiet hnone
    refine ⟨hheld, hpending, hthrown, fun u => ?_⟩
    simp only [Scope.setJob, Function.update_apply]
    split_ifs
    · exact fun hdis => hq hdis hnone
    · exact hphases u
  · simp only [Scope.setJob, Function.update_apply] at hu ⊢
    split_ifs at hu ⊢
    · exact hj e i hu
    · exact h.joins u e i hu

omit [DecidableEq T] in
theorem Core.busy (h : s.Core) (hr : s._running ≠ 0) :
    s.pending = none ∧ s.owner ≠ .woken ∧ (∀ r, s.owner ≠ .ended r) ∧ s.received = [] := by
  have hended : ∀ r, s.owner ≠ .ended r := fun r ho => hr (h.ended r ho).2.1
  refine ⟨?_, fun ho => hr (h.woken ho).1, hended, h.received hended⟩
  cases hp : s.pending with
  | none => rfl
  | some e => exact absurd (h.pending e hp).2 hr

omit [DecidableEq T] in
theorem Core.running_ne (h : s.Core) (hp : (s.jobs t).phase ≠ .done) : s._running ≠ 0 := by
  have hpos := unfinished_pos (h.known t hp) hp
  have := h.counted
  omega

@[simp]
theorem finished_created : (s.finished t).created = s.created := by
  unfold finished
  dsimp only
  split_ifs <;> rfl

@[simp]
theorem finished_exception : (s.finished t)._exception = s._exception := by
  unfold finished
  dsimp only
  split_ifs <;> rfl

@[simp]
theorem finished_running : (s.finished t)._running = s._running - 1 := by
  unfold finished
  dsimp only
  split_ifs <;> rfl

theorem finished_owner : (s.finished t).owner =
    if s._running - 1 = 0 ∧ s.owner = .waiting then .woken else s.owner := by
  unfold finished
  dsimp only
  split_ifs <;> simp_all [_signal, setPhase, Scope.setJob]

theorem finished_jobs (u : T) : (s.finished t).jobs u =
    if u = t then { s.jobs t with phase := .done }
    else if s._running - 1 = 0 ∧ (s.jobs u).phase = .discarded then
      { s.jobs u with phase := .ready } else s.jobs u := by
  unfold finished
  simp only [setPhase, Scope.setJob]
  split_ifs <;> simp_all [_signal, Function.update_apply]

theorem finished_phase (u : T) : ((s.finished t).jobs u).phase = .done ↔
    u = t ∨ (s.jobs u).phase = .done := by
  rw [finished_jobs]
  split_ifs <;> simp_all

theorem finished_unfinished (h : s.Core) (hp : (s.jobs t).phase ≠ .done) :
    (s.finished t).unfinished + 1 = s.unfinished := by
  unfold unfinished
  rw [finished_created]
  refine countP_flip h.nodup (h.known t hp) (by simpa using hp) ?_ fun u _ hne => ?_
  · simp [finished_phase]
  · simp [finished_phase, hne]

theorem Core.finished (h : s.Core) (hp : (s.jobs t).phase ≠ .done) : (s.finished t).Core := by
  have hrunning := h.running_ne hp
  obtain ⟨hpending, hwoken, hended, hreceived⟩ := h.busy hrunning
  have hheld := h.held hrunning
  have hcount := finished_unfinished h hp
  have hcounted := h.counted
  have hjoins : ∀ u e i, ((s.finished t).jobs u).phase = .joining e i →
      (s.jobs u).phase = .joining e i ∧ ((s.finished t).jobs u).parent = (s.jobs u).parent := by
    intro u e i hu
    rw [finished_jobs] at hu ⊢
    split_ifs at hu ⊢
    simp_all
  have hdiscarded : ∀ u, (s.jobs u).phase ≠ .discarded →
      ((s.finished t).jobs u).phase ≠ .discarded := by
    intro u hu
    rw [finished_jobs]
    split_ifs <;> simp_all
  have hrest : (s.finished t)._threads = s._threads ∧ (s.finished t).created = s.created ∧
      (s.finished t)._exception = s._exception ∧ (s.finished t).thrown = s.thrown ∧
      (s.finished t)._running = s._running - 1 ∧ (s.finished t).received = s.received ∧
      (s.finished t).broken = s.broken := by
    unfold Scope.finished
    dsimp only
    split_ifs <;> exact ⟨rfl, rfl, rfl, rfl, rfl, rfl, rfl⟩
  obtain ⟨hthreads, hcreated, hexception, hthrown, hrun, hrec, hbroken⟩ := hrest
  have hpend : (s.finished t).pending =
      if s._running - 1 = 0 ∧ s.owner = .waiting then s._exception else none := by
    unfold Scope.finished
    dsimp only
    split_ifs <;> simp_all [_signal, setPhase, Scope.setJob]
  have hheld' : (s.finished t).held = if s._running - 1 = 0 then none else s._exception := by
    unfold Scope.finished
    dsimp only
    split_ifs <;> simp_all [_signal, setPhase, Scope.setJob]
  constructor
  · rw [hcreated]
    exact h.nodup
  · rw [hthreads, hcreated]
    exact h.listed
  · rw [hthreads, hcreated]
    exact fun u hu hn => (finished_phase u).mpr (Or.inr (h.gone u hu hn))
  · rw [hcreated]
    exact fun u hu => h.known u fun hd => hu ((finished_phase u).mpr (Or.inr hd))
  · rw [hrun]
    omega
  · rw [hexception, hthrown, hpend, hheld']
    intro hnone
    obtain ⟨-, -, hthrown, hphases⟩ := h.quiet hnone
    exact ⟨by simp [hnone], by simp [hnone], hthrown, fun u => hdiscarded u (hphases u)⟩
  · rw [hexception, hthrown]
    exact h.first
  · intro u e i hu
    obtain ⟨hj, hparent⟩ := hjoins u e i hu
    rw [hexception, hparent]
    exact h.joins u e i hj
  · rw [hrun, hheld', hexception]
    exact fun hne => if_neg hne
  · rw [finished_owner, hrun, hpend]
    intro hw
    split_ifs at hw with hlast
    rw [if_neg hlast]
    exact ⟨fun hzero => hlast ⟨hzero, hw⟩, rfl⟩
  · rw [hpend, hexception, hrun]
    intro e he
    split_ifs at he with hlast
    exact ⟨he, hlast.1⟩
  · rw [finished_owner, hrun, hpend, hexception]
    intro hw
    split_ifs at hw with hlast
    · exact ⟨hlast.1, if_pos hlast⟩
    · exact absurd hw hwoken
  · rw [finished_owner]
    intro r hr
    split_ifs at hr
    exact absurd hr (hended r)
  · rw [hrec]
    exact fun _ => hreceived
  · rw [hbroken]
    exact h.alive

theorem Core.terminate (h : s.Core) (t : T) : (s.terminate t).Core := by
  unfold Scope.terminate
  dsimp only
  split_ifs with hstarting hterm hwait
  · exact h.finished (by simp [hstarting])
  · exact h
  · refine h.setJob ?_ (by simp) (by simp)
    rcases hwait with hw | hw <;> simp [hw]
  · refine h.setJob Iff.rfl (fun e i hj => h.joins t e i hj) fun hd => ?_
    exact absurd (Or.inr hd) hwait

theorem terminate_rest : (s.terminate t)._threads = s._threads ∧
    (s.terminate t).created = s.created ∧ (s.terminate t)._exception = s._exception := by
  unfold Scope.terminate finished
  dsimp only
  split_ifs <;> exact ⟨rfl, rfl, rfl⟩

theorem terminate_done (u : T) (h : (s.jobs u).phase = .done ∨ (s.jobs u)._terminating = true) :
    ((s.terminate t).jobs u).phase = .done ∨ ((s.terminate t).jobs u)._terminating = true := by
  unfold Scope.terminate
  dsimp only
  split_ifs with hstarting hterm hwait
  · rw [finished_jobs]
    split_ifs <;> simp_all
  · exact h
  · simp only [Scope.setJob, Function.update_apply]
    split_ifs <;> simp_all
  · simp only [Scope.setJob, Function.update_apply]
    split_ifs <;> simp_all

theorem terminate_self : ((s.terminate t).jobs t).phase = .done ∨
    ((s.terminate t).jobs t)._terminating = true := by
  unfold Scope.terminate
  dsimp only
  split_ifs with hstarting hterm hwait
  · exact Or.inl ((finished_phase t).mpr (Or.inl rfl))
  · exact Or.inr hterm
  · simp [Scope.setJob]
  · simp [Scope.setJob]

theorem terminate_other (hne : u ≠ t) (hu : (s.jobs u).phase = .ready) :
    (s.terminate t).jobs u = s.jobs u := by
  unfold Scope.terminate
  dsimp only
  split_ifs with hstarting hterm hwait
  · rw [finished_jobs, if_neg hne, if_neg (by simp [hu])]
  · rfl
  · simp [Scope.setJob, hne]
  · simp [Scope.setJob, hne]

/-- After a list of threads has been terminated by the thread `u`. -/
structure Told (s s' : Scope T E) (u : T) (l : List T) : Prop where
  core : s'.Core
  self : s'.jobs u = s.jobs u
  threads : s'._threads = s._threads
  created : s'.created = s.created
  exception : s'._exception = s._exception
  keeps : ∀ x, (s.jobs x).phase = .done ∨ (s.jobs x)._terminating = true →
    (s'.jobs x).phase = .done ∨ (s'.jobs x)._terminating = true
  told : ∀ x ∈ l, (s'.jobs x).phase = .done ∨ (s'.jobs x)._terminating = true

theorem Core.told (h : s.Core) {l : List T} (hu : (s.jobs u).phase = .ready) (hl : u ∉ l) :
    Told s (l.foldl Scope.terminate s) u l := by
  induction l generalizing s with
  | nil => exact ⟨h, rfl, rfl, rfl, rfl, fun x hx => hx, by simp⟩
  | cons t l ih =>
    obtain ⟨hut, hul⟩ := not_or.mp (List.mem_cons.not.mp hl)
    have hself := terminate_other hut hu
    obtain ⟨hthreads, hcreated, hexception⟩ := terminate_rest (s := s) (t := t)
    have hrest := ih (h.terminate t) (by rw [hself, hu]) hul
    refine ⟨hrest.core, hrest.self.trans hself, hrest.threads.trans hthreads,
      hrest.created.trans hcreated, hrest.exception.trans hexception,
      fun x hx => hrest.keeps x (terminate_done x hx), fun x hx => ?_⟩
    rcases List.mem_cons.mp hx with rfl | hx
    · exact hrest.keeps x terminate_self
    · exact hrest.told x hx

theorem Asked.finished (h : s.Asked) : (s.finished t).Asked := by
  unfold Asked
  rw [finished_exception, finished_created]
  intro he u hu
  have hold := h he u hu
  rw [finished_jobs]
  split_ifs with heq hdis
  · exact Or.inl rfl
  · simpa [hdis.2] using hold
  · exact hold

theorem Core.throw_first (h : s.Core) (ht : (s.jobs t).phase = .ready)
    (hnone : s._exception = none) (hparent : (s.jobs t).parent = none) :
    (s.throw t e).Core ∧ (s.throw t e).Asked := by
  have hrunning := h.running_ne (t := t) (by simp [ht])
  obtain ⟨hpending, hwoken, hended, hreceived⟩ := h.busy hrunning
  have hthrown : s.thrown = [] := (h.quiet hnone).2.2.1
  have hcore : (s.fail e).Core := by
    refine ⟨h.nodup, h.listed, h.gone, h.known, h.counted, by simp [fail], by simp [fail, hthrown],
      ?_, by simp [fail], h.waiting, ?_, ?_, ?_, h.received, h.alive⟩
    · intro u e' i hu
      have := (h.joins u e' i hu).1
      simp [hnone] at this
    · intro e' he
      have he : s.pending = some e' := he
      simp [hpending] at he
    · exact fun hw => absurd hw hwoken
    · exact fun r hr => absurd hr (hended r)
  have htold : Told (s.fail e) ((s.fail e).terminate_others t) t
      (s._threads.filter (· ≠ t)) := hcore.told ht (by simp)
  simp only [Scope.throw, hnone]
  generalize (s.fail e).terminate_others t = s₁ at htold
  have hjob : s₁.jobs t = s.jobs t := htold.self
  constructor
  · refine htold.core.setJob ?_ ?_ (by simp)
    · simp [hjob, ht]
    · intro e' i hj
      simp only [Phase.joining.injEq] at hj
      rw [htold.exception, hjob, ← hj.1]
      exact ⟨rfl, hparent⟩
  · intro _ u hu
    have hu : u ∈ s.created := htold.created ▸ hu
    by_cases hut : u = t
    · subst hut
      exact Or.inr (Or.inr ⟨e, false, by simp [setPhase, Scope.setJob]⟩)
    · simp only [setPhase, Scope.setJob, Function.update_apply, if_neg hut]
      by_cases hlisted : u ∈ s._threads
      · exact (htold.told u (by simp [hlisted, hut])).imp_right Or.inl
      · exact (htold.keeps u (Or.inl (h.gone u hu hlisted))).imp_right Or.inl

theorem Core.throw (h : s.Core) (ha : s.Asked) (ht : (s.jobs t).phase = .ready)
    (hok : s._exception = none → (s.jobs t).parent = none) :
    (s.throw t e).Core ∧ (s.throw t e).Asked := by
  cases he : s._exception with
  | none => exact h.throw_first ht he (hok he)
  | some e' =>
    have hfirst : (s.thrown ++ [e]).head? = s.thrown.head? := by
      cases hl : s.thrown with
      | nil => simp [h.first, hl] at he
      | cons x l => rfl
    have hcore : { s with thrown := s.thrown ++ [e] }.Core :=
      { h with quiet := by simp [he], first := h.first.trans hfirst.symm }
    have hasked : { s with thrown := s.thrown ++ [e] }.Asked := ha
    simp only [he] at hcore hasked
    simp only [Scope.throw, he]
    exact ⟨hcore.finished (t := t) (by simp [ht]), hasked.finished⟩

omit [DecidableEq T] in
theorem Core.change {jobs : T → Job T E} {threads : List T} (h : s.Core)
    (hphase : ∀ u, (jobs u).phase = (s.jobs u).phase)
    (hparent : ∀ u, (jobs u).parent = (s.jobs u).parent)
    (hlisted : ∀ u ∈ threads, u ∈ s.created)
    (hgone : ∀ u ∈ s.created, u ∉ threads → (s.jobs u).phase = .done) :
    { s with jobs, _threads := threads }.Core := by
  have hcount : { s with jobs, _threads := threads }.unfinished = s.unfinished :=
    List.countP_congr fun u _ => by simp [hphase u]
  refine ⟨h.nodup, hlisted, fun u hu hn => (hphase u).trans (hgone u hu hn),
    fun u hu => h.known u (hphase u ▸ hu), ?_, fun hnone => ?_, h.first, fun u e i hu => ?_, h.held,
    h.waiting, h.pending, h.woken, h.ended, h.received, h.alive⟩
  · rw [hcount]
    exact h.counted
  · obtain ⟨hheld, hpending, hthrown, hphases⟩ := h.quiet hnone
    exact ⟨hheld, hpending, hthrown, fun u => (hphase u).symm ▸ hphases u⟩
  · have hj := h.joins u e i ((hphase u).symm.trans hu)
    exact ⟨hj.1, (hparent u).trans hj.2⟩

omit [DecidableEq T] in
theorem Core.own {owner : Stage E} {pending : Option E} {received : List E} (h : s.Core)
    (hwaiting : owner = .waiting → s._running ≠ 0 ∧ pending = none)
    (hpending : ∀ e, pending = some e → s._exception = some e ∧ s._running = 0)
    (hwoken : owner = .woken → s._running = 0 ∧ pending = s._exception)
    (hended : ∀ r, owner = .ended r → r = s._exception ∧ s._running = 0 ∧ pending = none ∧
      received = r.toList)
    (hreceived : (∀ r, owner ≠ .ended r) → received = []) :
    { s with owner, pending, received }.Core := by
  refine ⟨h.nodup, h.listed, h.gone, h.known, h.counted, fun hnone => ?_, h.first, h.joins, h.held,
    hwaiting, hpending, hwoken, hended, hreceived, h.alive⟩
  obtain ⟨hheld, -, hthrown, hphases⟩ := h.quiet hnone
  refine ⟨hheld, ?_, hthrown, hphases⟩
  cases hp : pending with
  | none => rfl
  | some e =>
    have he := (hpending e hp).1
    rw [hnone] at he
    cases he

omit [DecidableEq T] in
theorem Core.give (h : s.Core) (he : s._exception = some e) (hr : s._running = 0)
    (ho : ∀ r, s.owner ≠ .ended r) : { s with pending := some e }.Core := by
  refine h.own (fun hw => absurd hr (h.waiting hw).1) (fun e' he' => ?_) (fun _ => ⟨hr, he.symm⟩)
    (fun r hr => absurd hr (ho r)) h.received
  obtain rfl : e = e' := by simpa using he'
  exact ⟨he, hr⟩

theorem raise_finished (hr : s._running - 1 = 0) (hh : s.held = some e) (hp : s.pending = none) :
    (s.raise none e).finished t = { s.finished t with pending := some e } := by
  have hr' : (s.raise none e)._running - 1 = 0 := hr
  unfold finished
  simp only [setPhase, Scope.setJob, hr', hr, if_true]
  by_cases ho : s.owner = .waiting <;> simp [_signal, Scope.raise, ho, hh, hp]

theorem Core.joined {i : Bool} (h : s.Core) (ha : s.Asked) (ht : (s.jobs t).phase = .joining e i)
    (hdone : ∀ u ∈ s._threads, u ≠ t → (s.jobs u).phase = .done) :
    (s.joined t e i).Core ∧ (s.joined t e i).Asked := by
  obtain ⟨hexception, hparent⟩ := h.joins t e i ht
  have hmem : t ∈ s.created := h.known t (by simp [ht])
  unfold Scope.joined
  generalize hs₁ : { s with
    jobs := fun u =>
      if u ∈ s._threads ∧ u ≠ t then { s.jobs u with deleted := true } else s.jobs u
    _threads := s._threads.filter (· = t) } = s₁
  have hphase : ∀ u, (s₁.jobs u).phase = (s.jobs u).phase ∧
      (s₁.jobs u).parent = (s.jobs u).parent ∧
      (s₁.jobs u)._terminating = (s.jobs u)._terminating := by
    intro u
    rw [← hs₁]
    dsimp only
    split_ifs <;> exact ⟨rfl, rfl, rfl⟩
  have hall : ∀ u ∈ s.created, u ≠ t → (s.jobs u).phase = .done := by
    intro u hu hne
    by_cases hlisted : u ∈ s._threads
    · exact hdone u hlisted hne
    · exact h.gone u hu hlisted
  have hcore : s₁.Core := by
    rw [← hs₁]
    refine h.change (fun u => ?_) (fun u => ?_) (fun u hu => ?_) fun u hu hn => ?_
    · split_ifs <;> rfl
    · split_ifs <;> rfl
    · exact h.listed u (List.mem_of_mem_filter hu)
    · by_cases hut : u = t
      · subst hut
        refine h.gone u hu fun hlisted => hn ?_
        simp [hlisted]
      · exact hall u hu hut
  have hrest : s₁._exception = s._exception ∧ s₁.created = s.created ∧
      s₁._running = s._running ∧ s₁.pending = s.pending ∧ s₁.owner = s.owner ∧
      s₁.held = s.held := by
    rw [← hs₁]
    exact ⟨rfl, rfl, rfl, rfl, rfl, rfl⟩
  obtain ⟨hexception₁, hcreated₁, hrunning₁, hpending₁, howner₁, hheld₁⟩ := hrest
  have hasked : s₁.Asked := by
    unfold Asked
    rw [hexception₁, hcreated₁]
    intro he u hu
    obtain ⟨hp, -, hterm⟩ := hphase u
    rw [hp, hterm]
    exact ha he u hu
  have ht₁ : (s₁.jobs t).phase ≠ .done := by simp [(hphase t).1, ht]
  have hcore₂ := hcore.finished ht₁
  cases i with
  | true => exact ⟨hcore₂, hasked.finished⟩
  | false =>
    have hbusy := hcore.busy (hcore.running_ne ht₁)
    have hlast : s₁._running - 1 = 0 := by
      have hzero : (s₁.finished t).unfinished = 0 := by
        refine List.countP_eq_zero.mpr fun u hu => ?_
        have hu : u ∈ s.created := by
          rw [← hcreated₁]
          exact finished_created (s := s₁) (t := t) ▸ hu
        by_cases hut : u = t
        · simp [finished_phase, hut]
        · simp [finished_phase, (hphase u).1, hall u hu hut]
      have hcount := finished_unfinished hcore ht₁
      have hcounted := hcore.counted
      omega
    have hheld : s₁.held = some e := by
      rw [hcore.held (hcore.running_ne ht₁), hexception₁, hexception]
    simp only [hparent, Bool.false_eq_true, if_false]
    rw [raise_finished hlast hheld hbusy.1]
    refine ⟨hcore₂.give ?_ ?_ fun r hr => ?_, hasked.finished⟩
    · rw [finished_exception, hexception₁, hexception]
    · rw [finished_running]
      exact hlast
    · rw [finished_owner] at hr
      split_ifs at hr
      exact hbusy.2.2.1 r hr

omit [DecidableEq T] in
theorem Core.wait (h : s.Core) (ho : s.owner = .working) (hp : s.pending = none) :
    s.wait.Core := by
  have hreceived : s.received = [] := h.received (by simp [ho])
  unfold Scope.wait
  by_cases hr : s._running = 0
  · rw [if_pos hr]
    -- what the scope throws is its exception, which it still holds if it has none
    have hends : (match s._exception.or s.held with
        | some e => { s with owner := .ended (some e), received := s.received ++ [e] }
        | none => { s with owner := .ended none }) =
        { s with owner := .ended s._exception, received := s._exception.toList } := by
      cases he : s._exception with
      | some e => simp [hreceived]
      | none => simp [(h.quiet he).1, hreceived]
    rw [hends]
    refine h.own (by simp) (by simp [hp]) (by simp) (fun r hr' => ?_) (by simp)
    obtain rfl : s._exception = r := by simpa using hr'
    exact ⟨rfl, hr, hp, rfl⟩
  · rw [if_neg hr]
    exact h.own (fun _ => ⟨hr, hp⟩) (by simp [hp]) (by simp) (by simp) fun _ => hreceived

omit [DecidableEq T] [DecidableEq E] in
theorem wait_rest : s.wait.jobs = s.jobs ∧ s.wait.created = s.created ∧
    s.wait._exception = s._exception := by
  unfold Scope.wait
  split_ifs
  · split <;> exact ⟨rfl, rfl, rfl⟩
  · exact ⟨rfl, rfl, rfl⟩

omit [DecidableEq T] [DecidableEq E] in
theorem Asked.of_eq (h : s.Asked) (hjobs : s'.jobs = s.jobs) (hcreated : s'.created = s.created)
    (hexception : s'._exception = s._exception) : s'.Asked := by
  unfold Asked
  rw [hjobs, hcreated, hexception]
  exact h

omit [DecidableEq E] in
theorem Asked.setJob {job : Job T E} (h : s.Asked)
    (hterm : (s.jobs t)._terminating = true → job._terminating = true)
    (hd : (s.jobs t).phase = .done → job.phase = .done)
    (hj : ∀ e i, (s.jobs t).phase = .joining e i → ∃ e i, job.phase = .joining e i) :
    (s.setJob t job).Asked := by
  intro he u hu
  have hold := h he u hu
  simp only [Scope.setJob, Function.update_apply]
  split_ifs with heq
  · rw [heq] at hold
    exact hold.imp hd (Or.imp hterm fun ⟨e, i, hp⟩ => hj e i hp)
  · exact hold

theorem Asked.terminate (h : s.Asked) (t : T) : (s.terminate t).Asked := by
  unfold Scope.terminate
  dsimp only
  split_ifs with hstarting hterm hwait
  · exact h.finished
  · exact h
  · refine h.setJob (fun _ => rfl) ?_ ?_
    · rcases hwait with hw | hw <;> simp [hw]
    · rcases hwait with hw | hw <;> simp [hw]
  · exact h.setJob (fun _ => rfl) id fun e i hp => ⟨e, i, hp⟩

theorem register_phase (parent : Option T) (u : T) : ((s.register parent t).jobs u).phase =
    if u = t then .starting else (s.jobs u).phase := by
  simp only [register, Scope.setJob, Function.update_apply]
  split_ifs <;> simp_all

theorem mem_register_threads (parent : Option T) (u : T) :
    u ∈ (s.register parent t)._threads ↔
      u = t ∨ u ∈ s._threads ∧ (s.jobs u).phase ≠ .done := by
  simp only [register, Scope.setJob, Function.update_apply]
  by_cases hut : u = t <;> simp [hut]

theorem register_unfinished (parent : Option T) (ht : t ∉ s.created) :
    (s.register parent t).unfinished = s.unfinished + 1 := by
  have hold : s.created.countP (fun u => ((s.register parent t).jobs u).phase ≠ .done) =
      s.unfinished := by
    refine List.countP_congr fun u hu => ?_
    have hne : u ≠ t := fun heq => ht (heq ▸ hu)
    simp [register_phase, hne]
  have hcreated : (s.register parent t).created = s.created ++ [t] := rfl
  unfold unfinished at hold ⊢
  rw [hcreated, List.countP_append, hold]
  simp [register_phase]

theorem Core.register (h : s.Core) (parent : Option T) (ht : t ∉ s.created)
    (hnone : s._exception = none) (hwoken : s.owner ≠ .woken) (hended : ∀ r, s.owner ≠ .ended r) :
    (s.register parent t).Core ∧ (s.register parent t).Asked := by
  obtain ⟨hheld, hpending, hthrown, hphases⟩ := h.quiet hnone
  have hcount := register_unfinished (s := s) parent ht
  have hcounted := h.counted
  have hrun : (s.register parent t)._running = s._running + 1 := rfl
  have hcreated : (s.register parent t).created = s.created ++ [t] := rfl
  constructor
  · constructor
    · rw [hcreated]
      exact List.nodup_append.mpr ⟨h.nodup, by simp, by grind⟩
    · intro u hu
      rw [hcreated]
      rcases (mem_register_threads parent u).mp hu with rfl | ⟨hu, -⟩
      · simp
      · exact List.mem_append_left _ (h.listed u hu)
    · intro u hu hn
      obtain ⟨hut, hn⟩ := not_or.mp ((mem_register_threads parent u).not.mp hn)
      rw [register_phase, if_neg hut]
      by_contra hp
      have hu : u ∈ s.created := by simpa [hcreated, hut] using hu
      exact hp (h.gone u hu fun hlisted => hn ⟨hlisted, hp⟩)
    · intro u hu
      rw [hcreated]
      rw [register_phase] at hu
      split_ifs at hu with hut
      · simp [hut]
      · exact List.mem_append_left _ (h.known u hu)
    · rw [hrun, hcount]
      push_cast
      omega
    · refine fun _ => ⟨hheld, hpending, hthrown, fun u => ?_⟩
      rw [register_phase]
      split_ifs
      · simp
      · exact hphases u
    · exact h.first
    · intro u e i hu
      rw [register_phase] at hu
      split_ifs at hu
      have := (h.joins u e i hu).1
      simp [hnone] at this
    · exact fun _ => hheld.trans hnone.symm
    · intro hw
      have := (h.waiting hw).2
      exact ⟨by rw [hrun]; omega, this⟩
    · intro e he
      have he : s.pending = some e := he
      simp [hpending] at he
    · exact fun hw => absurd hw hwoken
    · exact fun r hr => absurd hr (hended r)
    · exact h.received
    · exact h.alive
  · intro he
    have he : s._exception.isSome := he
    simp [hnone] at he

omit [DecidableEq T] in
theorem Core.resume (h : s.Core) (he : s.pending = some e) (ho : ∀ r, s.owner ≠ .ended r) :
    { s with owner := .ended (some e), pending := none, received := s.received ++ [e] }.Core := by
  obtain ⟨hexception, hr⟩ := h.pending e he
  refine h.own (by simp) (by simp) (by simp) (fun r hr' => ?_) (by simp)
  obtain rfl : some e = r := by simpa using hr'
  exact ⟨hexception.symm, hr, rfl, by simp [h.received ho]⟩

omit [DecidableEq T] in
theorem Core.returns (h : s.Core) (hp : s.pending = none) (ho : s.owner = .woken) :
    { s with owner := .ended none }.Core := by
  obtain ⟨hr, hexception⟩ := h.woken ho
  refine h.own (by simp) (by simp [hp]) (by simp) (fun r hr' => ?_) (by simp)
  obtain rfl : none = r := by simpa using hr'
  exact ⟨hp.symm.trans hexception, hr, hp, h.received (by simp [ho])⟩

theorem Core.step {a : Action T E} (h : s.Core ∧ s.Asked) (hok : s.left_to_owner a = true)
    (hstep : s.step a = some s') : s'.Core ∧ s'.Asked := by
  obtain ⟨hcore, hasked⟩ := h
  -- a job that is made ready or waits stays as it was for the scope
  have hphase : ∀ {t : T} {p : Phase E}, (s.jobs t).phase ≠ .done →
      (∀ e i, (s.jobs t).phase ≠ .joining e i) → p ≠ .done → (∀ e i, p ≠ .joining e i) →
      (p = .discarded → s._exception ≠ none) → (s.setPhase t p).Core ∧ (s.setPhase t p).Asked := by
    intro t p hd hj hpd hpj hq
    refine ⟨hcore.setJob ?_ (fun e i hp => absurd hp (hpj e i)) hq,
      hasked.setJob id (fun hp => absurd hp hd) fun e i hp => absurd hp (hj e i)⟩
    simp [hd, hpd]
  cases a with
  | run_background parent t =>
    cases parent with
    | none =>
      simp only [Scope.step, Option.ite_none_right_eq_some] at hstep
      obtain ⟨⟨ho, hp, ht⟩, hstep⟩ := hstep
      obtain rfl := Option.some.inj hstep
      cases he : s._exception with
      | some e =>
        obtain ⟨hjobs, hcreated, hexception⟩ := wait_rest (s := s)
        simp only [Option.isSome_some, if_true]
        exact ⟨hcore.wait ho hp, hasked.of_eq hjobs hcreated hexception⟩
      | none =>
        simp only [Option.isSome_none, Bool.false_eq_true, if_false]
        exact hcore.register none ht he (by simp [ho]) (by simp [ho])
    | some p =>
      simp only [Scope.step, Option.ite_none_right_eq_some] at hstep
      obtain ⟨⟨⟨hready, -⟩, ht⟩, hstep⟩ := hstep
      obtain rfl := Option.some.inj hstep
      cases he : s._exception with
      | some e =>
        simp only [Option.isSome_some, if_true]
        exact hphase (by simp [hready]) (by simp [hready]) (by simp) (by simp) (by simp [he])
      | none =>
        simp only [Option.isSome_none, Bool.false_eq_true, if_false]
        have hbusy := hcore.busy (hcore.running_ne (t := p) (by simp [hready]))
        exact hcore.register (some p) ht he hbusy.2.1 hbusy.2.2.1
  | wait =>
    simp only [Scope.step, Option.ite_none_right_eq_some] at hstep
    obtain ⟨⟨ho, hp⟩, hstep⟩ := hstep
    obtain rfl := Option.some.inj hstep
    obtain ⟨hjobs, hcreated, hexception⟩ := wait_rest (s := s)
    exact ⟨hcore.wait ho hp, hasked.of_eq hjobs hcreated hexception⟩
  | resume =>
    simp only [Scope.step] at hstep
    split at hstep
    · rename_i e ho hp
      obtain rfl := Option.some.inj hstep
      exact ⟨hcore.resume hp (by simp [ho]), hasked.of_eq rfl rfl rfl⟩
    · rename_i e ho hp
      obtain rfl := Option.some.inj hstep
      exact ⟨hcore.resume hp (by simp [ho]), hasked.of_eq rfl rfl rfl⟩
    · rename_i ho hp
      obtain rfl := Option.some.inj hstep
      exact ⟨hcore.returns hp ho, hasked.of_eq rfl rfl rfl⟩
    · cases hstep
  | begin t =>
    simp only [Scope.step, Option.ite_none_right_eq_some] at hstep
    obtain ⟨hp, hstep⟩ := hstep
    obtain rfl := Option.some.inj hstep
    exact hphase (by simp [hp]) (by simp [hp]) (by simp) (by simp) (by simp)
  | freeze t =>
    simp only [Scope.step, Option.ite_none_right_eq_some] at hstep
    obtain ⟨⟨hp, -⟩, hstep⟩ := hstep
    obtain rfl := Option.some.inj hstep
    exact hphase (by simp [hp]) (by simp [hp]) (by simp) (by simp) (by simp)
  | wake t =>
    simp only [Scope.step, Option.ite_none_right_eq_some] at hstep
    obtain ⟨hp, hstep⟩ := hstep
    obtain rfl := Option.some.inj hstep
    exact hphase (by simp [hp]) (by simp [hp]) (by simp) (by simp) (by simp)
  | deliver t =>
    simp only [Scope.step] at hstep
    split at hstep
    · rename_i p hp he
      obtain rfl := Option.some.inj hstep
      exact ⟨hcore.setJob Iff.rfl (by simp [hp]) (by simp [hp]),
        hasked.setJob id id fun e i hj => ⟨e, i, hj⟩⟩
    · rename_i e i p hp he
      obtain rfl := Option.some.inj hstep
      refine ⟨hcore.setJob (by simp [hp]) (fun e' i' hj => ?_) (by simp),
        hasked.setJob id (by simp [hp]) fun _ _ _ => ⟨e, true, rfl⟩⟩
      obtain ⟨rfl, -⟩ : e = e' ∧ true = i' := by simpa using hj
      exact hcore.joins t e i hp
    · cases hstep
  | finish t =>
    simp only [Scope.step, Option.ite_none_right_eq_some] at hstep
    obtain ⟨⟨hp, -⟩, hstep⟩ := hstep
    obtain rfl := Option.some.inj hstep
    exact ⟨hcore.finished (by simp [hp]), hasked.finished⟩
  | throw t e =>
    simp only [Scope.step, Option.ite_none_right_eq_some] at hstep
    obtain ⟨⟨hp, -⟩, hstep⟩ := hstep
    obtain rfl := Option.some.inj hstep
    exact hcore.throw hasked hp fun hnone => by simpa [left_to_owner, hnone] using hok
  | joined t =>
    simp only [Scope.step] at hstep
    split at hstep
    · rename_i e i hp he
      simp only [Option.ite_none_right_eq_some] at hstep
      obtain ⟨hdone, hstep⟩ := hstep
      obtain rfl := Option.some.inj hstep
      exact hcore.joined hasked hp hdone
    · cases hstep
  | terminate t =>
    simp only [Scope.step, Option.ite_none_right_eq_some] at hstep
    obtain ⟨-, hstep⟩ := hstep
    obtain rfl := Option.some.inj hstep
    exact ⟨hcore.terminate t, hasked.terminate t⟩

/-! ## Jobs that wait for each other -/

/-- The jobs that wait on the scope, or for the others, did so before. -/
def Settles (s s' : Scope T E) : Prop :=
  ∀ u, ((s'.jobs u).phase = .discarded → (s.jobs u).phase = .discarded) ∧
    ∀ e i, (s'.jobs u).phase = .joining e i → ∃ e' i', (s.jobs u).phase = .joining e' i'

omit [DecidableEq T] [DecidableEq E] in
theorem Settles.refl (s : Scope T E) : s.Settles s := fun _ => ⟨id, fun e i h => ⟨e, i, h⟩⟩

omit [DecidableEq T] [DecidableEq E] in
theorem Settles.trans {s₁ : Scope T E} (h : s.Settles s₁) (h' : s₁.Settles s') :
    s.Settles s' := by
  refine fun u => ⟨fun hd => (h u).1 ((h' u).1 hd), fun e i hj => ?_⟩
  obtain ⟨e', i', hj'⟩ := (h' u).2 e i hj
  exact (h u).2 e' i' hj'

omit [DecidableEq T] [DecidableEq E] in
theorem Single.settles (h : s.Single) (hs : s.Settles s') : s'.Single := by
  refine ⟨fun t hd => h.held t ((hs t).1 hd), fun t u e i e' i' ht hu => ?_⟩
  obtain ⟨e₁, i₁, ht⟩ := (hs t).2 e i ht
  obtain ⟨e₂, i₂, hu⟩ := (hs u).2 e' i' hu
  exact h.joins t u e₁ i₁ e₂ i₂ ht hu

omit [DecidableEq E] in
theorem settles_setJob {job : Job T E}
    (hd : job.phase = .discarded → (s.jobs t).phase = .discarded)
    (hj : ∀ e i, job.phase = .joining e i → ∃ e' i', (s.jobs t).phase = .joining e' i') :
    s.Settles (s.setJob t job) := by
  intro u
  simp only [Scope.setJob, Function.update_apply]
  split_ifs with heq
  · exact heq ▸ ⟨hd, hj⟩
  · exact Settles.refl s u

theorem settles_finished (s : Scope T E) (t : T) : s.Settles (s.finished t) := by
  intro u
  rw [finished_jobs]
  split_ifs
  · exact ⟨nofun, nofun⟩
  · exact ⟨nofun, nofun⟩
  · exact Settles.refl s u

theorem settles_terminate (s : Scope T E) (t : T) : s.Settles (s.terminate t) := by
  unfold Scope.terminate
  dsimp only
  split_ifs
  · exact settles_finished s t
  · exact .refl s
  · exact settles_setJob nofun nofun
  · exact settles_setJob id fun e i hj => ⟨e, i, hj⟩

theorem settles_raise (s : Scope T E) (parent : Option T) (e : E) :
    s.Settles (s.raise parent e) := by
  unfold Scope.raise
  split
  · exact .refl s
  · dsimp only
    split_ifs
    · exact .refl s
    · exact settles_setJob nofun nofun
    · exact settles_setJob id fun e i hj => ⟨e, i, hj⟩

theorem settles_joined (s : Scope T E) (t : T) (e : E) (i : Bool) : s.Settles (s.joined t e i) := by
  unfold Scope.joined
  dsimp only
  generalize hs₁ : { s with
    jobs := fun u =>
      if u ∈ s._threads ∧ u ≠ t then { s.jobs u with deleted := true } else s.jobs u
    _threads := s._threads.filter (· = t) } = s₁
  have hdeleted : s.Settles s₁ := by
    intro u
    rw [← hs₁]
    dsimp only
    split_ifs <;> exact Settles.refl s u
  split_ifs
  · exact hdeleted.trans (settles_finished _ t)
  · exact hdeleted.trans ((settles_raise s₁ _ e).trans (settles_finished _ t))

theorem settles_register (s : Scope T E) (parent : Option T) (t : T) :
    s.Settles (s.register parent t) := by
  intro u
  rw [register_phase]
  split_ifs
  · exact ⟨nofun, nofun⟩
  · exact Settles.refl s u

/-- The first job that throws is alone to wait for the others. -/
theorem Single.throw (h : s.Single) (hc : s.Core) : (s.throw t e).Single := by
  unfold Scope.throw
  split
  · exact h.settles (settles_finished _ t)
  · rename_i hnone
    have hsettles : s.Settles ((s.fail e).terminate_others t) :=
      List.foldlRecOn (motive := fun s₁ : Scope T E => s.Settles s₁) _ _ (Settles.refl s)
        fun s₁ h₁ u _ => h₁.trans (settles_terminate s₁ u)
    generalize (s.fail e).terminate_others t = s₁ at hsettles
    have hjoins : ∀ u e i, (s₁.jobs u).phase ≠ .joining e i := by
      intro u e i hj
      obtain ⟨e', i', hj⟩ := (hsettles u).2 e i hj
      have hsome := (hc.joins u e' i' hj).1
      rw [hnone] at hsome
      cases hsome
    have hself : ∀ u e' i', ((s₁.setPhase t (.joining e false)).jobs u).phase = .joining e' i' →
        u = t := by
      intro u e' i' hj
      by_contra hne
      simp only [setPhase, Scope.setJob, Function.update_apply, if_neg hne] at hj
      exact hjoins u e' i' hj
    refine ⟨fun u => ?_, fun u u' e₁ i₁ e₂ i₂ hu hu' => ?_⟩
    · simp only [setPhase, Scope.setJob, Function.update_apply]
      split_ifs
      · exact nofun
      · exact (h.settles hsettles).held u
    · rw [hself u e₁ i₁ hu, hself u' e₂ i₂ hu']

theorem Single.step {a : Action T E} (h : s.Single) (hc : s.Core)
    (hok : s.left_to_owner a = true) (hstep : s.step a = some s') : s'.Single := by
  cases a with
  | run_background parent t =>
    cases parent with
    | none =>
      simp only [Scope.step, Option.ite_none_right_eq_some] at hstep
      obtain rfl := Option.some.inj hstep.2
      split_ifs
      · exact h.settles fun u => (wait_rest (s := s)).1 ▸ Settles.refl s u
      · exact h.settles (settles_register s none t)
    | some p =>
      simp only [Scope.step, Option.ite_none_right_eq_some] at hstep
      obtain rfl := Option.some.inj hstep.2
      have hnone : s._exception = none := by simpa [left_to_owner] using hok
      rw [hnone]
      exact h.settles (settles_register s (some p) t)
  | wait =>
    simp only [Scope.step, Option.ite_none_right_eq_some] at hstep
    obtain rfl := Option.some.inj hstep.2
    exact h.settles fun u => (wait_rest (s := s)).1 ▸ Settles.refl s u
  | resume =>
    simp only [Scope.step] at hstep
    split at hstep <;> cases hstep <;> exact h.settles (Settles.refl s)
  | begin t | freeze t | wake t =>
    simp only [Scope.step, Option.ite_none_right_eq_some] at hstep
    obtain rfl := Option.some.inj hstep.2
    exact h.settles (settles_setJob nofun nofun)
  | deliver t =>
    simp only [Scope.step] at hstep
    split at hstep
    · obtain rfl := Option.some.inj hstep
      exact h.settles (settles_setJob id fun e i hj => ⟨e, i, hj⟩)
    · rename_i e i _ hp _
      obtain rfl := Option.some.inj hstep
      exact h.settles (settles_setJob nofun fun _ _ _ => ⟨e, i, hp⟩)
    · cases hstep
  | finish t =>
    simp only [Scope.step, Option.ite_none_right_eq_some] at hstep
    obtain rfl := Option.some.inj hstep.2
    exact h.settles (settles_finished s t)
  | throw t e =>
    simp only [Scope.step, Option.ite_none_right_eq_some] at hstep
    obtain rfl := Option.some.inj hstep.2
    exact h.throw hc
  | joined t =>
    simp only [Scope.step] at hstep
    split at hstep
    · rename_i e i _ _
      simp only [Option.ite_none_right_eq_some] at hstep
      obtain rfl := Option.some.inj hstep.2
      exact h.settles (settles_joined s t e i)
    · cases hstep
  | terminate t =>
    simp only [Scope.step, Option.ite_none_right_eq_some] at hstep
    obtain rfl := Option.some.inj hstep.2
    exact h.settles (settles_terminate s t)

/-- Every run in which the first job that throws was started by the owner, and no job starts one
after it, reports the failures of the jobs. -/
theorem failures_are_reported (as : List (Action T E))
    (h : Run step (fun s a => s.left_to_owner a = true) start as s) : s.Reports := by
  have hinv : (s.Core ∧ s.Asked) ∧ s.Single := by
    refine h.invariant (I := fun s => (s.Core ∧ s.Asked) ∧ s.Single) ⟨⟨core_start, ?_⟩, ?_⟩
      fun s a s' hs hok hstep => ⟨Core.step hs.1 hok hstep, hs.2.step hs.1.1 hok hstep⟩
    · simp [Asked, start]
    · exact ⟨nofun, nofun⟩
  exact hinv.1.1.reports hinv.1.2 hinv.2

/-- Two jobs, of which the second one throws while the owner waits and the first one is frozen. -/
def one_of_two_throws : List (Action Nat Nat) :=
  [.run_background none 0, .run_background none 1, .wait, .begin 0, .freeze 0, .begin 1,
    .throw 1 7, .deliver 0, .finish 0, .joined 1, .resume]

theorem the_owner_throws : ∃ s : Scope Nat Nat,
    Run step (fun s a => s.left_to_owner a = true) start one_of_two_throws s ∧
    s.owner = .ended (some 7) ∧ s.received = [7] ∧ s._running = 0 ∧ s.Reports := by
  have hexec : (exec step (fun s a => s.left_to_owner a = true) start one_of_two_throws).map
      (fun s : Scope Nat Nat => (s.owner, s.received, s._running)) =
      some (.ended (some 7), [7], 0) := by
    decide +kernel
  obtain ⟨s, hrun, hs⟩ := Run.of_exec_map hexec
  simp only [Prod.mk.injEq] at hs
  exact ⟨s, hrun, hs.1, hs.2.1, hs.2.2, failures_are_reported _ hrun⟩

/-- The job 1, started by the job 0, deletes it, and raises its exception in it. -/
theorem a_job_raises_in_a_deleted_thread : ¬ ∀ (as : List (Action Nat Nat)) (s : Scope Nat Nat),
    Run step anyStep start as s → s.Reports := by
  intro h
  have hexec : (exec step (fun _ _ => True) start
      [.run_background none 0, .wait, .begin 0, .run_background (some 0) 1, .freeze 0, .begin 1,
        .throw 1 7, .deliver 0, .finish 0, .joined 1]).map
      (fun s : Scope Nat Nat => s.broken) = some true := by
    decide +kernel
  obtain ⟨s, hrun, hs⟩ := Run.of_exec_map hexec
  have halive := (h _ s hrun).alive
  rw [hs] at halive
  cases halive

end Scope

end elle.reactor.scope
