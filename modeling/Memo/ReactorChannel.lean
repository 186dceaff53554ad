-- A `Channel`: a queue with a barrier for the threads that wait for data and one for
-- those that wait for room. A thread that is woken runs on later: what it was woken
-- for may be gone by then.
import Memo.Runs

open runs

namespace elle.reactor.channel

variable {T A E : Type} [DecidableEq T]

/-! ## Threads and barriers -/

/-- A wait on a barrier: registered, or over, with the exception of the barrier if it had one. -/
inductive Wait (E : Type) where
  | registered
  | woken (e : Option E)
deriving DecidableEq

/-- The call that a thread is in. -/
inductive Call (A E : Type) where
  | idle
  | put (data : A) (wait : Wait E)
  | get (wait : Wait E)
deriving DecidableEq

def Call._wake (e : Option E) : Call A E → Call A E
  | .idle => .idle
  | .put data _ => .put data (.woken e)
  | .get _ => .get (.woken e)

structure Barrier (T E : Type) where
  _opened : Bool
  _exception : Option E
  _waiters : List T

namespace Barrier

variable {b : Barrier T E} {threads : T → Call A E} {t : T}

def closed : Barrier T E := ⟨false, none, []⟩

/-- `Barrier::open`, and the threads that it wakes. -/
def «open» (b : Barrier T E) (threads : T → Call A E) : Barrier T E × (T → Call A E) :=
  if b._opened then ({ b with _exception := none }, threads)
  else
    (⟨true, none, []⟩,
      fun t => if t ∈ b._waiters then (threads t)._wake b._exception else threads t)

def close (b : Barrier T E) : Barrier T E :=
  if b._opened then { b with _exception := none, _opened := false } else b

def raise (b : Barrier T E) (e : E) (threads : T → Call A E) : Barrier T E × (T → Call A E) :=
  let (b, threads) := Barrier.open { b with _exception := some e } threads
  ({ b with _exception := some e }, threads)

/-- A thread waits on a barrier that is closed. -/
def _wait (b : Barrier T E) (t : T) : Barrier T E := { b with _waiters := b._waiters ++ [t] }

end Barrier

namespace Barrier

variable {b : Barrier T E} {threads : T → Call A E} {t : T} {e : E}

@[simp] theorem open_opened : (b.open threads).1._opened = true := by
  unfold Barrier.open
  split_ifs <;> simp_all

@[simp] theorem open_waiters (h : b._opened = true → b._waiters = []) :
    (b.open threads).1._waiters = [] := by
  unfold Barrier.open
  split_ifs with ho
  · exact h ho
  · rfl

omit [DecidableEq T] in
@[simp] theorem close_closed : b.close._opened = false := by
  unfold close
  split_ifs <;> simp_all

omit [DecidableEq T] in
@[simp] theorem close_waiters : b.close._waiters = b._waiters := by
  unfold close
  split_ifs <;> rfl

@[simp] theorem open_exception : (b.open threads).1._exception = none := by
  unfold Barrier.open
  split_ifs <;> rfl

omit [DecidableEq T] in
theorem close_exception (h : b._exception = none) : b.close._exception = none := by
  unfold close
  split_ifs
  · rfl
  · exact h

@[simp] theorem raise_opened : (b.raise e threads).1._opened = true := by
  simp [raise]

@[simp] theorem raise_waiters (h : b._opened = true → b._waiters = []) :
    (b.raise e threads).1._waiters = [] := open_waiters h

end Barrier

/-! ## The channel -/

/-- A channel, and the threads that use it. -/
structure Channel (T A E : Type) where
  _read_barrier : Barrier T E
  _write_barrier : Barrier T E
  _exception : Option E
  _queue : List A
  _opened : Bool
  _max_size : Int
  threads : T → Call A E
  /-- The elements put, in the order in which the calls of `put` were completed. -/
  completed : List A
  /-- The elements that the calls of `get` returned. -/
  returned : List A
  /-- The exceptions raised, each with the number of elements put before. -/
  raised : List (E × Nat)
  /-- The exceptions that the calls of `get` threw, each with the number of elements returned
  before. -/
  thrown : List (E × Nat)
  /-- The assertion of `get` has failed. -/
  failed : Bool

inductive Action (T A E : Type) where
  | put (t : T) (data : A)
  | get (t : T)
  /-- The scheduler runs a thread that was woken. -/
  | resume (t : T)
  | raise (e : E)
  | max_size (ms : Int)
  | clear
  | «open»
  | close
deriving DecidableEq

namespace Channel

variable {s s' : Channel T A E} {t u : T} {data : A} {e : E} {a : Action T A E}

def start (max_size : Int) : Channel T A E where
  _read_barrier := .closed
  _write_barrier := .closed
  _exception := none
  _queue := []
  _opened := true
  _max_size := max_size
  threads _ := .idle
  completed := []
  returned := []
  raised := []
  thrown := []
  failed := false

def setThread (s : Channel T A E) (t : T) (call : Call A E) : Channel T A E :=
  { s with threads := Function.update s.threads t call }

def open_read (s : Channel T A E) : Channel T A E :=
  let (b, threads) := s._read_barrier.open s.threads
  { s with _read_barrier := b, threads }

def open_write (s : Channel T A E) : Channel T A E :=
  let (b, threads) := s._write_barrier.open s.threads
  { s with _write_barrier := b, threads }

def raise_read (s : Channel T A E) (e : E) : Channel T A E :=
  let (b, threads) := s._read_barrier.raise e s.threads
  { s with _read_barrier := b, threads }

/-- The end of `put`, once there is room. -/
def push (s : Channel T A E) (t : T) (data : A) : Channel T A E :=
  let s := { s with _queue := s._queue ++ [data], completed := s.completed ++ [data] }.setThread t
    .idle
  if s._opened && !s._read_barrier._opened then s.open_read else s

/-- `put`, at its start and when its wait is over. -/
def put (s : Channel T A E) (t : T) (data : A) : Channel T A E :=
  if s._max_size ≤ s._queue.length then
    { s with _write_barrier := s._write_barrier.close._wait t }.setThread t (.put data .registered)
  else s.push t data

def _exhausted (s : Channel T A E) : Channel T A E :=
  let s := { s with _read_barrier := s._read_barrier.close }
  match s._exception with
  | some e => s.raise_read e
  | none => s

def throw (s : Channel T A E) (t : T) (e : E) : Channel T A E :=
  { s with thrown := s.thrown ++ [(e, s.returned.length)] }.setThread t .idle

/-- The front of the queue is given to the thread. -/
def pop (s : Channel T A E) (t : T) (res : A) (rest : List A) : Channel T A E :=
  { s with _queue := rest, returned := s.returned ++ [res] }.setThread t .idle

/-- The end of `get`, from its assertion. -/
def take (s : Channel T A E) (t : T) : Channel T A E :=
  match s._queue with
  | [] => { s with failed := true }.setThread t .idle
  | res :: rest =>
    let s := s.pop t res rest
    let s := if s._queue = [] then s._exhausted else s
    if (s._queue.length : Int) < s._max_size then s.open_write else s

def wait_data (s : Channel T A E) (t : T) : Channel T A E :=
  { s with _read_barrier := s._read_barrier._wait t }.setThread t (.get .registered)

def get (s : Channel T A E) (t : T) : Channel T A E :=
  if !s._read_barrier._opened then s.wait_data t
  else
    match s._queue, s._exception with
    | [], some e => s.throw t e
    | _, _ => s.take t

/-- After the wait of `get`, which begins again when the data is gone. -/
def got (s : Channel T A E) (t : T) : Channel T A E :=
  if !s._read_barrier._opened then s.wait_data t else s.take t

def raise (s : Channel T A E) (e : E) : Channel T A E :=
  let s := { s with _exception := some e, raised := s.raised ++ [(e, s.completed.length)] }
  if s._queue = [] then s.raise_read e else s

def max_size (s : Channel T A E) (ms : Int) : Channel T A E :=
  let s := { s with _max_size := ms }
  if s._max_size < s._queue.length then s.open_write else s

def clear (s : Channel T A E) : Channel T A E :=
  let s := { s with _queue := [] }
  let s := if s._max_size < s._queue.length then s.open_write else s
  if s._read_barrier._opened then s._exhausted else s

def «open» (s : Channel T A E) : Channel T A E :=
  if !s._opened then
    let s := { s with _opened := true }
    if s._queue ≠ [] then s.open_read else s
  else s

def close (s : Channel T A E) : Channel T A E := { s with _opened := false }

def step (s : Channel T A E) : Action T A E → Option (Channel T A E)
  | .put t data =>
    match s.threads t with
    | .idle => some (s.put t data)
    | _ => none
  | .get t =>
    match s.threads t with
    | .idle => some (s.get t)
    | _ => none
  | .resume t =>
    match s.threads t with
    | .put data (.woken none) => some (s.put t data)
    | .put _ (.woken (some _)) => some (s.setThread t .idle)
    | .get (.woken none) => some (s.got t)
    | .get (.woken (some e)) => some (s.throw t e)
    | _ => none
  | .raise e => some (s.raise e)
  | .max_size ms => some (s.max_size ms)
  | .clear => some s.clear
  | .open => some s.open
  | .close => some s.close

/-! ## Who is kept waiting -/

/-- No thread waits for room when there is some, or for data when there is some and the channel is
open. -/
structure NoneForNothing (s : Channel T A E) : Prop where
  writers : (s._queue.length : Int) < s._max_size → s._write_barrier._waiters = []
  readers : s._opened = true → s._queue ≠ [] → s._read_barrier._waiters = []

/-- The step makes room for the threads that wait for it by a call that does not wake them. -/
def forgets_writers (s : Channel T A E) : Action T A E → Bool
  | .max_size ms => s._write_barrier._waiters ≠ [] ∧ (s._queue.length : Int) < ms
  | .clear => s._write_barrier._waiters ≠ [] ∧ 0 < s._max_size
  | _ => false

/-- Nobody waits on a barrier that is open, and the one of the readers is when there is data. -/
structure Tended (s : Channel T A E) : Prop where
  write : s._write_barrier._opened = true → s._write_barrier._waiters = []
  read : s._read_barrier._opened = true → s._read_barrier._waiters = []
  data : s._opened = true → s._queue ≠ [] → s._read_barrier._opened = true

/-- With it, nobody waits for room when there is some. -/
structure Awake (s : Channel T A E) : Prop extends s.Tended where
  writers : (s._queue.length : Int) < s._max_size → s._write_barrier._waiters = []

omit [DecidableEq T] in
theorem Awake.none_for_nothing (h : s.Awake) : s.NoneForNothing :=
  ⟨h.writers, fun ho hq => h.read (h.data ho hq)⟩

omit [DecidableEq T] in
theorem awake_start (n : Int) : (start n : Channel T A E).Awake where
  write := by simp [start, Barrier.closed]
  read := by simp [start, Barrier.closed]
  data := by simp [start]
  writers := by simp [start, Barrier.closed]

theorem Tended.raise_read (h : s.Tended) (e : E) : (s.raise_read e).Tended :=
  ⟨h.write, fun _ => Barrier.raise_waiters h.read, fun _ _ => Barrier.raise_opened⟩

theorem Tended.open_write (h : s.Tended) : s.open_write.Tended :=
  ⟨fun _ => Barrier.open_waiters h.write, h.read, h.data⟩

theorem Tended.awake (h : s.Tended) : s.open_write.Awake :=
  ⟨h.open_write, fun _ => Barrier.open_waiters h.write⟩

theorem exhausted_rest : s._exhausted._write_barrier = s._write_barrier ∧
    s._exhausted._queue = s._queue ∧ s._exhausted._max_size = s._max_size ∧
    s._exhausted._opened = s._opened := by
  unfold _exhausted
  dsimp only
  split <;> exact ⟨rfl, rfl, rfl, rfl⟩

theorem tended_exhausted (hw : s._write_barrier._opened = true → s._write_barrier._waiters = [])
    (hq : s._queue = []) : s._exhausted.Tended := by
  have hclose : { s with _read_barrier := s._read_barrier.close }.Tended :=
    ⟨hw, by simp, by simp [hq]⟩
  unfold _exhausted
  dsimp only
  split
  · exact hclose.raise_read _
  · exact hclose

theorem Awake.exhausted (h : s.Awake) (hq : s._queue = []) : s._exhausted.Awake := by
  obtain ⟨hwrite, hqueue, hmax, -⟩ := exhausted_rest (s := s)
  refine ⟨tended_exhausted h.write hq, ?_⟩
  rw [hwrite, hqueue, hmax]
  exact h.writers

theorem Awake.setThread {call : Call A E} (h : s.Awake) : (s.setThread t call).Awake :=
  ⟨{ h with }, h.writers⟩

theorem Awake.throw (h : s.Awake) : (s.throw t e).Awake := ⟨{ h with }, h.writers⟩

theorem Awake.wait_data (h : s.Awake) (hc : s._read_barrier._opened = false) :
    (s.wait_data t).Awake := by
  refine ⟨⟨h.write, fun ho => ?_, h.data⟩, h.writers⟩
  simp [Channel.wait_data, Channel.setThread, Barrier._wait, hc] at ho

theorem Awake.push (h : s.Awake) (hroom : (s._queue.length : Int) < s._max_size) :
    (s.push t data).Awake := by
  have hwriters := h.writers hroom
  unfold Channel.push
  dsimp only
  split_ifs with hopen
  · exact ⟨⟨h.write, fun _ => Barrier.open_waiters h.read, fun _ _ => Barrier.open_opened⟩,
      fun _ => hwriters⟩
  · refine ⟨⟨h.write, h.read, fun ho _ => ?_⟩, fun _ => hwriters⟩
    have ho : s._opened = true := ho
    simpa [Channel.setThread, ho] using hopen

theorem Awake.put (h : s.Awake) : (s.put t data).Awake := by
  unfold Channel.put
  split_ifs with hfull
  · refine ⟨⟨fun ho => ?_, h.read, h.data⟩, fun hroom => ?_⟩
    · simp [Channel.setThread, Barrier._wait] at ho
    · have hroom : (s._queue.length : Int) < s._max_size := hroom
      omega
  · exact h.push (by omega)

theorem Tended.room (h : s.Tended) :
    (if (s._queue.length : Int) < s._max_size then s.open_write else s).Awake := by
  split_ifs with hroom
  · exact h.awake
  · exact ⟨h, fun hlt => absurd hlt hroom⟩

theorem Awake.take (h : s.Awake) : (s.take t).Awake := by
  unfold Channel.take
  split
  · exact ⟨{ h with }, h.writers⟩
  · rename_i res rest hq
    apply Tended.room
    split_ifs with hrest
    · exact tended_exhausted h.write hrest
    · exact ⟨h.write, h.read, fun ho _ => h.data ho (by simp [hq])⟩

theorem Awake.get (h : s.Awake) : (s.get t).Awake := by
  unfold Channel.get
  split_ifs with hc
  · exact h.wait_data (by simpa using hc)
  · split
    · exact h.throw
    · exact h.take

theorem Awake.got (h : s.Awake) : (s.got t).Awake := by
  unfold Channel.got
  split_ifs with hc
  · exact h.wait_data (by simpa using hc)
  · exact h.take

theorem Awake.raise (h : s.Awake) : (s.raise e).Awake := by
  unfold Channel.raise
  dsimp only
  split_ifs
  · refine ⟨Tended.raise_read ?_ e, h.writers⟩
    exact { h with }
  · exact ⟨{ h with }, h.writers⟩

theorem Awake.max_size {ms : Int} (h : s.Awake)
    (hok : s._write_barrier._waiters = [] ∨ ms ≤ s._queue.length) : (s.max_size ms).Awake := by
  unfold Channel.max_size
  dsimp only
  split_ifs
  · exact Tended.awake { h with }
  · refine ⟨{ h with }, fun hroom => ?_⟩
    have hroom : (s._queue.length : Int) < ms := hroom
    exact hok.resolve_right (by omega)

theorem Awake.clear (h : s.Awake) (hok : s._write_barrier._waiters = [] ∨ s._max_size ≤ 0) :
    s.clear.Awake := by
  have hempty : { s with _queue := [] }.Tended := ⟨h.write, h.read, fun _ hne => absurd rfl hne⟩
  unfold Channel.clear
  dsimp only
  split_ifs with hneg hread hread
  · exact hempty.awake.exhausted rfl
  · exact hempty.awake
  · refine Awake.exhausted ⟨hempty, fun hroom => hok.resolve_right ?_⟩ rfl
    simpa using hroom
  · refine ⟨hempty, fun hroom => hok.resolve_right ?_⟩
    simpa using hroom

theorem Awake.open (h : s.Awake) : s.open.Awake := by
  unfold Channel.open
  dsimp only
  split_ifs with hc hq
  · exact ⟨⟨h.write, fun _ => Barrier.open_waiters h.read, fun _ _ => Barrier.open_opened⟩,
      h.writers⟩
  · exact ⟨⟨h.write, h.read, fun _ hne => absurd (not_not.mp hq) hne⟩, h.writers⟩
  · exact h

theorem Awake.step (h : s.Awake) (hok : s.forgets_writers a = false) (hs : s.step a = some s') :
    s'.Awake := by
  cases a with
  | put t data =>
    simp only [Channel.step] at hs
    split at hs
    · cases hs
      exact h.put
    · cases hs
  | get t =>
    simp only [Channel.step] at hs
    split at hs
    · cases hs
      exact h.get
    · cases hs
  | resume t =>
    simp only [Channel.step] at hs
    split at hs
    · cases hs
      exact h.put
    · cases hs
      exact h.setThread
    · cases hs
      exact h.got
    · cases hs
      exact h.throw
    · cases hs
  | raise e =>
    cases hs
    exact h.raise
  | max_size ms =>
    cases hs
    refine h.max_size ?_
    by_contra hn
    simp [forgets_writers, not_or.mp hn] at hok
  | clear =>
    cases hs
    refine h.clear ?_
    by_contra hn
    simp [forgets_writers, not_or.mp hn] at hok
  | «open» =>
    cases hs
    exact h.open
  | close =>
    cases hs
    exact ⟨⟨h.write, h.read, by simp [Channel.close]⟩, h.writers⟩

theorem forgotten (hf : s.forgets_writers a = true) (hs : s.step a = some s') :
    ¬ s'.NoneForNothing := by
  intro h
  cases a with
  | max_size ms =>
    cases hs
    simp only [forgets_writers, decide_eq_true_eq] at hf
    have hlt : ¬ ms < s._queue.length := by omega
    have hw := h.writers
    simp only [Channel.max_size, hlt, if_false] at hw
    exact hf.1 (hw hf.2)
  | clear =>
    cases hs
    simp only [forgets_writers, decide_eq_true_eq] at hf
    obtain ⟨hwrite, hqueue, hmax, -⟩ := exhausted_rest (s := { s with _queue := [] })
    have hlt : ¬ s._max_size < ([] : List A).length := by
      simp only [List.length_nil]
      omega
    have hw := h.writers
    simp only [Channel.clear, hlt, if_false] at hw
    apply hf.1
    split_ifs at hw
    · rw [hwrite, hqueue, hmax] at hw
      exact hw hf.2
    · exact hw hf.2
  | _ => simp [forgets_writers] at hf

/-- In every run, nobody is kept waiting for nothing when and only when no bound is raised, and no
queue emptied, while a thread waits for room. -/
theorem none_for_nothing_iff (n : Int) {as : List (Action T A E)} {s : Channel T A E}
    (hrun : Run step anyStep (start n) as s) :
    (∀ done u, done <+: as → Run step anyStep (start n) done u → u.NoneForNothing) ↔
      Run step (fun s a => s.forgets_writers a = false) (start n) as s :=
  hrun.always_iff (awake_start n) (fun _ h => h.none_for_nothing)
    (fun _ _ _ h hok hs => h.step hok hs)
    fun _ _ _ _ _ hok hs => forgotten (by simpa using hok) hs

/-- The thread 1 waits for room until the thread 2 has taken an element. -/
def put_get_put : List (Action Nat Nat Unit) := [.put 0 7, .put 1 8, .get 2, .resume 1]

theorem a_writer_is_woken : ∃ s : Channel Nat Nat Unit,
    Run step anyStep (start 1) put_get_put s ∧ s._queue = [8] ∧
    ((∀ done u, done <+: put_get_put → Run step anyStep (start 1) done u → u.NoneForNothing) ↔
      Run step (fun s a => s.forgets_writers a = false) (start 1) put_get_put s) := by
  have hrun : Run step anyStep (start 1) put_get_put _ := Run.of_exec rfl
  exact ⟨_, hrun, rfl, none_for_nothing_iff 1 hrun⟩

/-- The thread 1 waits for room when the bound is raised. -/
theorem a_writer_is_forgotten : ¬ ∀ (n : Int) (as : List (Action Nat Nat Unit))
    (s : Channel Nat Nat Unit), Run step anyStep (start n) as s → s.NoneForNothing := by
  intro h
  have hrun : Run (step (T := Nat) (A := Nat) (E := Unit)) anyStep (start 1)
      [.put 0 7, .put 1 8, .max_size 5] _ := Run.of_exec rfl
  have hw := (h 1 _ _ hrun).writers (by decide)
  cases hw

/-! ## What is delivered -/

/-- The elements come out in the order in which they came in, no more than the bound are held, an
exception is thrown after the elements that were put before it was raised, and the assertion of
`get` holds. -/
structure Delivers (n : Int) (s : Channel T A E) : Prop where
  order : s.returned <+: s.completed
  bounded : (s._queue.length : Int) ≤ n
  thrown : ∀ e k, (e, k) ∈ s.thrown → ∃ m, (e, m) ∈ s.raised ∧ m ≤ k
  asserted : s.failed = false

/-- The calls of a channel that stays open and has one bound. -/
def plain : Action T A E → Bool
  | .put .. | .get .. | .resume .. | .raise .. => true
  | .max_size .. | .clear | .open | .close => false

/-- A reader that waited for data goes on when the data is gone again and an exception has been
raised. -/
def finds_nothing (s : Channel T A E) : Action T A E → Prop
  | .resume t => s.threads t = .get (.woken none) ∧ s._queue = [] ∧ s._exception.isSome
  | _ => False

/-- An exception whose time has come. -/
def Due (s : Channel T A E) (e : E) : Prop := ∃ m, (e, m) ∈ s.raised ∧ m ≤ s.returned.length

structure Orderly (n : Int) (s : Channel T A E) : Prop where
  opened : s._opened = true
  bound : s._max_size = n
  content : s.completed = s.returned ++ s._queue
  bounded : (s._queue.length : Int) ≤ n
  asserted : s.failed = false
  thrown : ∀ e k, (e, k) ∈ s.thrown → ∃ m, (e, m) ∈ s.raised ∧ m ≤ k
  raised : ∀ e m, (e, m) ∈ s.raised → m ≤ s.completed.length
  exception : ∀ e, s._exception = some e → ∃ m, (e, m) ∈ s.raised
  woken : ∀ t e, s.threads t = .get (.woken (some e)) → s.Due e
  quiet : s._read_barrier._opened = false → s._read_barrier._exception = none
  write_quiet : s._write_barrier._exception = none
  readable : s._read_barrier._opened = true ↔ s._queue ≠ [] ∨ s._exception.isSome

omit [DecidableEq T] in
theorem Orderly.delivers {n : Int} (h : s.Orderly n) : s.Delivers n :=
  { h with order := ⟨s._queue, h.content.symm⟩ }

omit [DecidableEq T] in
theorem orderly_start {n : Int} (hn : 1 ≤ n) : (start n : Channel T A E).Orderly n where
  opened := rfl
  bound := rfl
  content := rfl
  bounded := by
    simp only [start, List.length_nil]
    omega
  asserted := rfl
  thrown := by simp [start]
  raised := by simp [start]
  exception := by simp [start]
  woken := by simp [start]
  quiet _ := rfl
  write_quiet := rfl
  readable := by simp [start, Barrier.closed]

variable {n : Int}

theorem woken_update {call : Call A E} (hw : ∀ t e, s.threads t = .get (.woken (some e)) → s.Due e)
    (hc : ∀ e, call ≠ .get (.woken (some e))) :
    ∀ u e, Function.update s.threads t call u = .get (.woken (some e)) → s.Due e := by
  intro u e hu
  rw [Function.update_apply] at hu
  split_ifs at hu
  · exact absurd hu (hc e)
  · exact hw u e hu

theorem woken_open {b : Barrier T E} {threads : T → Call A E} (hb : b._exception = none)
    {P : E → Prop} (hw : ∀ t e, threads t = .get (.woken (some e)) → P e) :
    ∀ u e, (b.open threads).2 u = .get (.woken (some e)) → P e := by
  intro u e hu
  unfold Barrier.open at hu
  split_ifs at hu
  · exact hw u e hu
  · dsimp only at hu
    split_ifs at hu
    · cases hc : threads u <;> simp [hc, Call._wake, hb] at hu
    · exact hw u e hu

theorem woken_raise {b : Barrier T E} {threads : T → Call A E} {P : E → Prop} (he : P e)
    (hw : ∀ t e, threads t = .get (.woken (some e)) → P e) :
    ∀ u e', (b.raise e threads).2 u = .get (.woken (some e')) → P e' := by
  intro u e' hu
  unfold Barrier.raise Barrier.open at hu
  dsimp only at hu
  split_ifs at hu
  · exact hw u e' hu
  · dsimp only at hu
    split_ifs at hu
    · cases hc : threads u with
      | idle => simp [hc, Call._wake] at hu
      | put data wait => simp [hc, Call._wake] at hu
      | get wait =>
        simp only [hc, Call._wake, Call.get.injEq, Wait.woken.injEq, Option.some.injEq] at hu
        exact hu ▸ he
    · exact hw u e' hu

theorem Orderly.setThread {call : Call A E} (h : s.Orderly n)
    (hc : ∀ e, call ≠ .get (.woken (some e))) : (s.setThread t call).Orderly n :=
  { h with woken := woken_update h.woken hc }

theorem Orderly.throw (h : s.Orderly n) (he : s.Due e) : (s.throw t e).Orderly n := by
  refine { h with thrown := fun e' k hk => ?_, woken := woken_update h.woken (by simp) }
  rcases List.mem_append.mp hk with hk | hk
  · exact h.thrown e' k hk
  · obtain ⟨rfl, rfl⟩ : e' = e ∧ k = s.returned.length := by simpa using hk
    exact he

theorem Orderly.wait_data (h : s.Orderly n) : (s.wait_data t).Orderly n :=
  { h with woken := woken_update h.woken (by simp) }

theorem Orderly.open_write (h : s.Orderly n) : s.open_write.Orderly n :=
  { h with woken := woken_open h.write_quiet h.woken, write_quiet := Barrier.open_exception }

theorem Orderly.room (h : s.Orderly n) :
    (if (s._queue.length : Int) < s._max_size then s.open_write else s).Orderly n := by
  split_ifs
  · exact h.open_write
  · exact h

theorem Orderly.push (h : s.Orderly n) (hroom : (s._queue.length : Int) < s._max_size) :
    (s.push t data).Orderly n := by
  have hcontent : s.completed ++ [data] = s.returned ++ (s._queue ++ [data]) := by
    rw [h.content, List.append_assoc]
  have hbounded : ((s._queue ++ [data]).length : Int) ≤ n := by
    have hb := h.bound
    simp only [List.length_append, List.length_cons, List.length_nil]
    omega
  have hraised : ∀ e m, (e, m) ∈ s.raised → m ≤ (s.completed ++ [data]).length := by
    intro e m hm
    have := h.raised e m hm
    simp only [List.length_append, List.length_cons, List.length_nil]
    omega
  have hwoken : ∀ u e, Function.update s.threads t .idle u = .get (.woken (some e)) → s.Due e :=
    woken_update h.woken (by simp)
  unfold Channel.push
  dsimp only
  split_ifs with hopen
  · have hclosed : s._read_barrier._opened = false := by
      simpa [Channel.setThread, h.opened] using hopen
    exact ⟨h.opened, h.bound, hcontent, hbounded, h.asserted, h.thrown, hraised, h.exception,
      woken_open (h.quiet hclosed) hwoken, fun hc => by simp [Channel.open_read] at hc,
      h.write_quiet, by simp [Channel.open_read, Channel.setThread]⟩
  · have hopened : s._read_barrier._opened = true := by
      simpa [Channel.setThread, h.opened] using hopen
    exact ⟨h.opened, h.bound, hcontent, hbounded, h.asserted, h.thrown, hraised, h.exception,
      hwoken, h.quiet, h.write_quiet, by simp [Channel.setThread, hopened]⟩

theorem Orderly.put (h : s.Orderly n) : (s.put t data).Orderly n := by
  unfold Channel.put
  split_ifs with hfull
  · exact { h with
      woken := woken_update h.woken (by simp)
      write_quiet := Barrier.close_exception h.write_quiet }
  · exact h.push (by omega)

theorem Orderly.pop {res : A} {rest : List A} (h : s.Orderly n) (hq : s._queue = res :: rest) :
    (if (s.pop t res rest)._queue = [] then (s.pop t res rest)._exhausted
      else s.pop t res rest).Orderly n := by
  have hcontent : s.completed = (s.returned ++ [res]) ++ rest := by
    rw [h.content, hq, List.append_assoc, List.singleton_append]
  have hbounded : (rest.length : Int) ≤ n := by
    have hb := h.bounded
    rw [hq, List.length_cons] at hb
    omega
  have hdue : ∀ e, s.Due e → (s.pop t res rest).Due e := by
    rintro e ⟨m, hm, hle⟩
    refine ⟨m, hm, Nat.le_trans hle ?_⟩
    simp [Channel.pop, Channel.setThread]
  have hwoken : ∀ u e, (s.pop t res rest).threads u = .get (.woken (some e)) →
      (s.pop t res rest).Due e := by
    intro u e hu
    exact hdue e (woken_update h.woken (by simp) u e hu)
  split_ifs with hrest
  · have hrest : rest = [] := hrest
    subst hrest
    unfold _exhausted
    dsimp only
    split
    · rename_i e he
      have he : s._exception = some e := he
      have htime : (s.pop t res []).Due e := by
        obtain ⟨m, hm⟩ := h.exception e he
        refine ⟨m, hm, Nat.le_trans (h.raised e m hm) (Nat.le_of_eq ?_)⟩
        rw [hcontent, List.append_nil]
        rfl
      exact ⟨h.opened, h.bound, hcontent, hbounded, h.asserted, h.thrown, h.raised, h.exception,
        woken_raise htime hwoken, fun hc => by simp [Channel.raise_read] at hc, h.write_quiet,
        by simp [Channel.raise_read, Channel.pop, Channel.setThread, he]⟩
    · rename_i he
      have he : s._exception = none := he
      have hopened : s._read_barrier._opened = true := h.readable.mpr (Or.inl (by simp [hq]))
      exact ⟨h.opened, h.bound, hcontent, hbounded, h.asserted, h.thrown, h.raised, h.exception,
        hwoken, fun _ => by simp [Channel.pop, Channel.setThread, Barrier.close, hopened],
        h.write_quiet, by simp [Channel.pop, Channel.setThread, he]⟩
  · have hrest : rest ≠ [] := hrest
    have hopened : s._read_barrier._opened = true := h.readable.mpr (Or.inl (by simp [hq]))
    exact { h with
        content := hcontent
        bounded := hbounded
        woken := hwoken
        readable := by simp [Channel.pop, Channel.setThread, hopened, hrest] }

theorem Orderly.take (h : s.Orderly n) (hq : s._queue ≠ []) : (s.take t).Orderly n := by
  unfold Channel.take
  split
  · rename_i hnil
    exact absurd hnil hq
  · rename_i res rest hq
    exact (h.pop hq).room

theorem Orderly.get (h : s.Orderly n) : (s.get t).Orderly n := by
  unfold Channel.get
  split_ifs with hc
  · exact h.wait_data
  · split
    · rename_i e hq he
      obtain ⟨m, hm⟩ := h.exception e he
      refine h.throw ⟨m, hm, Nat.le_trans (h.raised e m hm) (Nat.le_of_eq ?_)⟩
      rw [h.content, hq, List.append_nil]
    · rename_i hne
      refine h.take fun hq => ?_
      have hopened : s._read_barrier._opened = true := by simpa using hc
      obtain ⟨e, he⟩ := Option.isSome_iff_exists.mp
        ((h.readable.mp hopened).resolve_left (not_not.mpr hq))
      exact hne e hq he

theorem Orderly.got (h : s.Orderly n) (hok : ¬ (s._queue = [] ∧ s._exception.isSome)) :
    (s.got t).Orderly n := by
  unfold Channel.got
  split_ifs with hc
  · exact h.wait_data
  · refine h.take fun hq => hok ⟨hq, ?_⟩
    have hopened : s._read_barrier._opened = true := by simpa using hc
    exact (h.readable.mp hopened).resolve_left (not_not.mpr hq)

theorem Orderly.raise (h : s.Orderly n) : (s.raise e).Orderly n := by
  have hthrown : ∀ e' k, (e', k) ∈ s.thrown →
      ∃ m, (e', m) ∈ s.raised ++ [(e, s.completed.length)] ∧ m ≤ k := by
    intro e' k hk
    obtain ⟨m, hm, hle⟩ := h.thrown e' k hk
    exact ⟨m, List.mem_append_left _ hm, hle⟩
  have hraised : ∀ e' m, (e', m) ∈ s.raised ++ [(e, s.completed.length)] →
      m ≤ s.completed.length := by
    intro e' m hm
    rcases List.mem_append.mp hm with hm | hm
    · exact h.raised e' m hm
    · obtain ⟨rfl, rfl⟩ : e' = e ∧ m = s.completed.length := by simpa using hm
      exact Nat.le_refl _
  have hexception : ∀ e', some e = some e' →
      ∃ m, (e', m) ∈ s.raised ++ [(e, s.completed.length)] := by
    rintro e' ⟨⟩
    exact ⟨s.completed.length, by simp⟩
  have hwoken : ∀ u e', s.threads u = .get (.woken (some e')) →
      ∃ m, (e', m) ∈ s.raised ++ [(e, s.completed.length)] ∧ m ≤ s.returned.length := by
    intro u e' hu
    obtain ⟨m, hm, hle⟩ := h.woken u e' hu
    exact ⟨m, List.mem_append_left _ hm, hle⟩
  unfold Channel.raise
  dsimp only
  split_ifs with hq
  · have hdue : ∃ m, (e, m) ∈ s.raised ++ [(e, s.completed.length)] ∧ m ≤ s.returned.length := by
      refine ⟨s.completed.length, by simp, Nat.le_of_eq ?_⟩
      rw [h.content, hq, List.append_nil]
    exact ⟨h.opened, h.bound, h.content, h.bounded, h.asserted, hthrown, hraised, hexception,
      woken_raise hdue hwoken, fun hc => by simp [Channel.raise_read] at hc, h.write_quiet,
      by simp [Channel.raise_read]⟩
  · exact ⟨h.opened, h.bound, h.content, h.bounded, h.asserted, hthrown, hraised, hexception,
      hwoken, h.quiet, h.write_quiet, by simp [h.readable, hq]⟩

theorem Orderly.step (h : s.Orderly n) (hp : plain a = true) (hok : ¬ s.finds_nothing a)
    (hs : s.step a = some s') : s'.Orderly n := by
  cases a with
  | put t data =>
    simp only [Channel.step] at hs
    split at hs
    · cases hs
      exact h.put
    · cases hs
  | get t =>
    simp only [Channel.step] at hs
    split at hs
    · cases hs
      exact h.get
    · cases hs
  | resume t =>
    simp only [Channel.step] at hs
    split at hs
    · cases hs
      exact h.put
    · cases hs
      exact h.setThread (by simp)
    · rename_i ht
      cases hs
      exact h.got fun hn => hok ⟨ht, hn⟩
    · rename_i e ht
      cases hs
      exact h.throw (h.woken t e ht)
    · cases hs
  | raise e =>
    cases hs
    exact h.raise
  | max_size ms => cases hp
  | clear => cases hp
  | «open» => cases hp
  | close => cases hp

theorem Orderly.fails (h : s.Orderly n) (hf : s.finds_nothing a) (hs : s.step a = some s') :
    s'.failed = true := by
  cases a with
  | resume t =>
    obtain ⟨ht, hq, he⟩ := hf
    have hopened : s._read_barrier._opened = true := h.readable.mpr (Or.inr he)
    simp only [Channel.step, ht, Channel.got, hopened, Channel.take, hq] at hs
    cases hs
    rfl
  | _ => exact hf.elim

/-- In every run of a channel that stays open and has one bound, the elements and the exceptions are
delivered as they should when and only when no reader that waited goes on after the data is gone and
an exception has been raised. -/
theorem delivers_iff (hn : 1 ≤ n) {as : List (Action T A E)} {s : Channel T A E}
    (hrun : Run step (fun _ a => plain a = true) (start n) as s) :
    (∀ done u, done <+: as → Run step (fun _ a => plain a = true) (start n) done u →
      u.Delivers n) ↔
      Run step (fun s a => plain a = true ∧ ¬ s.finds_nothing a) (start n) as s := by
  refine hrun.always_iff (orderly_start hn) (fun _ h => h.delivers)
    (fun _ _ _ h hok hs => h.step hok.1 hok.2 hs) fun s a s' h hp hok hs hd => ?_
  have hfails := h.fails (not_not.mp fun hn => hok ⟨hp, hn⟩) hs
  rw [hd.asserted] at hfails
  cases hfails

/-- The thread 0 waits for the element that the thread 1 puts, and an exception is raised once it
has it. -/
def put_then_raise : List (Action Nat Nat Unit) :=
  [.get 0, .put 1 7, .resume 0, .raise (), .get 2]

theorem the_exception_is_last : ∃ s : Channel Nat Nat Unit,
    Run step (fun _ a => plain a = true) (start 1) put_then_raise s ∧
    s.returned = [7] ∧ s.thrown = [((), 1)] ∧
    ((∀ done u, done <+: put_then_raise →
        Run step (fun _ a => plain a = true) (start 1) done u → u.Delivers 1) ↔
      Run step (fun s a => plain a = true ∧ ¬ s.finds_nothing a) (start 1) put_then_raise s) := by
  have hrun : Run step (fun _ a => plain a = true) (start 1) put_then_raise _ := Run.of_exec rfl
  exact ⟨_, hrun, rfl, rfl, delivers_iff (by decide) hrun⟩

/-- The thread 2 takes the element that woke the thread 0, and an exception is raised before the
thread 0 goes on. -/
theorem a_reader_goes_on_without_data : ¬ ∀ (n : Int) (as : List (Action Nat Nat Unit))
    (s : Channel Nat Nat Unit), 1 ≤ n → Run step (fun _ a => plain a = true) (start n) as s →
      s.Delivers n := by
  intro h
  have hrun : Run (step (T := Nat) (A := Nat) (E := Unit)) (fun _ a => plain a = true) (start 1)
      [.get 0, .put 1 7, .get 2, .raise (), .resume 0] _ := Run.of_exec rfl
  have hd := (h 1 _ _ (by decide) hrun).asserted
  cases hd

end Channel

end elle.reactor.channel
