-- A `Generator`: a thread runs a driver that yields values into a channel, then puts an end marker.
-- The values are iterated, or asked for with `next`. The closure of the driver holds the generator
-- that it was made for, and an iterator that of `begin`: each may have been moved since.
import Memo.ReactorChannel

open runs

namespace elle.reactor.generator

open channel

variable {A E : Type}

/-! ## The generator -/

/-- The thread of the driver, and the one that has the generator. -/
inductive Party where
  | driver
  | consumer
deriving DecidableEq

/-- The channel of a generator. An end marker is an element without value, and no exception is
raised through the channel. -/
abbrev Results (A : Type) := Channel Party (Option A) Empty

/-- What a driver does: the values that it yields, and the exception that it throws then, if any. -/
structure Driver (A E : Type) where
  values : List A
  throws : Option E

inductive Ending (E : Type) where
  | finished
  | raised (e : E)
  | assertion
deriving DecidableEq

/-- How a driver ends. -/
def Driver.ending (d : Driver A E) : Ending E :=
  match d.throws with
  | some e => .raised e
  | none => .finished

/-- What a driver puts in the channel. -/
def Driver.puts (d : Driver A E) : List (Option A) := d.values.map some ++ [none]

/-- How the values are consumed: by the operators of the iterator, or by calls of `next`. -/
inductive Mode where
  | iterate
  | next
deriving DecidableEq

/-- What is done with an end marker. The iterator rethrows the exception of its generator, and
`next` throws `End`. -/
def Mode.ending : Mode → Option E → Ending E
  | .iterate, some e => .raised e
  | .iterate, none | .next, _ => .finished

/-- Where the consumer looks for values. -/
inductive Place where
  /-- In its generator. An iterator is made of it later. -/
  | generator
  /-- In the generator of its iterator. -/
  | iterator
  /-- In the generator of its iterator, that was moved since. -/
  | left
deriving DecidableEq

structure State (A E : Type) where
  /-- The channel of the generator that the closure of the driver holds. -/
  _results : Results A
  /-- The exception of the generator that the closure of the driver holds. -/
  _exception : Option E := none
  /-- The channel of the generator where the consumer looks, when it is another one. It has no
  exception. -/
  moved : Option (Results A) := none
  place : Place := .generator
  /-- The consumer waits on a generator that neither of them has any more. -/
  lost : Bool := false
  /-- What the driver has not put yet. -/
  todo : List (Option A)
  collected : List A := []
  ended : Option (Ending E) := none

inductive Event where
  /-- The driver goes on, up to the next element that it puts. -/
  | produce
  | resume_driver
  /-- `begin`. -/
  | begin
  /-- The consumer asks for a value. -/
  | consume
  | resume_consumer
  | move

def SizeUnlimited : Int := 0x7fffffff

def start (d : Driver A E) : State A E :=
  { _results := Channel.start SizeUnlimited, todo := d.puts }

/-- `Channel(Self&&)`: the new channel. The calls in progress are those of the other one. -/
def moved_to (c : Results A) : Results A := { c with _exception := none, threads := fun _ => .idle }

/-- What is left of a channel after a move. -/
def moved_from (c : Results A) : Results A :=
  { c with
    _queue := []
    _read_barrier := { c._read_barrier with _waiters := [] }
    _write_barrier := { c._write_barrier with _waiters := [] } }

namespace State

variable {s s' : State A E} {d : Driver A E} {m : Mode} {a : Event}

/-- The consumer is in a call. -/
def Busy (s : State A E) : Prop :=
  s._results.threads .consumer ≠ .idle ∨ (∃ c ∈ s.moved, c.threads .consumer ≠ .idle) ∨
    s.lost = true

/-- What the consumer does with what `get` returned, if it did. -/
def received (m : Mode) (exception : Option E) (before after : Results A) (s : State A E) :
    State A E :=
  if after.failed then { s with ended := some .assertion }
  else
    match after.returned.drop before.returned.length with
    | some v :: _ => { s with collected := s.collected ++ [v] }
    | none :: _ => { s with ended := some (m.ending exception) }
    | [] => s

variable [DecidableEq A]

/-- A step of the consumer on the generator that the closure of the driver holds. -/
def on_captured (m : Mode) (a : Action Party (Option A) Empty) (s : State A E) :
    Option (State A E) :=
  (s._results.step a).map fun c =>
    received m s._exception s._results c { s with _results := c }

/-- A step of the consumer on another generator. -/
def on_moved (m : Mode) (a : Action Party (Option A) Empty) (r : Results A) (s : State A E) :
    Option (State A E) :=
  (r.step a).map fun c => received m none r c { s with moved := some c }

instance (s : State A E) : Decidable s.Busy := inferInstanceAs (Decidable (_ ∨ _ ∨ _))

def step (m : Mode) (d : Driver A E) (s : State A E) : Event → Option (State A E)
  | .produce =>
    match s.todo with
    | [] => none
    | data :: todo => (s._results.step (.put .driver data)).map fun c =>
      { s with
        _results := c
        todo
        _exception := if data.isNone then d.throws else s._exception }
  | .resume_driver => (s._results.step (.resume .driver)).map fun c => { s with _results := c }
  | .begin =>
    if m = .iterate ∧ s.place = .generator then some { s with place := .iterator } else none
  | .consume =>
    if s.Busy ∨ s.ended.isSome ∨ (m = .iterate ∧ s.place = .generator) then none
    else
      match s.moved with
      | none => s.on_captured m (.get .consumer)
      | some r => s.on_moved m (.get .consumer) r
  | .resume_consumer =>
    if s._results.threads .consumer ≠ .idle then s.on_captured m (.resume .consumer)
    else s.moved.bind fun r => s.on_moved m (.resume .consumer) r
  | .move =>
    match s.place, s.moved with
    | .generator, none =>
      some { s with _results := moved_from s._results, moved := some (moved_to s._results) }
    | .generator, some r => some { s with
        moved := some (moved_to r)
        lost := s.lost || r.threads .consumer ≠ .idle }
    -- what the generator is moved to is not looked at any more
    | .iterator, none => some { s with _results := moved_from s._results, place := .left }
    | .iterator, some r => some { s with moved := some (moved_from r), place := .left }
    | .left, _ => some s

/-- The values that the driver yields are collected, and the consumer ends as the driver does. -/
structure Faithful (d : Driver A E) (s : State A E) : Prop where
  collected : s.collected = d.values
  ended : s.ended = some d.ending

/-- Nobody can go on. -/
def Complete (m : Mode) (d : Driver A E) (s : State A E) : Prop :=
  s.step m d .produce = none ∧ s.step m d .resume_driver = none ∧ s.step m d .begin = none ∧
    s.step m d .consume = none ∧ s.step m d .resume_consumer = none

/-- The channel of the generator where the consumer looks. -/
def current (s : State A E) : Results A := s.moved.getD s._results

/-- The generator is not moved during a call. It is once the driver has put the end marker, or if
there is an iterator of it, when nothing is in its channel. -/
def Harmless (s : State A E) : Event → Prop
  | .move =>
    match s.place with
    | .generator => none ∈ s._results.completed ∧ ¬ s.Busy
    | .iterator => s.current._queue = [] ∧ ¬ s.Busy
    | .left => True
  | _ => True

end State

/-! ## The channel of a generator -/

namespace Results

variable {c c' : Results A} {data res : Option A} {rest : List (Option A)}

/-- The element of a call of `put`. -/
def put_by : Call (Option A) Empty → List (Option A)
  | .put data _ => [data]
  | .idle | .get _ => []

/-- The element that the driver is putting. -/
def pending (c : Results A) : List (Option A) := put_by (c.threads .driver)

/-- The calls are those of the two threads, and a thread that waits is where it will be woken. -/
structure Flows (c : Results A) : Prop where
  orderly : c.Orderly SizeUnlimited
  awake : c.Awake
  plain : c._exception = none
  driver : ∀ w, c.threads .driver ≠ .get w
  consumer : ∀ data w, c.threads .consumer ≠ .put data w
  writer : ∀ data, c.threads .driver = .put data .registered → .driver ∈ c._write_barrier._waiters
  reader : c.threads .consumer = .get .registered → .consumer ∈ c._read_barrier._waiters
  woken : ∀ e, c.threads .consumer = .get (.woken e) → c._queue ≠ []
  readers : .driver ∉ c._read_barrier._waiters
  writers : .consumer ∉ c._write_barrier._waiters

theorem open_threads {T B F : Type} [DecidableEq T] (b : Barrier T F) (threads : T → Call B F)
    (t : T) : (b.open threads).2 t =
      if b._opened = false ∧ t ∈ b._waiters then (threads t)._wake b._exception else threads t := by
  unfold Barrier.open
  cases b._opened <;> simp

theorem wake_consumer {w : Call (Option A) Empty} (hw : ∀ data v, w ≠ .put data v)
    (e : Option Empty) : (∀ data v, w._wake e ≠ .put data v) ∧ w._wake e ≠ .get .registered := by
  cases w with
  | idle => exact ⟨nofun, nofun⟩
  | put data v => exact absurd rfl (hw data v)
  | get v => exact ⟨nofun, nofun⟩

theorem wake_driver {w : Call (Option A) Empty} (hw : ∀ v, w ≠ .get v) (e : Option Empty) :
    (∀ v, w._wake e ≠ .get v) ∧ (∀ data, w._wake e ≠ .put data .registered) ∧
      put_by (w._wake e) = put_by w := by
  cases w with
  | idle => exact ⟨nofun, nofun, rfl⟩
  | put data v => exact ⟨nofun, nofun, rfl⟩
  | get v => exact absurd rfl (hw v)

theorem Flows.put (h : Flows c) (data : Option A) :
    Flows (c.put .driver data) ∧ (c.put .driver data).returned = c.returned ∧
      (c.put .driver data).completed ++ pending (c.put .driver data) = c.completed ++ [data] := by
  have horderly : (c.put .driver data).Orderly SizeUnlimited := h.orderly.put
  have hawake : (c.put .driver data).Awake := h.awake.put
  unfold Channel.put at horderly hawake ⊢
  split
  · next hfull =>
    rw [if_pos hfull] at horderly hawake
    refine ⟨⟨horderly, hawake, h.plain, ?_, ?_, ?_, ?_, ?_, h.readers, ?_⟩, rfl, ?_⟩
    · simp [Channel.setThread]
    · simpa [Channel.setThread] using h.consumer
    · simp [Channel.setThread, Barrier._wait]
    · simpa [Channel.setThread] using h.reader
    · simpa [Channel.setThread] using h.woken
    · simpa [Channel.setThread, Barrier._wait] using h.writers
    · simp [pending, put_by, Channel.setThread]
  · next hroom =>
    rw [if_neg hroom] at horderly hawake
    unfold Channel.push at horderly hawake ⊢
    dsimp only at horderly hawake ⊢
    split
    · next hopen =>
      rw [if_pos hopen] at horderly hawake
      have hclosed : c._read_barrier._opened = false := by
        simpa [Channel.setThread, h.orderly.opened] using hopen
      have hwake := wake_consumer h.consumer c._read_barrier._exception
      refine ⟨⟨horderly, hawake, h.plain, ?_, ?_, ?_, ?_, ?_, ?_, h.writers⟩, rfl, ?_⟩
      · simp [Channel.open_read, Channel.setThread, open_threads, h.readers]
      · intro data v
        simp only [Channel.open_read, Channel.setThread, open_threads]
        split
        · simpa using hwake.1 data v
        · simpa using h.consumer data v
      · simp [Channel.open_read, Channel.setThread, open_threads, h.readers]
      · simp only [Channel.open_read, Channel.setThread, open_threads]
        split
        · intro hregistered
          exact absurd (by simpa using hregistered) hwake.2
        · next hnot =>
          intro hregistered
          exact absurd ⟨hclosed, h.reader (by simpa using hregistered)⟩ hnot
      · simp [Channel.open_read, Channel.setThread]
      · simp [Channel.open_read, Channel.setThread, Barrier.open, hclosed]
      · simp [pending, put_by, Channel.open_read, Channel.setThread, open_threads, h.readers]
    · next hopen =>
      rw [if_neg hopen] at horderly hawake
      refine ⟨⟨horderly, hawake, h.plain, ?_, ?_, ?_, ?_, ?_, h.readers, h.writers⟩, rfl, ?_⟩
      · simp [Channel.setThread]
      · simpa [Channel.setThread] using h.consumer
      · simp [Channel.setThread]
      · simpa [Channel.setThread] using h.reader
      · simp [Channel.setThread]
      · simp [pending, put_by, Channel.setThread]

theorem get_eq_got {t : Party} (hplain : c._exception = none) : c.get t = c.got t := by
  unfold Channel.get Channel.got
  rw [hplain]
  cases c._queue <;> rfl

theorem Flows.opened (h : Flows c) : c._read_barrier._opened = true ↔ c._queue ≠ [] := by
  rw [h.orderly.readable, h.plain]
  simp

/-- The front of the queue is given. -/
def popped (c : Results A) (res : Option A) (rest : List (Option A)) : Results A :=
  { c with
    _queue := rest
    returned := c.returned ++ [res]
    threads := Function.update c.threads .consumer .idle
    _read_barrier := if rest = [] then c._read_barrier.close else c._read_barrier }

theorem Flows.take_eq (h : Flows c) (hq : c._queue = res :: rest) :
    c.take .consumer = (popped c res rest).open_write := by
  have hroom : (rest.length : Int) < c._max_size := by
    have hbounded := h.orderly.bounded
    rw [hq, List.length_cons] at hbounded
    rw [h.orderly.bound]
    omega
  unfold Channel.take popped
  rw [hq]
  by_cases hrest : rest = []
  · subst hrest
    simp only [Channel.pop, Channel.setThread, Channel._exhausted, h.plain, if_true]
    exact if_pos hroom
  · simp only [Channel.pop, Channel.setThread, hrest, if_false]
    exact if_pos hroom

theorem Flows.take (h : Flows c) (hq : c._queue = res :: rest) :
    Flows (c.take .consumer) ∧ pending (c.take .consumer) = pending c ∧
      (c.take .consumer).completed = c.completed ∧
      (c.take .consumer).returned = c.returned ++ [res] ∧
      (c.take .consumer).threads .consumer = .idle := by
  have horderly := h.orderly.take (t := .consumer) (hq ▸ List.cons_ne_nil res rest)
  have hawake := h.awake.take (t := .consumer)
  rw [h.take_eq hq] at horderly hawake ⊢
  have hconsumer : (popped c res rest).open_write.threads .consumer = .idle := by
    simp [Channel.open_write, popped, open_threads, h.writers]
  have hdriver : (popped c res rest).open_write.threads .driver =
      if c._write_barrier._opened = false ∧ .driver ∈ c._write_barrier._waiters then
        (c.threads .driver)._wake c._write_barrier._exception else c.threads .driver := by
    simp [Channel.open_write, popped, open_threads]
  have hwake := wake_driver h.driver c._write_barrier._exception
  refine ⟨⟨horderly, hawake, h.plain, ?_, ?_, ?_, ?_, ?_, ?_, ?_⟩, ?_, rfl, rfl, hconsumer⟩
  · intro w
    rw [hdriver]
    split
    · exact hwake.1 w
    · exact h.driver w
  · simp [hconsumer]
  · intro data
    rw [hdriver]
    split
    · exact fun heq => absurd heq (hwake.2.1 data)
    · next hnot =>
      intro heq
      have hwaits := h.writer data heq
      cases hopened : c._write_barrier._opened with
      | false => exact absurd ⟨hopened, hwaits⟩ hnot
      | true =>
        rw [h.awake.write hopened] at hwaits
        cases hwaits
  · simp [hconsumer]
  · simp [hconsumer]
  · have hwaiters : (popped c res rest).open_write._read_barrier._waiters =
        c._read_barrier._waiters := by
      simp only [Channel.open_write, popped]
      split <;> simp
    rw [hwaiters]
    exact h.readers
  · have hnone : (popped c res rest).open_write._write_barrier._waiters = [] :=
      Barrier.open_waiters h.awake.write
    simp [hnone]
  · unfold pending
    rw [hdriver]
    split
    · exact hwake.2.2
    · rfl

theorem Flows.got (h : Flows c) :
    Flows (c.got .consumer) ∧ pending (c.got .consumer) = pending c ∧
      (c.got .consumer).completed = c.completed ∧
      ((c._queue = [] ∧ (c.got .consumer).returned = c.returned) ∨
        ∃ res rest, c._queue = res :: rest ∧ (c.got .consumer).returned = c.returned ++ [res] ∧
          (c.got .consumer).threads .consumer = .idle) := by
  have horderly := h.orderly.got (t := .consumer) (by simp [h.plain])
  have hawake := h.awake.got (t := .consumer)
  cases hq : c._queue with
  | nil =>
    have hclosed : c._read_barrier._opened = false := by
      have hopened := h.opened
      simpa [hq] using hopened
    have hgot : c.got .consumer = c.wait_data .consumer := by simp [Channel.got, hclosed]
    rw [hgot] at horderly hawake ⊢
    refine ⟨⟨horderly, hawake, h.plain, ?_, ?_, ?_, ?_, ?_, ?_, h.writers⟩, ?_, rfl,
      .inl ⟨rfl, rfl⟩⟩
    · simpa [Channel.wait_data, Channel.setThread] using h.driver
    · simp [Channel.wait_data, Channel.setThread]
    · simpa [Channel.wait_data, Channel.setThread] using h.writer
    · simp [Channel.wait_data, Channel.setThread, Barrier._wait]
    · simp [Channel.wait_data, Channel.setThread]
    · simpa [Channel.wait_data, Channel.setThread, Barrier._wait] using h.readers
    · simp [pending, Channel.wait_data, Channel.setThread]
  | cons res rest =>
    have hopened : c._read_barrier._opened = true := h.opened.2 (hq ▸ List.cons_ne_nil res rest)
    have hgot : c.got .consumer = c.take .consumer := by simp [Channel.got, hopened]
    rw [hgot]
    obtain ⟨hflows, hpending, hcompleted, hreturned, hidle⟩ := h.take hq
    exact ⟨hflows, hpending, hcompleted, .inr ⟨res, rest, rfl, hreturned, hidle⟩⟩

theorem put_consumer (h : c.threads .consumer = .idle) :
    (c.put .driver data).threads .consumer = .idle := by
  unfold Channel.put
  split
  · simpa [Channel.setThread] using h
  · unfold Channel.push
    dsimp only
    split
    · simp [Channel.open_read, Channel.setThread, open_threads, h, Call._wake]
    · simpa [Channel.setThread] using h

/-- A move takes nothing from a channel that is empty. -/
theorem Flows.moved_from (h : Flows c) (hnil : c._queue = [])
    (hidle : c.threads .consumer = .idle) : Flows (moved_from c) := by
  have horderly := h.orderly
  have hreadable := h.orderly.readable
  rw [hnil] at hreadable
  have hcontent := h.orderly.content
  rw [hnil] at hcontent
  have hroom : (c._queue.length : Int) < c._max_size := by
    rw [hnil, h.orderly.bound]
    show (0 : Int) < SizeUnlimited
    decide
  refine ⟨{ horderly with
      content := hcontent
      bounded := by simp [generator.moved_from, SizeUnlimited]
      readable := hreadable }, ⟨⟨fun _ => rfl, fun _ => rfl, fun _ hne => absurd rfl hne⟩,
      fun _ => rfl⟩, h.plain, h.driver, h.consumer, fun data hput => ?_, fun hget => ?_,
      fun e hget => ?_, by simp [generator.moved_from], by simp [generator.moved_from]⟩
  · have hwaits := h.writer data hput
    rw [h.awake.writers hroom] at hwaits
    cases hwaits
  · have hcall : c.threads .consumer = .get .registered := hget
    rw [hidle] at hcall
    cases hcall
  · have hcall : c.threads .consumer = .get (.woken e) := hget
    rw [hidle] at hcall
    cases hcall

end Results

/-! ## End markers -/

theorem map_some_unique {l vs : List A} {r : List (Option A)}
    (h : l.map some ++ none :: r = vs.map some ++ [none]) : l = vs ∧ r = [] := by
  induction l generalizing vs with
  | nil =>
    cases vs with
    | nil => exact ⟨rfl, by simpa using h⟩
    | cons v vs => simp at h
  | cons a l ih =>
    cases vs with
    | nil => simp at h
    | cons v vs =>
      simp only [List.map_cons, List.cons_append, List.cons.injEq, Option.some.injEq] at h
      obtain ⟨rfl, hr⟩ := ih h.2
      exact ⟨by rw [h.1], hr⟩

theorem Driver.after_marker {d : Driver A E} {l r : List (Option A)} (h : l ++ r = d.puts)
    (hl : none ∈ l) : r = [] := by
  rcases List.eq_nil_or_concat r with hr | ⟨r', x, rfl⟩
  · exact hr
  · rw [Driver.puts, List.concat_eq_append, ← List.append_assoc] at h
    have hvalues := (List.append_inj' h rfl).1
    have hnone : none ∈ d.values.map some := hvalues ▸ List.mem_append_left r' hl
    simp at hnone

theorem Driver.marker_last {d : Driver A E} {l rest : List (Option A)} {data : Option A}
    (h : l ++ data :: rest = d.puts) : data = none ↔ rest = [] := by
  constructor
  · rintro rfl
    have hsplit : (l ++ [none]) ++ rest = d.puts := by rw [← h, List.append_assoc]; rfl
    exact d.after_marker hsplit (by simp)
  · rintro rfl
    have hlast := (List.append_inj' h rfl).2
    exact (List.cons.inj hlast).1

namespace State

variable {s s' : State A E} {d : Driver A E} {m : Mode} {a : Event} {before after : Results A}
  {exception : Option E}

theorem received_same (hfailed : after.failed = false) (h : after.returned = before.returned) :
    received m exception before after s = s := by
  unfold received
  rw [hfailed, h, List.drop_length]
  rfl

theorem received_value {v : A} (hfailed : after.failed = false)
    (h : after.returned = before.returned ++ [some v]) :
    received m exception before after s = { s with collected := s.collected ++ [v] } := by
  unfold received
  rw [hfailed, h, List.drop_left]
  rfl

theorem received_marker (hfailed : after.failed = false)
    (h : after.returned = before.returned ++ [none]) :
    received m exception before after s = { s with ended := some (m.ending exception) } := by
  unfold received
  rw [hfailed, h, List.drop_left]
  rfl

/-! ## Moves at the end -/

/-- All that the driver put comes to the consumer, which is where the marker says. -/
structure Kept (m : Mode) (d : Driver A E) (s : State A E) : Prop where
  flows : Results.Flows s.current
  program : s.current.completed ++ Results.pending s.current ++ s.todo = d.puts
  received : s.current.returned = s.collected.map some ++ if s.ended.isSome then [none] else []
  idle : s.ended.isSome → s.current.threads .consumer = .idle
  ended : ∀ x ∈ s.ended, x = m.ending d.throws ∨ s.moved.isSome ∧ x = m.ending none
  exception : s._exception = if s.todo = [] then d.throws else none
  lost : s.lost = false
  moved : ∀ c ∈ s.moved, none ∈ s._results.completed ∧ none ∈ c.completed ∧
    s._results.threads = (fun _ => .idle) ∧ c.threads .consumer = .idle

theorem kept_start (m : Mode) (d : Driver A E) : Kept m d (start d) where
  flows := {
    orderly := Channel.orderly_start (by decide)
    awake := Channel.awake_start _
    plain := rfl
    driver := nofun
    consumer := nofun
    writer := nofun
    reader := nofun
    woken := nofun
    readers := nofun
    writers := nofun }
  program := rfl
  received := rfl
  idle := nofun
  ended := nofun
  exception := by simp [start, Driver.puts]
  lost := rfl
  moved := nofun

theorem Kept.done (h : Kept m d s) (hmarker : none ∈ s.current.completed) :
    Results.pending s.current = [] ∧ s.todo = [] := by
  have hprogram := h.program
  rw [List.append_assoc] at hprogram
  exact List.append_eq_nil_iff.1 (d.after_marker hprogram hmarker)

theorem Kept.left (h : Kept m d s) (hended : s.ended = none) :
    s.collected.map some ++ (s.current._queue ++ (Results.pending s.current ++ s.todo)) =
      d.puts := by
  have hreceived := h.received
  rw [hended] at hreceived
  rw [← h.program, h.flows.orderly.content, hreceived]
  simp

theorem puts_marker (d : Driver A E) : none ∈ d.puts := by simp [Driver.puts]

theorem Kept.queue (h : Kept m d s) (hended : s.ended = none)
    (hmarker : none ∈ s.current.completed) : s.current._queue ≠ [] := by
  obtain ⟨hpending, htodo⟩ := h.done hmarker
  have hleft := h.left hended
  intro hnil
  rw [hpending, htodo, hnil, List.append_nil, List.append_nil, List.append_nil] at hleft
  have hnone : none ∈ s.collected.map some := hleft ▸ puts_marker d
  simp at hnone

theorem current_captured (h : s.moved = none) : s.current = s._results := by
  rw [current, h]
  rfl

theorem current_moved {c : Results A} (h : s.moved = some c) : s.current = c := by
  rw [current, h]
  rfl

theorem driver_idle {c : Results A} (hflows : Results.Flows c) (h : Results.pending c = []) :
    c.threads .driver = .idle := by
  have hget := hflows.driver
  unfold Results.pending at h
  cases hcall : c.threads .driver with
  | idle => rfl
  | put data w =>
    rw [hcall] at h
    cases h
  | get w => exact absurd hcall (hget w)

theorem Kept.captured_got (h : Kept m d s) (hended : s.ended = none) (hmoved : s.moved = none) :
    Kept m d (State.received m s._exception s._results (s._results.got .consumer)
      { s with _results := s._results.got .consumer }) := by
  obtain ⟨r, exception, moved, place, lost, todo, collected, ended⟩ := s
  subst hended hmoved
  have hbegin : Results.Flows r := h.flows
  obtain ⟨hflows, hpending, hcompleted, hreturned⟩ := hbegin.got
  dsimp only
  have hasserted := hflows.orderly.asserted
  have hbefore : r.returned = collected.map some ++ [] := h.received
  have hprogram : (r.got .consumer).completed ++ Results.pending (r.got .consumer) ++ todo =
      d.puts := by
    rw [hpending, hcompleted]
    exact h.program
  rcases hreturned with ⟨-, hsame⟩ | ⟨res, rest, hq, hafter, hidle⟩
  · rw [received_same hasserted hsame]
    exact ⟨hflows, hprogram, hsame.trans hbefore, nofun, nofun, h.exception, h.lost, nofun⟩
  · cases res with
    | some v =>
      rw [received_value hasserted hafter]
      refine ⟨hflows, hprogram, hafter.trans ?_, nofun, nofun, h.exception, h.lost, nofun⟩
      show r.returned ++ [some v] = _
      rw [hbefore]
      simp
    | none =>
      rw [received_marker hasserted hafter]
      refine ⟨hflows, hprogram, hafter.trans ?_, fun _ => hidle, ?_, h.exception, h.lost, nofun⟩
      · show r.returned ++ [none] = _
        rw [hbefore]
        simp
      · rintro x ⟨⟩
        have hmarker : none ∈ r.completed := by
          rw [show r.completed = r.returned ++ r._queue from h.flows.orderly.content,
            show r._queue = none :: rest from hq]
          simp
        have hexception : exception = d.throws := by
          have hkept := h.exception
          rwa [if_pos (h.done hmarker).2] at hkept
        exact .inl (by rw [hexception])

theorem Kept.moved_got {r : Results A} (h : Kept m d s) (hended : s.ended = none)
    (hmoved : s.moved = some r) :
    Kept m d (State.received m none r (r.got .consumer)
      { s with moved := some (r.got .consumer) }) := by
  obtain ⟨captured, exception, moved, place, lost, todo, collected, ended⟩ := s
  subst hended hmoved
  obtain ⟨hlate, hmarker, hthreads, hconsumer⟩ := h.moved r rfl
  have hbegin : Results.Flows r := h.flows
  obtain ⟨hflows, hpending, hcompleted, hreturned⟩ := hbegin.got
  dsimp only
  have hasserted := hflows.orderly.asserted
  have hbefore : r.returned = collected.map some ++ [] := h.received
  have hprogram : (r.got .consumer).completed ++ Results.pending (r.got .consumer) ++ todo =
      d.puts := by
    rw [hpending, hcompleted]
    exact h.program
  have hafterwards : none ∈ (r.got .consumer).completed := hcompleted ▸ hmarker
  rcases hreturned with ⟨hnil, -⟩ | ⟨res, rest, hq, hafter, hidle⟩
  · exact absurd hnil (h.queue rfl hmarker)
  · have hplace : ∀ c ∈ some (r.got .consumer), none ∈ captured.completed ∧ none ∈ c.completed ∧
        captured.threads = (fun _ => .idle) ∧ c.threads .consumer = .idle := by
      rintro c ⟨⟩
      exact ⟨hlate, hafterwards, hthreads, hidle⟩
    cases res with
    | some v =>
      rw [received_value hasserted hafter]
      refine ⟨hflows, hprogram, hafter.trans ?_, nofun, nofun, h.exception, h.lost, hplace⟩
      show r.returned ++ [some v] = _
      rw [hbefore]
      simp
    | none =>
      rw [received_marker hasserted hafter]
      refine ⟨hflows, hprogram, hafter.trans ?_, fun _ => hidle, ?_, h.exception, h.lost, hplace⟩
      · show r.returned ++ [none] = _
        rw [hbefore]
        simp
      · rintro x ⟨⟩
        exact .inr ⟨rfl, rfl⟩

theorem Kept.captured_put (h : Kept m d s) (hmoved : s.moved = none) {data : Option A}
    {todo : List (Option A)}
    (hprogram : s._results.completed ++ data :: todo = d.puts)
    {exception : Option E} (hafter : exception = if todo = [] then d.throws else none) :
    Kept m d { s with _results := s._results.put .driver data, todo, _exception := exception } := by
  obtain ⟨r, before, moved, place, lost, todo', collected, ended⟩ := s
  subst hmoved
  have hbegin : Results.Flows r := h.flows
  obtain ⟨hflows, hreturned, hput⟩ := hbegin.put data
  refine ⟨hflows, ?_, hreturned.trans h.received, ?_, h.ended, hafter, h.lost, nofun⟩
  · show (r.put .driver data).completed ++ Results.pending (r.put .driver data) ++ todo = d.puts
    rw [hput, ← hprogram, List.append_assoc]
    rfl
  · intro hended
    exact Results.put_consumer (h.idle hended)

theorem moved_to_idle {c : Results A} (hflows : Results.Flows c)
    (hpending : Results.pending c = []) (hconsumer : c.threads .consumer = .idle) :
    moved_to c = c ∧ c.threads = fun _ => .idle := by
  have hthreads : c.threads = fun _ => .idle := by
    funext t
    cases t with
    | driver => exact driver_idle hflows hpending
    | consumer => exact hconsumer
  refine ⟨?_, hthreads⟩
  have hplain := hflows.plain
  obtain ⟨_, _, _, _, _, _, _, _, _, _, _, _⟩ := c
  subst hthreads hplain
  rfl

variable [DecidableEq A]

theorem Kept.step (h : Kept m d s) (hok : s.Harmless a) (hs : s.step m d a = some s') :
    Kept m d s' := by
  have hcaptured : s.moved = none → Results.Flows s._results := fun hmoved =>
    current_captured hmoved ▸ h.flows
  have hunmoved : s.todo ≠ [] → s.moved = none := fun htodo => by
    cases hmoved : s.moved with
    | none => rfl
    | some r => exact absurd (h.done (current_moved hmoved ▸ (h.moved r hmoved).2.1)).2 htodo
  cases a with
  | produce =>
    simp only [State.step] at hs
    split at hs
    · cases hs
    · next data todo htodo =>
      obtain ⟨c, hc, rfl⟩ := Option.map_eq_some_iff.1 hs
      have hne : s.todo ≠ [] := by simp [htodo]
      have hmoved := hunmoved hne
      simp only [Channel.step] at hc
      split at hc
      · next hidle =>
        cases hc
        have hpending : Results.pending s._results = [] := by
          rw [Results.pending, hidle]
          rfl
        have hprogram : s._results.completed ++ data :: todo = d.puts := by
          have hkept := h.program
          rw [current_captured hmoved, hpending, htodo, List.append_nil] at hkept
          exact hkept
        refine h.captured_put hmoved hprogram ?_
        have hexception : s._exception = none := h.exception.trans (if_neg hne)
        have hlast := d.marker_last hprogram
        rw [hexception]
        simp only [Option.isNone_iff_eq_none, hlast]
      · cases hc
  | resume_driver =>
    simp only [State.step] at hs
    obtain ⟨c, hc, rfl⟩ := Option.map_eq_some_iff.1 hs
    simp only [Channel.step] at hc
    have hmoved : s.moved = none := by
      cases hmoved : s.moved with
      | none => rfl
      | some r =>
        rw [(h.moved r hmoved).2.2.1] at hc
        cases hc
    split at hc
    · next data hcall =>
      cases hc
      refine h.captured_put hmoved ?_ h.exception
      have hkept := h.program
      rw [current_captured hmoved, Results.pending, hcall, List.append_assoc] at hkept
      exact hkept
    · next e _ => exact e.elim
    · next hcall => exact absurd hcall ((hcaptured hmoved).driver _)
    · next e _ => exact e.elim
    · cases hc
  | begin =>
    simp only [State.step, Option.ite_none_right_eq_some] at hs
    obtain ⟨-, hs⟩ := hs
    cases hs
    exact { h with }
  | consume =>
    simp only [State.step, Option.ite_none_left_eq_some, not_or, Bool.not_eq_true,
      Option.isSome_eq_false_iff, Option.isNone_iff_eq_none] at hs
    obtain ⟨⟨-, hended, -⟩, hs⟩ := hs
    cases hmoved : s.moved with
    | none =>
      simp only [hmoved] at hs
      obtain ⟨c, hc, rfl⟩ := Option.map_eq_some_iff.1 hs
      simp only [Channel.step] at hc
      split at hc
      · cases hc
        rw [Results.get_eq_got (hcaptured hmoved).plain]
        exact h.captured_got hended hmoved
      · cases hc
    | some r =>
      simp only [hmoved] at hs
      obtain ⟨c, hc, rfl⟩ := Option.map_eq_some_iff.1 hs
      simp only [Channel.step] at hc
      split at hc
      · cases hc
        rw [Results.get_eq_got (current_moved hmoved ▸ h.flows).plain]
        exact h.moved_got hended hmoved
      · cases hc
  | resume_consumer =>
    simp only [State.step] at hs
    split at hs
    · next hbusy =>
      have hmoved : s.moved = none := by
        cases hmoved : s.moved with
        | none => rfl
        | some r => exact absurd (congrFun (h.moved r hmoved).2.2.1 .consumer) hbusy
      have hended : s.ended = none := by
        rw [← Option.not_isSome_iff_eq_none]
        exact fun hended => hbusy (current_captured hmoved ▸ h.idle hended)
      obtain ⟨c, hc, rfl⟩ := Option.map_eq_some_iff.1 hs
      simp only [Channel.step] at hc
      split at hc
      · next hcall => exact absurd hcall ((hcaptured hmoved).consumer _ _)
      · next e _ => exact e.elim
      · cases hc
        exact h.captured_got hended hmoved
      · next e _ => exact e.elim
      · cases hc
    · obtain ⟨r, hmoved, hs⟩ := Option.bind_eq_some_iff.1 hs
      obtain ⟨c, hc, -⟩ := Option.map_eq_some_iff.1 hs
      rw [Channel.step, (h.moved r hmoved).2.2.2] at hc
      cases hc
  | move =>
    obtain ⟨r, exception, moved, place, lost, todo, collected, ended⟩ := s
    cases place with
    | left =>
      cases hs
      exact h
    | iterator =>
      obtain ⟨hnil, hfree⟩ := hok
      cases moved with
      | none =>
        cases hs
        have hflows : Results.Flows r := h.flows
        have hidle : r.threads .consumer = .idle := not_not.1 fun hbusy => hfree (.inl hbusy)
        refine { h with flows := hflows.moved_from hnil hidle, moved := ?_ }
        rintro c ⟨⟩
      | some r' =>
        cases hs
        have hflows : Results.Flows r' := h.flows
        obtain ⟨hlate, hmarker, hthreads, hidle⟩ := h.moved r' rfl
        refine { h with flows := hflows.moved_from hnil hidle, moved := ?_ }
        rintro c ⟨⟩
        exact ⟨hlate, hmarker, hthreads, hidle⟩
    | generator =>
      obtain ⟨hmarker, hfree⟩ := hok
      cases moved with
      | none =>
        cases hs
        have hflows : Results.Flows r := h.flows
        have hconsumer : r.threads .consumer = .idle := not_not.1 fun hbusy => hfree (.inl hbusy)
        obtain ⟨hsame, hthreads⟩ := moved_to_idle hflows (h.done hmarker).1 hconsumer
        rw [hsame]
        refine ⟨hflows, h.program, h.received, fun _ => hconsumer, ?_, h.exception, h.lost, ?_⟩
        · intro x hx
          rcases h.ended x hx with heq | ⟨hnot, -⟩
          · exact .inl heq
          · cases hnot
        · rintro c ⟨⟩
          exact ⟨hmarker, hmarker, hthreads, hconsumer⟩
      | some r' =>
        cases hs
        obtain ⟨hlate, hmarker', hthreads, hconsumer⟩ := h.moved r' rfl
        have hflows : Results.Flows r' := h.flows
        obtain ⟨hsame, -⟩ := moved_to_idle hflows (h.done hmarker').1 hconsumer
        have hlost : lost = false := h.lost
        rw [hsame]
        refine ⟨hflows, h.program, h.received, fun _ => hconsumer, h.ended, h.exception, ?_, ?_⟩
        · simp [hlost, hconsumer]
        · rintro c ⟨⟩
          exact ⟨hlate, hmarker', hthreads, hconsumer⟩

end State

end elle.reactor.generator
