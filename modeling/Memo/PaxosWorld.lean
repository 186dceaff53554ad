-- Servers and clients together. A client makes its calls on all the peers at
-- once; each call is executed by its server at some later time, or never, and
-- its reply comes back at some later time, or never: the client then takes the
-- peer for unavailable. A call may be executed after the client gave it up, and
-- a client that takes no more steps has crashed.
import Memo.PaxosClient
import Memo.Runs

namespace athena.paxos

/-! ## The state of the system -/

structure Client (Id : Type) where
  id : Id
  peers : List Id
  round : Int

/-- A call of attempt `attempt` of task `task` on a peer, and its reply once it was executed. -/
structure Call (T Id : Type) where
  task : Nat
  attempt : Nat
  peer : Id
  request : Request T Id
  reply : Option (Except (Error Id) (Answer T Id))

/-- Where a `choose` stands. The peers that answered are kept with their answers. -/
inductive Phase (T Id : Type) where
  | proposing (responses : List (Id × Response T Id))
  | accepting (reached : List Id)
  | conflicted
  | confirming (reached : List Id)
  | returned (choice : Choice T Id)
  | failed (e : Error Id)

/-- The local variables of a `choose` in progress. `waiting` are the peers that have not answered
the current calls, each with its call. -/
structure Choose (T Id : Type) where
  client : Nat
  attempt : Nat
  value : Value T Id
  version : Int
  proposal : Proposal Id
  replace : Option (Value T Id)
  unavailables : List Id
  weak_error : Option (Error Id)
  waiting : List (Id × Nat)
  phase : Phase T Id

/-- The local variables of a `state` in progress, and its outcome. -/
structure Read (T Id : Type) where
  client : Nat
  waiting : List (Id × Nat)
  gathered : Gathered T Id
  outcome : Option (Except (Error Id) (State T Id))

inductive Task (T Id : Type) where
  | choose (run : Choose T Id)
  | state (read : Read T Id)

structure World (T Id : Type) where
  servers : Id → Server T Id
  clients : Nat → Client Id
  tasks : Nat → Option (Task T Id)
  calls : List (Call T Id)

inductive Action (T Id : Type) where
  /-- Task `k` starts: `choose` of client `c`. -/
  | choose (k c : Nat) (version : Int) (value : Value T Id)
  /-- Task `k` starts: `state` of client `c`. -/
  | state (k c : Nat)
  /-- The server executes call `i`. -/
  | deliver (i : Nat)
  /-- The reply of peer `s` comes back to task `k`. -/
  | receive (k : Nat) (s : Id)
  /-- The call of task `k` on peer `s` is lost. -/
  | unavailable (k : Nat) (s : Id)
  /-- The call of task `k` on peer `s` ends with a `WeakError`. -/
  | weak_error (k : Nat) (s : Id) (e : Error Id)
  /-- Task `k` goes on after its calls, or after its backoff. -/
  | advance (k : Nat)

variable {T Id : Type} [LinearOrder Id] [Inhabited Id]

/-! ## One `choose` -/

namespace Choose

/-- A run before its first attempt. -/
def start (client : Nat) (version : Int) (value : Value T Id) : Choose T Id where
  client := client
  attempt := 0
  value := value
  version := version
  proposal := ⟨version, 0, default⟩
  replace := none
  unavailables := []
  weak_error := none
  waiting := []
  phase := .conflicted

/-- The value that the run submits. -/
def submitted (run : Choose T Id) : Value T Id := run.replace.getD run.value

/-- The run after the answer of a peer, or after its loss. -/
def without (run : Choose T Id) (s : Id) : Choose T Id :=
  { run with waiting := run.waiting.filter (·.1 ≠ s) }

/-- An answer comes back. An exception ends the run, and a higher promise ends the calls of the
accept phase; the round of the client is set then. -/
def receive (run : Choose T Id) (round : Int) (s : Id) :
    Except (Error Id) (Answer T Id) → Choose T Id × Int
  | .error e => ({ run with waiting := [], phase := .failed e }, round)
  | .ok answer =>
    match run.phase, answer with
    | .proposing responses, .response r =>
      ({ run.without s with phase := .proposing (responses ++ [(s, r)]) }, round)
    | .accepting reached, .minimum minimum =>
      if run.proposal < minimum then
        ({ run with version := minimum.version, waiting := [], phase := .conflicted },
          minimum.round)
      else ({ run.without s with phase := .accepting (reached ++ [s]) }, round)
    | .confirming reached, .confirmed =>
      ({ run.without s with phase := .confirming (reached ++ [s]) }, round)
    -- the answer is always of the kind of the call
    | _, _ => (run.without s, round)

omit [Inhabited Id] in
theorem receive_keeps (run : Choose T Id) (round : Int) (s : Id)
    (reply : Except (Error Id) (Answer T Id)) :
    (run.receive round s reply).1.value = run.value ∧
      (run.receive round s reply).1.replace = run.replace := by
  unfold receive
  split
  · exact ⟨rfl, rfl⟩
  · split
    · exact ⟨rfl, rfl⟩
    · split <;> exact ⟨rfl, rfl⟩
    · exact ⟨rfl, rfl⟩
    · exact ⟨rfl, rfl⟩

def unavailable (run : Choose T Id) (s : Id) : Choose T Id :=
  { run.without s with unavailables := s :: run.unavailables }

def weakened (run : Choose T Id) (s : Id) (e : Error Id) : Choose T Id :=
  { run.unavailable s with weak_error := run.weak_error.or (some e) }

end Choose

namespace Read

def without (read : Read T Id) (s : Id) : Read T Id :=
  { read with waiting := read.waiting.filter (·.1 ≠ s) }

def receive (read : Read T Id) (s : Id) : Except (Error Id) (Answer T Id) → Read T Id
  | .ok (.current a) =>
    match read.gathered.answered s (.ok a) with
    | .ok gathered => { read.without s with gathered }
    | .error e => { read with waiting := [], outcome := some (.error e) }
  | .ok _ => read.without s
  | .error e =>
    match read.gathered.answered s (.error e) with
    | .ok gathered => { read.without s with gathered }
    | .error e => { read with waiting := [], outcome := some (.error e) }

def weakened (read : Read T Id) (s : Id) (e : Error Id) : Read T Id :=
  { read.without s with gathered := read.gathered.weakened e }

end Read

/-! ## The steps -/

namespace World

def setTask (w : World T Id) (k : Nat) (task : Task T Id) : World T Id :=
  { w with tasks := Function.update w.tasks k (some task) }

def setRound (w : World T Id) (c : Nat) (round : Int) : World T Id :=
  { w with clients := Function.update w.clients c { w.clients c with round } }

/-- The quorum that a client presents: the ids of its peers. -/
def quorumOf (w : World T Id) (c : Nat) : Finset Id := (w.clients c).peers.toFinset

/-- The calls of a parallel section: the same request to each peer. -/
def callsOf (k attempt : Nat) (peers : List Id) (request : Request T Id) : List (Call T Id) :=
  peers.map fun s => ⟨k, attempt, s, request, none⟩

/-- The peers of a parallel section, each with its call. -/
def waitingFor (w : World T Id) (peers : List Id) : List (Id × Nat) := peers.zipIdx w.calls.length

/-- Makes the calls of task `k`, which then is the given task. -/
def launch (w : World T Id) (k attempt : Nat) (peers : List Id) (request : Request T Id)
    (task : Task T Id) : World T Id :=
  { w.setTask k task with calls := w.calls ++ callsOf k attempt peers request }

/-- A new attempt of a run, in the next round of the client. -/
def attempt (w : World T Id) (k : Nat) (run : Choose T Id) : World T Id :=
  let client := w.clients run.client
  let proposal := ⟨run.version, client.round + 1, client.id⟩
  (w.setRound run.client (client.round + 1)).launch k (run.attempt + 1) client.peers
    (.propose (w.quorumOf run.client) proposal)
    (.choose { run with
      attempt := run.attempt + 1, proposal, unavailables := [], weak_error := none
      waiting := w.waitingFor client.peers, phase := .proposing [] })

/-- The peers that the run did not find unavailable in this attempt. -/
def available (w : World T Id) (run : Choose T Id) : List Id :=
  (w.clients run.client).peers.filter (· ∉ run.unavailables)

/-- The calls of the accept phase. -/
def accept (w : World T Id) (k : Nat) (run : Choose T Id) : World T Id :=
  let peers := w.available run
  w.launch k run.attempt peers
    (.accept (w.quorumOf run.client) run.proposal run.submitted)
    (.choose { run with
      weak_error := none, waiting := w.waitingFor peers, phase := .accepting [] })

/-- The calls of the confirm phase. -/
def confirm (w : World T Id) (k : Nat) (run : Choose T Id) : World T Id :=
  let peers := w.available run
  w.launch k run.attempt peers (.confirm (w.quorumOf run.client) run.proposal)
    (.choose { run with
      weak_error := none, waiting := w.waitingFor peers, phase := .confirming [] })

def setPhase (w : World T Id) (k : Nat) (run : Choose T Id) (phase : Phase T Id) : World T Id :=
  w.setTask k (.choose { run with phase })

/-- The run goes on once no call is pending. -/
def advance (w : World T Id) (k : Nat) (run : Choose T Id) : Option (World T Id) :=
  let q := w.quorumOf run.client
  match run.phase with
  | .proposing responses =>
    match weigh q run.proposal run.replace run.weak_error (responses.map (·.2)) with
    | .chosen choice => some (w.setPhase k run (.returned choice))
    | .raise e => some (w.setPhase k run (.failed e))
    | .retry version round replace =>
      some ((w.setRound run.client round).attempt k { run with version, replace })
    | .accept replace => some (w.accept k { run with replace })
  | .accepting reached =>
    match check_headcount q reached.length run.weak_error false with
    | .error e => some (w.setPhase k run (.failed e))
    | .ok () => some (w.confirm k run)
  | .conflicted => some (w.attempt k run)
  | .confirming reached =>
    match check_headcount q reached.length run.weak_error false with
    | .error e => some (w.setPhase k run (.failed e))
    | .ok () => some (w.setPhase k run (.returned ⟨run.proposal, run.replace⟩))
  | .returned _ => none
  | .failed _ => none

/-- The calls of `state`. -/
def read (w : World T Id) (k c : Nat) : World T Id :=
  let peers := (w.clients c).peers
  w.launch k 0 peers (.get (w.quorumOf c)) (.state ⟨c, w.waitingFor peers, Gathered.empty, none⟩)

/-- The server of call `i` executes it. -/
def deliver (w : World T Id) (i : Nat) (call : Call T Id) : World T Id :=
  let result := (w.servers call.peer).handle call.request
  { w with
    servers := Function.update w.servers call.peer result.2
    calls := w.calls.set i { call with reply := some result.1 } }

/-- The reply to the pending call on peer `s`. -/
def replyTo (w : World T Id) (waiting : List (Id × Nat)) (s : Id) :
    Option (Except (Error Id) (Answer T Id)) :=
  (waiting.find? (·.1 = s)).bind fun wait => (w.calls[wait.2]?).bind (·.reply)

def step (w : World T Id) : Action T Id → Option (World T Id)
  | .choose k c version value =>
    match w.tasks k with
    | some _ => none
    | none => some (w.attempt k (Choose.start c version value))
  | .state k c =>
    match w.tasks k with
    | some _ => none
    | none => some (w.read k c)
  | .deliver i =>
    match w.calls[i]? with
    | some call => if call.reply.isSome then none else some (w.deliver i call)
    | none => none
  | .receive k s =>
    match w.tasks k with
    | some (.choose run) =>
      (w.replyTo run.waiting s).map fun reply =>
        let next := run.receive (w.clients run.client).round s reply
        (w.setRound run.client next.2).setTask k (.choose next.1)
    | some (.state read) =>
      (w.replyTo read.waiting s).map fun reply => w.setTask k (.state (read.receive s reply))
    | none => none
  | .unavailable k s =>
    match w.tasks k with
    | some (.choose run) =>
      if s ∈ run.waiting.map (·.1) then some (w.setTask k (.choose (run.unavailable s))) else none
    | some (.state read) =>
      if s ∈ read.waiting.map (·.1) then some (w.setTask k (.state (read.without s))) else none
    | none => none
  | .weak_error k s e =>
    match w.tasks k with
    | some (.choose run) =>
      if s ∈ run.waiting.map (·.1) then some (w.setTask k (.choose (run.weakened s e))) else none
    | some (.state read) =>
      if s ∈ read.waiting.map (·.1) then some (w.setTask k (.state (read.weakened s e))) else none
    | none => none
  | .advance k =>
    match w.tasks k with
    | some (.choose run) => if run.waiting = [] then w.advance k run else none
    | some (.state read) =>
      if read.waiting = [] ∧ read.outcome.isNone then
        some (w.setTask k (.state { read with
          outcome := some (read.gathered.finish (w.quorumOf read.client)) }))
      else none
    | none => none

/-- What a condition on the runs says of a task. -/
def ofChoose (f : Choose T Id → Bool) : Option (Task T Id) → Bool
  | some (.choose run) => f run
  | _ => true

omit [LinearOrder Id] [Inhabited Id] in
theorem tasks_setTask {w w' : World T Id} {k k' : Nat} {t task : Task T Id}
    (h : w'.tasks = (w.setTask k' task).tasks) (ht : w'.tasks k = some t) :
    k = k' ∧ t = task ∨ k ≠ k' ∧ w.tasks k = some t := by
  rw [h] at ht
  simp only [setTask, Function.update_apply] at ht
  split_ifs at ht with hk
  · cases ht
    exact Or.inl ⟨hk, rfl⟩
  · exact Or.inr ⟨hk, ht⟩

/-! ## What a step can do -/

inductive Stepped (w : World T Id) : Action T Id → World T Id → Prop
  | choose {k c : Nat} {version : Int} {value : Value T Id} (hk : w.tasks k = none) :
      Stepped w (.choose k c version value) (w.attempt k (Choose.start c version value))
  | state {k c : Nat} (hk : w.tasks k = none) : Stepped w (.state k c) (w.read k c)
  | deliver {i : Nat} {call : Call T Id} (hi : w.calls[i]? = some call)
      (hr : call.reply = none) : Stepped w (.deliver i) (w.deliver i call)
  | receive {k : Nat} {s : Id} {run : Choose T Id} {reply : Except (Error Id) (Answer T Id)}
      (hk : w.tasks k = some (.choose run)) (hr : w.replyTo run.waiting s = some reply) :
      Stepped w (.receive k s)
        ((w.setRound run.client (run.receive (w.clients run.client).round s reply).2).setTask k
          (.choose (run.receive (w.clients run.client).round s reply).1))
  | unavailable {k : Nat} {s : Id} {run : Choose T Id} (hk : w.tasks k = some (.choose run))
      (hs : s ∈ run.waiting.map (·.1)) :
      Stepped w (.unavailable k s) (w.setTask k (.choose (run.unavailable s)))
  | weak_error {k : Nat} {s : Id} {e : Error Id} {run : Choose T Id}
      (hk : w.tasks k = some (.choose run)) (hs : s ∈ run.waiting.map (·.1)) :
      Stepped w (.weak_error k s e) (w.setTask k (.choose (run.weakened s e)))
  | chosen {k : Nat} {run : Choose T Id} {responses : List (Id × Response T Id)}
      {choice : Choice T Id} (hk : w.tasks k = some (.choose run)) (hw : run.waiting = [])
      (hp : run.phase = .proposing responses)
      (hv : weigh (w.quorumOf run.client) run.proposal run.replace run.weak_error
        (responses.map (·.2)) = .chosen choice) :
      Stepped w (.advance k) (w.setPhase k run (.returned choice))
  | failed {k : Nat} {run : Choose T Id} {e : Error Id} (hk : w.tasks k = some (.choose run))
      (hw : run.waiting = []) : Stepped w (.advance k) (w.setPhase k run (.failed e))
  | retry {k : Nat} {run : Choose T Id} {responses : List (Id × Response T Id)}
      {version round : Int} {replace : Option (Value T Id)}
      (hk : w.tasks k = some (.choose run)) (hw : run.waiting = [])
      (hp : run.phase = .proposing responses)
      (hv : weigh (w.quorumOf run.client) run.proposal run.replace run.weak_error
        (responses.map (·.2)) = .retry version round replace) :
      Stepped w (.advance k)
        ((w.setRound run.client round).attempt k { run with version, replace })
  | accept {k : Nat} {run : Choose T Id} {responses : List (Id × Response T Id)}
      {replace : Option (Value T Id)} (hk : w.tasks k = some (.choose run))
      (hw : run.waiting = []) (hp : run.phase = .proposing responses)
      (hv : weigh (w.quorumOf run.client) run.proposal run.replace run.weak_error
        (responses.map (·.2)) = .accept replace) :
      Stepped w (.advance k) (w.accept k { run with replace })
  | resume {k : Nat} {run : Choose T Id} (hk : w.tasks k = some (.choose run))
      (hw : run.waiting = []) (hp : run.phase = .conflicted) :
      Stepped w (.advance k) (w.attempt k run)
  | confirm {k : Nat} {run : Choose T Id} {reached : List Id}
      (hk : w.tasks k = some (.choose run)) (hw : run.waiting = [])
      (hp : run.phase = .accepting reached)
      (hc : (w.quorumOf run.client).card / 2 < reached.length) :
      Stepped w (.advance k) (w.confirm k run)
  | returned {k : Nat} {run : Choose T Id} {reached : List Id}
      (hk : w.tasks k = some (.choose run)) (hw : run.waiting = [])
      (hp : run.phase = .confirming reached)
      (hc : (w.quorumOf run.client).card / 2 < reached.length) :
      Stepped w (.advance k) (w.setPhase k run (.returned ⟨run.proposal, run.replace⟩))
  | read_receive {k : Nat} {s : Id} {read : Read T Id} {reply : Except (Error Id) (Answer T Id)}
      (hk : w.tasks k = some (.state read)) (hr : w.replyTo read.waiting s = some reply) :
      Stepped w (.receive k s) (w.setTask k (.state (read.receive s reply)))
  | read_unavailable {k : Nat} {s : Id} {read : Read T Id} (hk : w.tasks k = some (.state read))
      (hs : s ∈ read.waiting.map (·.1)) :
      Stepped w (.unavailable k s) (w.setTask k (.state (read.without s)))
  | read_weak_error {k : Nat} {s : Id} {e : Error Id} {read : Read T Id}
      (hk : w.tasks k = some (.state read)) (hs : s ∈ read.waiting.map (·.1)) :
      Stepped w (.weak_error k s e) (w.setTask k (.state (read.weakened s e)))
  | read_finish {k : Nat} {read : Read T Id} (hk : w.tasks k = some (.state read))
      (hw : read.waiting = []) (ho : read.outcome = none) :
      Stepped w (.advance k) (w.setTask k (.state { read with
        outcome := some (read.gathered.finish (w.quorumOf read.client)) }))

theorem advance_cases {w w' : World T Id} {k : Nat} {run : Choose T Id}
    (hk : w.tasks k = some (.choose run)) (hw : run.waiting = [])
    (h : w.advance k run = some w') : Stepped w (.advance k) w' := by
  unfold advance at h
  simp only at h
  cases hp : run.phase with
  | proposing responses =>
    simp only [hp] at h
    cases hv : weigh (w.quorumOf run.client) run.proposal run.replace run.weak_error
        (responses.map (·.2)) with
    | chosen choice =>
      simp only [hv, Option.some.injEq] at h
      exact h ▸ Stepped.chosen hk hw hp hv
    | raise e =>
      simp only [hv, Option.some.injEq] at h
      exact h ▸ Stepped.failed hk hw
    | retry version round replace =>
      simp only [hv, Option.some.injEq] at h
      exact h ▸ Stepped.retry hk hw hp hv
    | accept replace =>
      simp only [hv, Option.some.injEq] at h
      exact h ▸ Stepped.accept hk hw hp hv
  | accepting reached =>
    simp only [hp] at h
    cases hc : check_headcount (w.quorumOf run.client) reached.length run.weak_error false with
    | error e =>
      simp only [hc, Option.some.injEq] at h
      exact h ▸ Stepped.failed hk hw
    | ok u =>
      simp only [hc, Option.some.injEq] at h
      exact h ▸ Stepped.confirm hk hw hp (by simpa using check_headcount_ok hc)
  | conflicted =>
    simp only [hp, Option.some.injEq] at h
    exact h ▸ Stepped.resume hk hw hp
  | confirming reached =>
    simp only [hp] at h
    cases hc : check_headcount (w.quorumOf run.client) reached.length run.weak_error false with
    | error e =>
      simp only [hc, Option.some.injEq] at h
      exact h ▸ Stepped.failed hk hw
    | ok u =>
      simp only [hc, Option.some.injEq] at h
      exact h ▸ Stepped.returned hk hw hp (by simpa using check_headcount_ok hc)
  | returned c => simp [hp] at h
  | failed e => simp [hp] at h

theorem step_cases {w w' : World T Id} {a : Action T Id} (h : w.step a = some w') :
    Stepped w a w' := by
  cases a with
  | choose k c version value =>
    cases hk : w.tasks k with
    | some t => simp [step, hk] at h
    | none =>
      simp only [step, hk, Option.some.injEq] at h
      exact h ▸ Stepped.choose hk
  | state k c =>
    cases hk : w.tasks k with
    | some t => simp [step, hk] at h
    | none =>
      simp only [step, hk, Option.some.injEq] at h
      exact h ▸ Stepped.state hk
  | deliver i =>
    cases hi : w.calls[i]? with
    | none => simp [step, hi] at h
    | some call =>
      simp only [step, hi] at h
      split_ifs at h with hr
      simp only [Option.some.injEq] at h
      exact h ▸ Stepped.deliver hi (by simpa using hr)
  | receive k s =>
    cases hk : w.tasks k with
    | none => simp [step, hk] at h
    | some t =>
      cases t with
      | choose run =>
        simp only [step, hk, Option.map_eq_some_iff] at h
        obtain ⟨reply, hr, rfl⟩ := h
        exact Stepped.receive hk hr
      | state read =>
        simp only [step, hk, Option.map_eq_some_iff] at h
        obtain ⟨reply, hr, rfl⟩ := h
        exact Stepped.read_receive hk hr
  | unavailable k s =>
    cases hk : w.tasks k with
    | none => simp [step, hk] at h
    | some t =>
      cases t with
      | choose run =>
        simp only [step, hk, Option.ite_none_right_eq_some, Option.some.injEq] at h
        exact h.2 ▸ Stepped.unavailable hk h.1
      | state read =>
        simp only [step, hk, Option.ite_none_right_eq_some, Option.some.injEq] at h
        exact h.2 ▸ Stepped.read_unavailable hk h.1
  | weak_error k s e =>
    cases hk : w.tasks k with
    | none => simp [step, hk] at h
    | some t =>
      cases t with
      | choose run =>
        simp only [step, hk, Option.ite_none_right_eq_some, Option.some.injEq] at h
        exact h.2 ▸ Stepped.weak_error hk h.1
      | state read =>
        simp only [step, hk, Option.ite_none_right_eq_some, Option.some.injEq] at h
        exact h.2 ▸ Stepped.read_weak_error hk h.1
  | advance k =>
    cases hk : w.tasks k with
    | none => simp [step, hk] at h
    | some t =>
      cases t with
      | choose run =>
        simp only [step, hk] at h
        split_ifs at h with hw
        exact advance_cases hk hw h
      | state read =>
        simp only [step, hk] at h
        split_ifs at h with hw
        simp only [Option.some.injEq] at h
        exact h ▸ Stepped.read_finish hk hw.1 (by simpa using hw.2)

/-! ## What a step does to a run -/

/-- The run at the start of an attempt. -/
def renewed (run : Choose T Id) (proposal : Proposal Id) (waiting : List (Id × Nat)) :
    Choose T Id :=
  { run with
    attempt := run.attempt + 1, proposal, unavailables := [], weak_error := none
    waiting, phase := .proposing [] }

/-- The run at the start of its accept phase, or of its confirm phase. -/
def entered (run : Choose T Id) (waiting : List (Id × Nat)) (phase : Phase T Id) : Choose T Id :=
  { run with weak_error := none, waiting, phase }

inductive RunStepped (w : World T Id) (k : Nat) (run : Choose T Id) :
    Action T Id → Choose T Id → Prop
  | same {a : Action T Id} (ha : a ≠ .advance k) : RunStepped w k run a run
  | receive {s : Id} {round : Int} {reply : Except (Error Id) (Answer T Id)}
      (hr : w.replyTo run.waiting s = some reply) :
      RunStepped w k run (.receive k s) (run.receive round s reply).1
  | unavailable {s : Id} : RunStepped w k run (.unavailable k s) (run.unavailable s)
  | weak_error {s : Id} {e : Error Id} :
      RunStepped w k run (.weak_error k s e) (run.weakened s e)
  | chosen {responses : List (Id × Response T Id)} {choice : Choice T Id}
      (hw : run.waiting = []) (hp : run.phase = .proposing responses)
      (hv : weigh (w.quorumOf run.client) run.proposal run.replace run.weak_error
        (responses.map (·.2)) = .chosen choice) :
      RunStepped w k run (.advance k) { run with phase := .returned choice }
  | failed {e : Error Id} : RunStepped w k run (.advance k) { run with phase := .failed e }
  | retry {responses : List (Id × Response T Id)} {version round : Int} {proposal : Proposal Id}
      {replace : Option (Value T Id)} {waiting : List (Id × Nat)}
      (hp : run.phase = .proposing responses)
      (hv : weigh (w.quorumOf run.client) run.proposal run.replace run.weak_error
        (responses.map (·.2)) = .retry version round replace)
      (hver : proposal.version = version) :
      RunStepped w k run (.advance k)
        (renewed { run with version, replace } proposal waiting)
  | accept {responses : List (Id × Response T Id)} {replace : Option (Value T Id)}
      {waiting : List (Id × Nat)} (hp : run.phase = .proposing responses)
      (hv : weigh (w.quorumOf run.client) run.proposal run.replace run.weak_error
        (responses.map (·.2)) = .accept replace) :
      RunStepped w k run (.advance k) (entered { run with replace } waiting (.accepting []))
  | resume {proposal : Proposal Id} {waiting : List (Id × Nat)}
      (hver : proposal.version = run.version) :
      RunStepped w k run (.advance k) (renewed run proposal waiting)
  | confirm {waiting : List (Id × Nat)} :
      RunStepped w k run (.advance k) (entered run waiting (.confirming []))
  | returned {reached : List Id} (hw : run.waiting = []) (hp : run.phase = .confirming reached)
      (hc : (w.quorumOf run.client).card / 2 < reached.length) :
      RunStepped w k run (.advance k)
        { run with phase := .returned ⟨run.proposal, run.replace⟩ }

theorem run_cases {w w' : World T Id} {a : Action T Id} {k : Nat} {run' : Choose T Id}
    (hs : Stepped w a w') (hk : w'.tasks k = some (.choose run')) :
    (∃ run, w.tasks k = some (.choose run) ∧ RunStepped w k run a run') ∨
      w.tasks k = none ∧ ∃ c version value proposal waiting, a = .choose k c version value ∧
        proposal.version = version ∧
        run' = renewed (Choose.start c version value) proposal waiting := by
  -- the step changes this run, or another task
  have hset : ∀ {k' : Nat} {run₁ run₂ : Choose T Id},
      w'.tasks = (w.setTask k' (.choose run₂)).tasks → w.tasks k' = some (.choose run₁) →
      (∀ j, a = .advance j → k' = j) → RunStepped w k' run₁ a run₂ →
      ∃ run, w.tasks k = some (.choose run) ∧ RunStepped w k run a run' := by
    intro k' run₁ run₂ ht hk' ha hrun
    rcases tasks_setTask ht hk with ⟨rfl, htask⟩ | ⟨hne, hk⟩
    · cases htask
      exact ⟨run₁, hk', hrun⟩
    · exact ⟨run', hk, .same fun h => hne (ha k h).symm⟩
  have hread : ∀ {k' : Nat} {read : Read T Id}, w'.tasks = (w.setTask k' (.state read)).tasks →
      (∀ j, a = .advance j → k' = j) →
      ∃ run, w.tasks k = some (.choose run) ∧ RunStepped w k run a run' := by
    intro k' read ht ha
    rcases tasks_setTask ht hk with ⟨-, htask⟩ | ⟨hne, hk⟩
    · cases htask
    · exact ⟨run', hk, .same fun h => hne (ha k h).symm⟩
  cases hs with
  | @choose k' c version value hnone =>
    rcases tasks_setTask rfl hk with ⟨rfl, htask⟩ | ⟨-, hk⟩
    · cases htask
      exact Or.inr ⟨hnone, c, version, value, _, _, rfl, rfl, rfl⟩
    · exact Or.inl ⟨run', hk, .same (by simp)⟩
  | state hnone => exact Or.inl (hread rfl (by simp))
  | deliver hi hr => exact Or.inl ⟨run', hk, .same (by simp)⟩
  | receive hk' hr => exact Or.inl (hset rfl hk' (by simp) (.receive hr))
  | unavailable hk' hm => exact Or.inl (hset rfl hk' (by simp) .unavailable)
  | weak_error hk' hm => exact Or.inl (hset rfl hk' (by simp) .weak_error)
  | chosen hk' hw hp hv => exact Or.inl (hset rfl hk' (by simp) (.chosen hw hp hv))
  | failed hk' hw => exact Or.inl (hset rfl hk' (by simp) .failed)
  | retry hk' hw hp hv => exact Or.inl (hset rfl hk' (by simp) (.retry hp hv rfl))
  | accept hk' hw hp hv => exact Or.inl (hset rfl hk' (by simp) (.accept hp hv))
  | resume hk' hw hp => exact Or.inl (hset rfl hk' (by simp) (.resume rfl))
  | confirm hk' hw hp hc => exact Or.inl (hset rfl hk' (by simp) .confirm)
  | returned hk' hw hp hc => exact Or.inl (hset rfl hk' (by simp) (.returned hw hp hc))
  | read_receive hk' hr => exact Or.inl (hread rfl (by simp))
  | read_unavailable hk' hm => exact Or.inl (hread rfl (by simp))
  | read_weak_error hk' hm => exact Or.inl (hread rfl (by simp))
  | read_finish hk' hw ho => exact Or.inl (hread rfl (by simp))

end World

end athena.paxos
