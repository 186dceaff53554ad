-- The calls of a remote peer, as `Remote::safe_perform` makes them. A call
-- waits for the connection and runs its operation, again after each network
-- error, until it has an answer or one of two delays is over. Which delay it
-- was is found by comparing them, and the error to report is set and cleared
-- by the handlers of the connection.
import Memo.Runs

open runs

namespace memo.RemoteCall

/-! ## The remote peer -/

/-- `elle::reactor::network::Error` and its subclasses. -/
inductive NetworkError where
  | time_out
  | connection_refused
  | connection_closed
  | error
deriving DecidableEq

/-- How an operation ends. -/
inductive Outcome (V E : Type) where
  | value (v : V)
  | network (e : NetworkError)
  | end_of_stream
  | other (e : E)
deriving DecidableEq

/-- How `safe_perform` ends, the failure of its assertion included. -/
inductive Answer (V E : Type) where
  | value (v : V)
  | network (e : NetworkError)
  | other (e : E)
  | assertion
deriving DecidableEq

/-- `Dock::Connection`. Its thread runs until the connection fails, falls or is terminated. -/
structure Connection where
  connected : Bool := false
  disconnected : Bool := false
  disconnected_since : Int
  disconnected_exception : Option NetworkError := none
  running : Bool := true
deriving DecidableEq

/-- Where the call is. It has both delays, as it computed them, once it waits. -/
inductive Phase (V E : Type) where
  | idle
  /-- In `reconnect`, until the thread of the connection is done. -/
  | reconnecting
  | waiting (rpc_timeout_delay soft_fail_delay deadline : Int)
  /-- The wait is over, or throws. -/
  | woken (rpc_timeout_delay soft_fail_delay : Int) (e : Option NetworkError)
  | running (rpc_timeout_delay soft_fail_delay : Int) (retry : Bool)
  | ended (a : Answer V E)
deriving DecidableEq

/-- What happened last to the connection: the barrier opened, a reconnection replaced a connection
that had been established and had ended so, or the timer of a call that ran fired. -/
inductive Event where
  | opened
  | replaced (disconnected_exception : Option NetworkError)
  | soft_timeout
deriving DecidableEq

/-- The timeouts of the network, and whether a call that runs has a timer. -/
structure Config where
  connect_timeout : Int
  soft_fail_timeout : Int
  soft_fail_running : Bool

/-- The remote peer and one call on it. `opened` and `exception` are those of `_connected`, and
`reconnecting` counts the other calls that are in `reconnect`. The last fields tell what happened:
to the connection, when the attempt to connect began that the call last saw and how long it took to
read the clock again then, how the operation ended, whether a wait was too long and whether the
operation was started after that. -/
structure State (V E : Type) where
  now : Int
  connection : Connection
  opened : Bool
  exception : Option NetworkError := none
  _connecting_since : Int
  _disconnected_exception : Option NetworkError := none
  reconnecting : Nat := 0
  rpc_start : Int := 0
  phase : Phase V E := .idle
  event : Option Event := none
  attempt : Int := 0
  lag : Nat := 0
  outcome : Option (Outcome V E) := none
  timed_out : Bool := false
  restarted : Bool := false
deriving DecidableEq

variable {V E : Type}

/-- `Remote::Remote`. -/
def State.make (now : Int) (connection : Connection) : State V E where
  now
  connection
  opened := connection.connected && !connection.disconnected
  _connecting_since := now

/-! ## The barrier of the connection -/

/-- A thread that waits is woken with the exception of the barrier. -/
def Phase.wake (e : Option NetworkError) : Phase V E → Phase V E
  | .waiting rpc soft _ => .woken rpc soft e
  | p => p

/-- `Barrier::open`, and the handler of `changed`. -/
def State.open (s : State V E) : State V E :=
  if s.opened then { s with exception := none }
  else { s with
    opened := true
    _disconnected_exception := none
    event := some .opened
    phase := s.phase.wake s.exception
    exception := none }

/-- `Barrier::close`. -/
def State.close (s : State V E) : State V E :=
  if s.opened then { s with opened := false, exception := none } else s

/-- `Barrier::raise`. -/
def State.raise (s : State V E) (e : NetworkError) : State V E :=
  { ({ s with exception := some e } : State V E).open with exception := some e }

/-- `Barrier::clear_exception`. -/
def State.clear_exception (s : State V E) : State V E := if s.exception.isSome then s.close else s

/-! ## The connection -/

/-- `Dock::Connection::disconnect` finds a thread to terminate. -/
def Connection.live (c : Connection) : Bool := !c.disconnected && c.running

/-- `Dock::Connection::disconnect`, once the thread of the connection is done. -/
def State.disconnect (s : State V E) : State V E :=
  if s.connection.live then
    if s.connection.connected then
      { s with connection := { s.connection with
        disconnected := true
        disconnected_since := s.now
        running := false } }.close
    else { s with connection := { s.connection with running := false } }
  else s

/-- `Remote::connection`. -/
def State.connect (s : State V E) (c : Connection) : State V E :=
  let s := { s with connection := c }
  if c.connected && !c.disconnected then if s.opened then s else s.open
  else s.close

/-- `Remote::reconnect` after `disconnect`. -/
def State.renew (s : State V E) : State V E :=
  let s := if s.connection.connected then
    { s with _disconnected_exception := s.connection.disconnected_exception
             event := some (.replaced s.connection.disconnected_exception) }
  else s
  { s with _connecting_since := s.now }

/-! ## `safe_perform` -/

variable (env : Config)

/-- The operation starts. -/
def State.run (s : State V E) (rpc soft : Int) : State V E :=
  { s with phase := .running rpc soft true, restarted := s.restarted || s.timed_out }

/-- The head of the loop. The clock is read twice, and moves on by `lag` in between. -/
def State.wait (s : State V E) (lag : Nat) : State V E :=
  let rpc := env.connect_timeout - (s.now - s.rpc_start)
  let s := { s with now := s.now + lag, attempt := s._connecting_since, lag }
  let soft := env.soft_fail_timeout - (s.now - s._connecting_since)
  match s.opened, s.exception with
  | true, none => s.run rpc soft
  | true, some e => { s with phase := .woken rpc soft (some e) }
  | false, _ => { s with phase := .waiting rpc soft (s.now + min rpc soft) }

/-- `Remote::reconnect`, and the loop again. -/
def State.reconnect (s : State V E) (lag : Nat) : State V E :=
  if s.connection.live then { s.clear_exception.disconnect with phase := .reconnecting }
  else s.clear_exception.renew.wait env lag

/-- The call starts. -/
def State.call (s : State V E) (lag : Nat) : State V E :=
  let s := { s with rpc_start := s.now, outcome := none, timed_out := false }
  if s.connection.disconnected then s.reconnect env lag
  else if !s.connection.connected && decide
      (env.connect_timeout ≤ s.rpc_start - s.connection.disconnected_since) then
    s.reconnect env lag
  else s.wait env lag

/-- The end of the loop without another try. -/
def State.give_up (s : State V E) (rpc soft : Int) : State V E :=
  { s with phase := .ended <|
      if rpc < soft then .network .time_out
      else match s._disconnected_exception with
        | some e => .network e
        | none => .assertion }

/-- The handlers of the exceptions of an operation or of a wait. -/
def State.failed (s : State V E) (rpc soft : Int) (retry : Bool) (lag : Nat) : State V E :=
  if retry then s.reconnect env lag else s.give_up rpc soft

inductive Action (V E : Type) where
  | tick (d : Nat)
  | call (lag : Nat)
  /-- The thread of the call goes on, from `reconnect` or from its wait. -/
  | resume (lag : Nat)
  /-- The wait was too long. -/
  | expire
  /-- The operation ends. -/
  | done (out : Outcome V E) (lag : Nat)
  /-- The timer of the operation. -/
  | soft_timeout
  /-- The timer of another call. -/
  | other_timeout
  /-- Another call reconnects: `disconnect`, then the rest. -/
  | other_disconnect
  | other_renew
  | disconnect
  | established
  | refused
  /-- Another connection to the peer is there already. -/
  | duplicate
  | fell (e : NetworkError)
  | connection (c : Connection)

/-- One step of the call, of the connection or of another call. -/
def State.step (s : State V E) : Action V E → Option (State V E)
  | .tick d => some { s with now := s.now + d }
  | .call lag =>
    match s.phase with
    | .idle | .ended _ => some (s.call env lag)
    | _ => none
  | .resume lag =>
    match s.phase with
    | .reconnecting => some (s.renew.wait env lag)
    | .woken rpc soft none => some (s.run rpc soft)
    | .woken rpc soft (some _) => some (s.failed env rpc soft true lag)
    | _ => none
  | .expire =>
    match s.phase with
    | .waiting rpc soft deadline =>
      if deadline ≤ s.now then some (({ s with timed_out := true } : State V E).give_up rpc soft)
      else none
    | _ => none
  | .done out lag =>
    match s.phase with
    | .running rpc soft retry =>
      let s := { s with outcome := some out }
      match out with
      | .value v => some { s with phase := .ended (.value v) }
      | .other e => some { s with phase := .ended (.other e) }
      | .network _ | .end_of_stream => some (s.failed env rpc soft retry lag)
    | _ => none
  | .soft_timeout =>
    match s.phase with
    | .running rpc soft _ =>
      if env.soft_fail_running ∧ s.rpc_start + env.connect_timeout ≤ s.now then
        some { s with
          _disconnected_exception := some .time_out
          event := some .soft_timeout
          phase := .running rpc soft false }
      else none
    | _ => none
  | .other_timeout =>
    if env.soft_fail_running then
      some { s with _disconnected_exception := some .time_out, event := some .soft_timeout }
    else none
  | .other_disconnect =>
    some { s.clear_exception.disconnect with reconnecting := s.reconnecting + 1 }
  | .other_renew =>
    if 0 < s.reconnecting then some { s.renew with reconnecting := s.reconnecting - 1 } else none
  | .disconnect => some s.disconnect
  | .established =>
    if s.connection.live ∧ !s.connection.connected then
      some ({ s with connection := { s.connection with connected := true } } : State V E).open
    else none
  | .refused =>
    if s.connection.live ∧ !s.connection.connected then
      some (({ s with connection := { s.connection with
        disconnected := true
        disconnected_since := s.now
        disconnected_exception := some .connection_refused
        running := false } } : State V E).raise .connection_refused)
    else none
  | .duplicate =>
    if s.connection.live ∧ !s.connection.connected then
      some { s with connection := { s.connection with disconnected := true, running := false } }
    else none
  | .fell e =>
    if s.connection.live ∧ s.connection.connected then
      some ({ s with connection := { s.connection with
        disconnected := true
        disconnected_since := s.now
        disconnected_exception := some e
        running := false } } : State V E).close
    else none
  | .connection c =>
    if !s.connection.connected ∨ s.connection.disconnected then some (s.connect c) else none

/-! ## What a call may rely on -/

/-- The answer is that of the operation, or an error of the network. -/
def Answer.Own (outcome : Option (Outcome V E)) : Answer V E → Prop
  | .value v => outcome = some (.value v)
  | .other e => outcome = some (.other e)
  | .network _ => True
  | .assertion => False

/-- A call that ended has an answer of its own, and no operation was started after a wait that
was too long. -/
structure State.Good (s : State V E) : Prop where
  answered : ∀ a, s.phase = .ended a → a.Own s.outcome
  not_restarted : s.restarted = false

/-- What happened last to the connection is that the peer was lost. -/
def State.Lost (s : State V E) : Prop :=
  s.event = some .soft_timeout ∨ ∃ e, s.event = some (.replaced (some e))

/-- The time of the call is over before that of the attempt to connect. -/
def State.First (env : Config) (s : State V E) : Prop :=
  s.rpc_start + env.connect_timeout + s.lag < s.attempt + env.soft_fail_timeout

/-- A call that gives up, after a wait that was too long or once its timer has fired, does it
because its own time is over before that of the attempt to connect, or the peer was lost. -/
def Explained (env : Config) (s : State V E) : Action V E → Prop
  | .expire => s.First env ∨ s.Lost
  | .done (.network _) _ | .done .end_of_stream _ => ∀ rpc soft,
      s.phase = .running rpc soft false → s.First env ∨ s.Lost
  | _ => True

/-- The delays that a call has computed. -/
def Phase.delays : Phase V E → Option (Int × Int)
  | .waiting rpc soft _ | .woken rpc soft _ | .running rpc soft _ => some (rpc, soft)
  | _ => none

/-- The exception and the delays tell what happened. -/
structure State.Told (env : Config) (s : State V E) : Prop where
  lost : s._disconnected_exception.isSome ↔ s.Lost
  delays : ∀ rpc soft, s.phase.delays = some (rpc, soft) → (rpc < soft ↔ s.First env)

structure State.Sound (env : Config) (s : State V E) : Prop where
  good : s.Good
  told : s.Told env
  finished : s.timed_out = true → ∃ a, s.phase = .ended a

/-- Nothing happened to the call, but that it may be woken. -/
structure State.Aside (env : Config) (s s' : State V E) : Prop where
  phase : ∀ a, s'.phase = .ended a ↔ s.phase = .ended a
  outcome : s'.outcome = s.outcome
  timed_out : s'.timed_out = s.timed_out
  restarted : s'.restarted = s.restarted
  told : s.Told env → s'.Told env

section

variable {env : Config} {s s' s'' : State V E} {rpc soft : Int} {lag : Nat}

theorem State.Aside.refl : s.Aside env s := ⟨fun _ => Iff.rfl, rfl, rfl, rfl, id⟩

theorem State.Aside.trans (h : s.Aside env s') (h' : s'.Aside env s'') : s.Aside env s'' where
  phase a := (h'.phase a).trans (h.phase a)
  outcome := h'.outcome.trans h.outcome
  timed_out := h'.timed_out.trans h.timed_out
  restarted := h'.restarted.trans h.restarted
  told := h'.told ∘ h.told

theorem State.Aside.same (hphase : s'.phase = s.phase) (houtcome : s'.outcome = s.outcome)
    (htimed : s'.timed_out = s.timed_out) (hrestarted : s'.restarted = s.restarted)
    (he : s'._disconnected_exception = s._disconnected_exception) (hevent : s'.event = s.event)
    (hfirst : s'.First env ↔ s.First env) : s.Aside env s' := by
  refine ⟨fun a => by rw [hphase], houtcome, htimed, hrestarted, fun h => ⟨?_, ?_⟩⟩
  · rw [he, h.lost]
    simp only [State.Lost, hevent]
  · rw [hphase, hfirst]
    exact h.delays

theorem State.Sound.aside (h : s.Sound env) (ha : s.Aside env s') : s'.Sound env := by
  refine ⟨⟨?_, ha.restarted.trans h.good.not_restarted⟩, ha.told h.told, ?_⟩
  · intro a hphase
    rw [ha.outcome]
    exact h.good.answered a ((ha.phase a).mp hphase)
  · intro ht
    obtain ⟨a, hphase⟩ := h.finished (ha.timed_out.symm.trans ht)
    exact ⟨a, (ha.phase a).mpr hphase⟩

theorem Phase.wake_ended (e : Option NetworkError) (p : Phase V E) (a : Answer V E) :
    p.wake e = .ended a ↔ p = .ended a := by
  cases p <;> simp [Phase.wake]

theorem Phase.wake_delays (e : Option NetworkError) (p : Phase V E) :
    (p.wake e).delays = p.delays := by
  cases p <;> rfl

theorem State.open_aside (s : State V E) : s.Aside env s.open := by
  unfold State.open
  split_ifs
  · apply State.Aside.same <;> rfl
  · refine ⟨Phase.wake_ended s.exception s.phase, rfl, rfl, rfl, fun h => ⟨?_, ?_⟩⟩
    · simp [State.Lost]
    · simp only [Phase.wake_delays]
      exact h.delays

theorem State.close_aside (s : State V E) : s.Aside env s.close := by
  unfold State.close
  split_ifs
  · apply State.Aside.same <;> rfl
  · exact State.Aside.refl

theorem State.raise_aside (s : State V E) (e : NetworkError) : s.Aside env (s.raise e) := by
  have hfirst : s.Aside env { s with exception := some e } := by apply State.Aside.same <;> rfl
  have hlast : ∀ t : State V E, t.Aside env { t with exception := some e } := by
    intro t
    apply State.Aside.same <;> rfl
  exact (hfirst.trans (State.open_aside _)).trans (hlast _)

theorem State.clear_exception_aside (s : State V E) : s.Aside env s.clear_exception := by
  unfold State.clear_exception
  split_ifs
  · exact s.close_aside
  · exact State.Aside.refl

theorem State.connection_aside (s : State V E) (c : Connection) :
    s.Aside env { s with connection := c } := by
  apply State.Aside.same <;> rfl

theorem State.disconnect_aside (s : State V E) : s.Aside env s.disconnect := by
  unfold State.disconnect
  split_ifs
  · exact (s.connection_aside _).trans (State.close_aside _)
  · exact s.connection_aside _
  · exact State.Aside.refl

theorem State.connect_aside (s : State V E) (c : Connection) : s.Aside env (s.connect c) := by
  apply (s.connection_aside c).trans
  simp only [State.connect]
  split_ifs
  · exact State.Aside.refl
  · exact State.open_aside _
  · exact State.close_aside _

theorem State.renew_aside (s : State V E) : s.Aside env s.renew := by
  unfold State.renew
  dsimp only
  split_ifs with hc
  · refine ⟨fun _ => Iff.rfl, rfl, rfl, rfl, fun h => ⟨?_, h.delays⟩⟩
    simp [State.Lost, Option.isSome_iff_exists]
  · apply State.Aside.same <;> rfl

/-! ## A call that goes on -/

/-- The call did not wait for too long. -/
structure State.Going (env : Config) (s : State V E) : Prop where
  told : s.Told env
  timed_out : s.timed_out = false
  not_restarted : s.restarted = false

theorem State.Sound.going (h : s.Sound env) (hp : ∀ a, s.phase ≠ .ended a) : s.Going env := by
  refine ⟨h.told, ?_, h.good.not_restarted⟩
  by_contra ht
  obtain ⟨a, ha⟩ := h.finished (by simpa using ht)
  exact hp a ha

theorem State.Going.aside (h : s.Going env) (ha : s.Aside env s') : s'.Going env :=
  ⟨ha.told h.told, ha.timed_out.trans h.timed_out, ha.restarted.trans h.not_restarted⟩

theorem State.Going.goto (h : s.Going env) {p : Phase V E} (hp : ∀ a, p ≠ .ended a)
    (hd : ∀ rpc soft, p.delays = some (rpc, soft) → (rpc < soft ↔ s.First env)) :
    ({ s with phase := p } : State V E).Sound env :=
  ⟨⟨fun a hphase => absurd hphase (hp a), h.not_restarted⟩, ⟨h.told.lost, hd⟩,
    fun htrue => by simp [h.timed_out] at htrue⟩

theorem State.Going.run (h : s.Going env) (hd : rpc < soft ↔ s.First env) :
    (s.run rpc soft).Sound env := by
  have hrun := h.goto (p := .running rpc soft true) (by simp) (by
    rintro rpc soft ⟨⟩
    exact hd)
  refine ⟨⟨hrun.good.answered, ?_⟩, ⟨hrun.told.lost, hrun.told.delays⟩, hrun.finished⟩
  simp [State.run, h.timed_out, h.not_restarted]

theorem State.Going.wait (h : s.Going env) : (s.wait env lag).Sound env := by
  unfold State.wait
  dsimp only
  -- The delays are computed from the clock as it was before and after the lag.
  have hfirst : ∀ p : Phase V E, env.connect_timeout - (s.now - s.rpc_start) <
      env.soft_fail_timeout - (s.now + lag - s._connecting_since) ↔
      ({ s with now := s.now + lag, attempt := s._connecting_since, lag := lag, phase := p } :
        State V E).First env := by
    intro p
    simp only [State.First]
    omega
  have hlater : ({ s with
      now := s.now + lag
      attempt := s._connecting_since
      lag := lag
      phase := .idle } : State V E).Going env :=
    ⟨⟨h.told.lost, by simp [Phase.delays]⟩, h.timed_out, h.not_restarted⟩
  split
  · exact hlater.run (hfirst _)
  · refine hlater.goto (by simp) ?_
    rintro rpc soft ⟨⟩
    exact hfirst _
  · refine hlater.goto (by simp) ?_
    rintro rpc soft ⟨⟩
    exact hfirst _

theorem State.Going.reconnect (h : s.Going env) : (s.reconnect env lag).Sound env := by
  have hclear : s.Aside env s.clear_exception := s.clear_exception_aside
  unfold State.reconnect
  split_ifs
  · have hgoing := h.aside (hclear.trans (State.disconnect_aside _))
    exact hgoing.goto (by simp) (by simp [Phase.delays])
  · exact (h.aside (hclear.trans (State.renew_aside _))).wait

theorem State.Sound.call (h : s.Sound env) (hp : s.phase.delays = none) :
    (s.call env lag).Sound env := by
  have hstart : ({ s with rpc_start := s.now, outcome := none, timed_out := false } :
      State V E).Going env :=
    ⟨⟨h.told.lost, by simp [hp]⟩, rfl, h.good.not_restarted⟩
  unfold State.call
  dsimp only
  split_ifs
  · exact hstart.reconnect
  · exact hstart.reconnect
  · exact hstart.wait

theorem State.give_up_sound (h : s.Told env) (hd : s.phase.delays = some (rpc, soft))
    (hrestarted : s.restarted = false) (hc : s.First env ∨ s.Lost) :
    (s.give_up rpc soft).Sound env := by
  refine ⟨⟨?_, hrestarted⟩, ⟨h.lost, by simp [State.give_up, Phase.delays]⟩, fun _ => ⟨_, rfl⟩⟩
  rintro a ⟨⟩
  split_ifs with hlt
  · trivial
  · have hlost := hc.resolve_left (mt (h.delays rpc soft hd).mpr hlt)
    obtain ⟨e, he⟩ := Option.isSome_iff_exists.mp (h.lost.mpr hlost)
    simp [he, Answer.Own]

theorem State.give_up_fails (h : s.Told env) (hd : s.phase.delays = some (rpc, soft))
    (hc : ¬ (s.First env ∨ s.Lost)) : ¬ (s.give_up rpc soft).Good := by
  obtain ⟨hlt, hlost⟩ := not_or.mp hc
  have hnone : s._disconnected_exception = none :=
    Option.not_isSome_iff_eq_none.mp (mt h.lost.mp hlost)
  rw [← h.delays rpc soft hd] at hlt
  intro hgood
  have hown := hgood.answered .assertion (by simp [State.give_up, hlt, hnone])
  exact hown

/-! ## A step -/

theorem State.Sound.resume (h : s.Sound env) (hs : s.step env (.resume lag) = some s') :
    s'.Sound env := by
  simp only [State.step] at hs
  split at hs
  · rename_i hphase
    obtain rfl := Option.some.inj hs
    exact ((h.going (by simp [hphase])).aside s.renew_aside).wait
  · rename_i hphase
    obtain rfl := Option.some.inj hs
    exact (h.going (by simp [hphase])).run (h.told.delays _ _ (by rw [hphase]; rfl))
  · rename_i hphase
    obtain rfl := Option.some.inj hs
    exact (h.going (by simp [hphase])).reconnect
  · cases hs

theorem State.Sound.expire (h : s.Sound env) (hc : Explained env s (.expire : Action V E))
    (hs : s.step env .expire = some s') : s'.Sound env := by
  simp only [State.step] at hs
  split at hs
  · rename_i rpc soft deadline hphase
    split_ifs at hs
    obtain rfl := Option.some.inj hs
    have htold : ({ s with timed_out := true } : State V E).Told env :=
      ⟨h.told.lost, h.told.delays⟩
    exact State.give_up_sound htold (by simp [hphase, Phase.delays]) h.good.not_restarted hc
  · cases hs

theorem State.Sound.failed {out : Outcome V E} {retry : Bool} (h : s.Sound env)
    (hphase : s.phase = .running rpc soft retry)
    (hc : retry = false → s.First env ∨ s.Lost) :
    (({ s with outcome := some out } : State V E).failed env rpc soft retry lag).Sound env := by
  have hgoing := h.going (by simp [hphase])
  unfold State.failed
  split_ifs with hretry
  · apply State.Going.reconnect
    exact ⟨⟨h.told.lost, h.told.delays⟩, hgoing.timed_out, hgoing.not_restarted⟩
  · have htold : ({ s with outcome := some out } : State V E).Told env :=
      ⟨h.told.lost, h.told.delays⟩
    exact State.give_up_sound htold (by simp [hphase, Phase.delays]) h.good.not_restarted
      (hc (by simpa using hretry))

theorem State.Sound.done {out : Outcome V E} (h : s.Sound env)
    (hc : Explained env s (.done out lag)) (hs : s.step env (.done out lag) = some s') :
    s'.Sound env := by
  simp only [State.step] at hs
  split at hs
  · rename_i rpc soft retry hphase
    have hgoing := h.going (by simp [hphase])
    cases out with
    | value v | other e =>
      obtain rfl := Option.some.inj hs
      refine ⟨⟨?_, h.good.not_restarted⟩, ⟨h.told.lost, by simp [Phase.delays]⟩,
        fun _ => ⟨_, rfl⟩⟩
      rintro a ⟨⟩
      rfl
    | network e | end_of_stream =>
      obtain rfl := Option.some.inj hs
      apply h.failed hphase
      rintro rfl
      exact hc rpc soft hphase
  · cases hs

theorem State.Sound.step {a : Action V E} (h : s.Sound env) (hc : Explained env s a)
    (hs : s.step env a = some s') : s'.Sound env := by
  cases a with
  | call lag =>
    simp only [State.step] at hs
    split at hs
    · rename_i hphase
      obtain rfl := Option.some.inj hs
      exact h.call (by rw [hphase]; rfl)
    · rename_i hphase
      obtain rfl := Option.some.inj hs
      exact h.call (by rw [hphase]; rfl)
    · cases hs
  | resume lag => exact h.resume hs
  | expire => exact h.expire hc hs
  | done out lag => exact h.done hc hs
  | soft_timeout =>
    simp only [State.step] at hs
    split at hs
    · rename_i rpc soft retry hphase
      split_ifs at hs
      obtain rfl := Option.some.inj hs
      have hgoing := h.going (by simp [hphase])
      have hdelays := h.told.delays rpc soft (by rw [hphase]; rfl)
      refine ⟨⟨fun a ha => ?_, hgoing.not_restarted⟩, ⟨by simp [State.Lost], ?_⟩, fun ht => ?_⟩
      · cases ha
      · rintro _ _ ⟨⟩
        exact hdelays
      · exact absurd (hgoing.timed_out.symm.trans ht) (by simp)
    · cases hs
  | other_timeout =>
    simp only [State.step, Option.ite_none_right_eq_some] at hs
    obtain rfl := Option.some.inj hs.2
    refine h.aside ⟨fun _ => Iff.rfl, rfl, rfl, rfl, fun ht => ⟨?_, ht.delays⟩⟩
    simp [State.Lost]
  | tick d =>
    obtain rfl := Option.some.inj hs
    apply h.aside
    apply State.Aside.same <;> rfl
  | other_disconnect =>
    obtain rfl := Option.some.inj hs
    apply h.aside
    apply (s.clear_exception_aside.trans (State.disconnect_aside _)).trans
    apply State.Aside.same <;> rfl
  | other_renew =>
    simp only [State.step, Option.ite_none_right_eq_some] at hs
    obtain rfl := Option.some.inj hs.2
    apply h.aside
    apply s.renew_aside.trans
    apply State.Aside.same <;> rfl
  | disconnect =>
    obtain rfl := Option.some.inj hs
    exact h.aside s.disconnect_aside
  | established =>
    simp only [State.step, Option.ite_none_right_eq_some] at hs
    obtain rfl := Option.some.inj hs.2
    exact h.aside ((s.connection_aside _).trans (State.open_aside _))
  | refused =>
    simp only [State.step, Option.ite_none_right_eq_some] at hs
    obtain rfl := Option.some.inj hs.2
    exact h.aside ((s.connection_aside _).trans (State.raise_aside _ _))
  | duplicate =>
    simp only [State.step, Option.ite_none_right_eq_some] at hs
    obtain rfl := Option.some.inj hs.2
    exact h.aside (s.connection_aside _)
  | fell e =>
    simp only [State.step, Option.ite_none_right_eq_some] at hs
    obtain rfl := Option.some.inj hs.2
    exact h.aside ((s.connection_aside _).trans (State.close_aside _))
  | connection c =>
    simp only [State.step, Option.ite_none_right_eq_some] at hs
    obtain rfl := Option.some.inj hs.2
    exact h.aside (s.connect_aside c)

theorem State.Sound.failed_fails {out : Outcome V E} (h : s.Sound env)
    (hphase : s.phase = .running rpc soft false) (hc : ¬ (s.First env ∨ s.Lost)) :
    ¬ (({ s with outcome := some out } : State V E).failed env rpc soft false lag).Good := by
  have htold : ({ s with outcome := some out } : State V E).Told env :=
    ⟨h.told.lost, h.told.delays⟩
  exact State.give_up_fails htold (by simp [hphase, Phase.delays]) hc

theorem State.Sound.fails {a : Action V E} (h : s.Sound env) (hc : ¬ Explained env s a)
    (hs : s.step env a = some s') : ¬ s'.Good := by
  cases a with
  | expire =>
    simp only [State.step] at hs
    split at hs
    · rename_i rpc soft deadline hphase
      split_ifs at hs
      obtain rfl := Option.some.inj hs
      have htold : ({ s with timed_out := true } : State V E).Told env :=
        ⟨h.told.lost, h.told.delays⟩
      exact State.give_up_fails htold (by simp [hphase, Phase.delays]) hc
    · cases hs
  | done out lag =>
    cases out with
    | value v => exact absurd trivial hc
    | other e => exact absurd trivial hc
    | network e | end_of_stream =>
      simp only [Explained, not_forall] at hc
      obtain ⟨rpc, soft, hphase, hc⟩ := hc
      simp only [State.step] at hs
      split at hs
      · rename_i hrunning
        cases hrunning.symm.trans hphase
        obtain rfl := Option.some.inj hs
        exact h.failed_fails hphase hc
      · cases hs
  | _ => exact absurd trivial hc

theorem State.make_sound (now : Int) (c : Connection) :
    (State.make now c : State V E).Sound env :=
  ⟨⟨fun _ hphase => by simp [State.make] at hphase, rfl⟩,
    ⟨by simp [State.make, State.Lost], by simp [State.make, Phase.delays]⟩,
    fun ht => by simp [State.make] at ht⟩

end

/-- A call ends with an answer or an error of its own in the runs where it only gives up when its
own time is over before that of the attempt to connect, or when the peer was lost since it last
connected, and in no other. -/
theorem calls_end_with_their_own_answer_iff (env : Config) (now : Int) (c : Connection)
    (as : List (Action V E)) (s : State V E)
    (hrun : Run (State.step env) anyStep (State.make now c) as s) :
    (∀ done t, done <+: as → Run (State.step env) anyStep (State.make now c) done t → t.Good) ↔
      Run (State.step env) (Explained env) (State.make now c) as s :=
  hrun.always_iff (State.make_sound now c) (fun _ h => h.good) (fun _ _ _ h hc hs => h.step hc hs)
    fun _ _ _ h _ hc hs => h.fails hc hs

/-- The peer connects after two seconds and is lost, and five seconds later the call gives up. -/
def lost_peer : List (Action Nat Unit) :=
  [.call 0, .tick 2, .established, .resume 0, .fell .connection_closed, .done .end_of_stream 0,
    .tick 5, .expire]

theorem a_lost_peer_ends_the_call : ∃ s : State Nat Unit,
    Run (State.step ⟨10, 5, false⟩) anyStep (State.make 0 { disconnected_since := 0 }) lost_peer s ∧
      s.phase = .ended (.network .connection_closed) ∧ s.Good := by
  have hany : Run (State.step ⟨10, 5, false⟩) anyStep
    (State.make 0 { disconnected_since := 0 } : State Nat Unit) lost_peer _ := Run.of_exec rfl
  refine ⟨_, hany, rfl,
    (calls_end_with_their_own_answer_iff _ _ _ _ _ hany).mpr ?_ _ _ List.prefix_rfl hany⟩
  refine Run.cons trivial rfl (Run.cons trivial rfl (Run.cons trivial rfl (Run.cons trivial rfl
    (Run.cons trivial rfl (Run.cons ?_ rfl (Run.cons trivial rfl (Run.cons ?_ rfl Run.nil)))))))
  · rintro rpc soft ⟨⟩
  · exact .inr (.inr ⟨_, rfl⟩)

/-- A peer that never answers, with a shorter time for the connection than for the call: there is
no exception to throw. -/
theorem a_peer_that_never_answers_fails_the_assertion :
    ¬ ∀ (env : Config) (now : Int) (c : Connection) (as : List (Action Nat Unit))
      (s : State Nat Unit), 0 < env.connect_timeout → 0 < env.soft_fail_timeout →
      Run (State.step env) anyStep (State.make now c) as s → s.Good := by
  intro h
  have hrun : Run (State.step ⟨10, 5, false⟩) anyStep
    (State.make 0 { disconnected_since := 0 } : State Nat Unit) [.call 0, .tick 5, .expire] _ :=
    Run.of_exec rfl
  exact (h _ _ _ _ _ (by decide) (by decide) hrun).answered .assertion rfl

end memo.RemoteCall
