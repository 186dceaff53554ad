-- How a `Generator` is consumed to its end. The values come in order, with the end of the driver,
-- unless the generator is moved while its driver still puts, or `next` hides an exception.
import Memo.ReactorGenerator

open runs

namespace elle.reactor.generator

open channel

variable {A E : Type}

/-! ## Runs that end well -/

namespace State

variable {s s' : State A E} {d : Driver A E} {m : Mode} {a : Event}

theorem Kept.collected (h : Kept m d s) (hended : s.ended.isSome) : s.collected = d.values := by
  have hreceived := h.received
  rw [if_pos hended] at hreceived
  have hprogram := h.program
  rw [h.flows.orderly.content, hreceived] at hprogram
  simp only [List.append_assoc, List.singleton_append] at hprogram
  exact (map_some_unique hprogram).1

variable [DecidableEq A]

theorem Kept.driver_goes_on (h : Kept m d s) (hended : s.ended = none) (hmoved : s.moved = none)
    (hnil : s._results._queue = []) :
    s.step m d .produce ≠ none ∨ s.step m d .resume_driver ≠ none := by
  have hflows : Results.Flows s._results := current_captured hmoved ▸ h.flows
  have hleft := h.left hended
  rw [current_captured hmoved, hnil] at hleft
  cases hput : s._results.threads .driver with
  | idle =>
    have hpending : Results.pending s._results = [] := by
      rw [Results.pending, hput]
      rfl
    rw [hpending] at hleft
    cases htodo : s.todo with
    | nil =>
      rw [htodo, List.append_nil, List.append_nil, List.append_nil] at hleft
      have hnone : none ∈ s.collected.map some := hleft ▸ puts_marker d
      simp at hnone
    | cons data todo =>
      left
      simp [State.step, htodo, Channel.step, hput]
  | get w => exact absurd hput (hflows.driver w)
  | put data w =>
    cases w with
    | woken e =>
      cases e with
      | some e => exact e.elim
      | none =>
        right
        simp [State.step, Channel.step, hput]
    | registered =>
      have hwaits := hflows.writer data hput
      have hroom : (s._results._queue.length : Int) < s._results._max_size := by
        rw [hnil, hflows.orderly.bound]
        show (0 : Int) < SizeUnlimited
        decide
      rw [hflows.awake.writers hroom] at hwaits
      cases hwaits

omit [DecidableEq A] in
theorem Kept.busy_iff (h : Kept m d s) : s.Busy ↔ s.current.threads .consumer ≠ .idle := by
  cases hmoved : s.moved with
  | none => simp [Busy, hmoved, current_captured hmoved, h.lost]
  | some r =>
    obtain ⟨-, -, hthreads, hidle⟩ := h.moved r hmoved
    simp [Busy, hmoved, current_moved hmoved, h.lost, hthreads]

theorem Kept.ends (h : Kept m d s) (hcomplete : s.Complete m d) : s.ended.isSome := by
  obtain ⟨hproduce, hdriver, hbegin, hconsume, hconsumer⟩ := hcomplete
  have hbegun : ¬(m = .iterate ∧ s.place = .generator) := by
    simpa only [State.step, Option.ite_none_right_eq_some, reduceCtorEq, ite_eq_right_iff,
      imp_false] using hbegin
  by_contra hnot
  have hended : s.ended = none := by simpa using hnot
  have hfree := h.busy_iff
  cases hmoved : s.moved with
  | some r =>
    obtain ⟨-, -, -, hidle⟩ := h.moved r hmoved
    rw [current_moved hmoved, hidle] at hfree
    simp [State.step, hfree, hended, hbegun, hmoved, on_moved, Channel.step, hidle] at hconsume
  | none =>
    have hflows : Results.Flows s._results := current_captured hmoved ▸ h.flows
    rw [current_captured hmoved] at hfree
    cases hcall : s._results.threads .consumer with
    | idle =>
      simp [State.step, hfree, hended, hbegun, hmoved, on_captured, Channel.step, hcall] at hconsume
    | put data w => exact hflows.consumer data w hcall
    | get w =>
      cases w with
      | woken e =>
        cases e with
        | some e => exact e.elim
        | none => simp [State.step, hcall, on_captured, Channel.step] at hconsumer
      | registered =>
        have hnil : s._results._queue = [] := by
          by_contra hne
          have hwaits := hflows.reader hcall
          rw [hflows.awake.read (hflows.opened.2 hne)] at hwaits
          cases hwaits
        rcases h.driver_goes_on hended hmoved hnil with hgoes | hgoes
        · exact hgoes hproduce
        · exact hgoes hdriver

/-! ## The results -/

variable {as : List Event}

theorem faithful (hreturns : d.throws = none) (hrun : Run (step m d) Harmless (start d) as s)
    (hcomplete : s.Complete m d) : s.Faithful d := by
  have hending : m.ending d.throws = d.ending ∧ m.ending none = d.ending := by
    unfold Driver.ending
    rw [hreturns]
    cases m <;> exact ⟨rfl, rfl⟩
  have hkept : Kept m d s :=
    hrun.invariant (kept_start m d) fun _ _ _ h hok hs => h.step hok hs
  have hended := hkept.ends hcomplete
  refine ⟨hkept.collected hended, ?_⟩
  obtain ⟨x, hx⟩ := Option.isSome_iff_exists.1 hended
  rcases hkept.ended x hx with heq | ⟨-, heq⟩
  · rw [hx, heq, hending.1]
  · rw [hx, heq, hending.2]

/-- Iterating a generator and asking it for its values give what its driver yields, and end as it
does, when the driver returns and each move is harmless. -/
theorem consumers_agree {as bs : List Event} {iterated asked : State A E}
    (hreturns : d.throws = none)
    (hiterated : Run (step .iterate d) Harmless (start d) as iterated)
    (hasked : Run (step .next d) Harmless (start d) bs asked)
    (hcomplete : iterated.Complete .iterate d) (hcomplete' : asked.Complete .next d) :
    iterated.Faithful d ∧ asked.Faithful d :=
  ⟨faithful hreturns hiterated hcomplete, faithful hreturns hasked hcomplete'⟩

instance (m : Mode) (d : Driver A E) (s : State A E) : Decidable (s.Complete m d) :=
  decidable_of_iff ((s.step m d .produce).isNone ∧ (s.step m d .resume_driver).isNone ∧
    (s.step m d .begin).isNone ∧ (s.step m d .consume).isNone ∧
    (s.step m d .resume_consumer).isNone)
    (by simp only [Complete, Option.isNone_iff_eq_none])

instance (s : State A E) : (a : Event) → Decidable (s.Harmless a)
  | .move => by
    unfold Harmless
    cases s.place <;> exact inferInstance
  | .produce | .resume_driver | .begin | .consume | .resume_consumer => isTrue trivial

/-- A generator is moved while its iterator has none of its values, and once its driver is done. -/
theorem moves_change_nothing :
    ∃ iterated asked : State Nat Unit,
      Run (step .iterate ⟨[3, 4], none⟩) Harmless (start ⟨[3, 4], none⟩)
        [.begin, .produce, .consume, .move, .consume, .produce, .resume_consumer, .produce,
          .consume, .move] iterated ∧
      Run (step .next ⟨[3, 4], none⟩) Harmless (start ⟨[3, 4], none⟩)
        [.consume, .produce, .resume_consumer, .produce, .produce, .move, .consume,
          .consume] asked ∧
      iterated.Faithful ⟨[3, 4], none⟩ ∧ asked.Faithful ⟨[3, 4], none⟩ := by
  have hiterates : ((exec (step (A := Nat) (E := Unit) .iterate ⟨[3, 4], none⟩) Harmless
      (start ⟨[3, 4], none⟩) [.begin, .produce, .consume, .move, .consume, .produce,
        .resume_consumer, .produce, .consume, .move]).map fun s =>
          decide (s.Complete .iterate ⟨[3, 4], none⟩)) = some true := by
    decide +kernel
  have hasks : ((exec (step (A := Nat) (E := Unit) .next ⟨[3, 4], none⟩) Harmless
      (start ⟨[3, 4], none⟩) [.consume, .produce, .resume_consumer, .produce, .produce, .move,
        .consume, .consume]).map fun s => decide (s.Complete .next ⟨[3, 4], none⟩)) =
          some true := by
    decide +kernel
  obtain ⟨iterated, hiterated, hcomplete⟩ := Run.of_exec_map hiterates
  obtain ⟨asked, hasked, hcomplete'⟩ := Run.of_exec_map hasks
  exact ⟨iterated, asked, hiterated, hasked, consumers_agree rfl hiterated hasked
    (of_decide_eq_true hcomplete) (of_decide_eq_true hcomplete')⟩

/-- A driver that throws ends like one that returns, for those who call `next`. -/
theorem next_hides_an_exception :
    ∃ (as : List Event) (asked : State Nat Unit),
      Run (step .next ⟨[3], some ()⟩) anyStep (start ⟨[3], some ()⟩) as asked ∧
      asked.Complete .next ⟨[3], some ()⟩ ∧ asked.collected = [3] ∧
      asked.ended = some .finished ∧ ¬ asked.Faithful ⟨[3], some ()⟩ := by
  have hrun : ((exec (step (A := Nat) (E := Unit) .next ⟨[3], some ()⟩) anyStep
      (start ⟨[3], some ()⟩) [.produce, .consume, .produce, .consume]).map fun s =>
        (decide (s.Complete .next ⟨[3], some ()⟩), s.collected, s.ended)) =
          some (true, [3], some .finished) := by
    decide +kernel
  obtain ⟨asked, hasked, hvalues⟩ := Run.of_exec_map hrun
  simp only [Prod.mk.injEq, decide_eq_true_eq] at hvalues
  obtain ⟨hcomplete, hcollected, hended⟩ := hvalues
  refine ⟨_, asked, hasked, hcomplete, hcollected, hended, fun hfaithful => ?_⟩
  have hraised := hfaithful.ended
  rw [hended] at hraised
  cases hraised

end State

end elle.reactor.generator
