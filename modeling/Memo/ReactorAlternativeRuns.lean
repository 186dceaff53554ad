-- Which waits on an alternative end as they should. A signal that gives up leaves only is all that
-- leaves the thread registered nowhere; a timeout and a termination never do.
import Memo.ReactorAlternatives

open runs

namespace elle.reactor.alternatives

variable {I O E : Type}

/-! ## What the events do -/

namespace Waitable

theorem mem_refs_leaves {w : Waitable I O} {i : I} (h : Ref.leaf i ∈ w.refs) : i ∈ w.leaves := by
  induction w with
  | leaf j => simpa [leaves, refs] using h
  | alt o lhs rhs ihl ihr =>
    simp only [refs, List.mem_cons, List.mem_append, reduceCtorEq, false_or] at h
    rcases h with h | h
    · simp [leaves, ihl h]
    · simp [leaves, ihr h]

end Waitable

def Kind.may_raise : Kind E → Bool
  | .barrier opened => opened
  | .semaphore _ => false
  | .thread done _ _ => done

namespace State

variable [DecidableEq I] [DecidableEq O] {s s' t : State I O E} {w : Waitable I O} {i : I} {o : O}
  {a b : Waitable I O} {fuel : Nat} {e : Option E}

theorem signal_unregistered (h : s._waiters (.leaf i) = none) :
    s._signal fuel i = s._raise i none := by
  simp [_signal, h, _raise]

/-- The thread waits on the alternative, whose exception is never set. -/
structure Frozen (w : Waitable I O) (s : State I O E) : Prop where
  phase : s.phase = .frozen
  waiters : ∀ r, s._waiters r = w.waker .empty r
  waited : s._waited = [w.ref]

theorem signal_registered (hnodup : (Waitable.alt o a b).refs.Nodup)
    (h : Frozen (.alt o a b) s) (hi : i ∈ (Waitable.alt o a b).leaves)
    (hnone : s._exception (.alt o) = none) :
    s._signal (Waitable.alt o a b).height i =
      { s with
        _waiters := fun r =>
          if r ∈ (Waitable.alt o a b).path i then none
          else if r ∈ (Waitable.alt o a b).sides i then none
          else s._waiters r
        _exception := fun r =>
          if r ∈ (Waitable.alt o a b).path i then none else s._exception r
        phase := .running
        _waited := []
        cause := some (.signal (s._exception (.leaf i))) } := by
  have hmem := Waitable.mem_leaves_refs hi
  have hsome : (s._waiters (.leaf i)).isSome := by
    rw [h.waiters, Option.isSome_iff_ne_none]
    exact fun heq => Waitable.waker_eq_none.1 heq hmem
  rw [_signal, if_pos hsome, climb hnodup hi (fun r _ => h.waiters r) (Nat.le_refl _)]
  simp only [fire, _wake, drop, forgets, h.waited, Waitable.ref, hnone]
  simp

theorem signal_quits_iff (hnodup : (Waitable.alt o a b).refs.Nodup)
    (h : Frozen (.alt o a b) s) (hi : i ∈ (Waitable.alt o a b).leaves)
    (hnone : s._exception (.alt o) = none) :
    (∀ r, (s._signal (Waitable.alt o a b).height i)._waiters r = none) ↔
      (Waitable.alt o a b).signal_quits i := by
  rw [signal_registered hnodup h hi hnone, ← Waitable.covered_iff hnodup hi]
  dsimp only
  constructor
  · intro hall r hr
    by_contra hnot
    rw [not_or] at hnot
    have heq := hall r
    rw [if_neg hnot.1, if_neg hnot.2, h.waiters] at heq
    exact Waitable.waker_eq_none.1 heq hr
  · intro hall r
    split
    · rfl
    · next hpath =>
      split
      · rfl
      · next hside =>
        rw [h.waiters, Waitable.waker_eq_none]
        intro hr
        rcases hall r hr with hr | hr
        · exact hpath hr
        · exact hside hr

/-- What an event signals, with the exception that goes with it. -/
def signalled (s : State I O E) : Event I E → Option (I × Option E)
  | .open i =>
    match s.kind i with
    | .barrier false => some (i, none)
    | _ => none
  | .raise i e =>
    match s.kind i with
    | .barrier false => some (i, some e)
    | _ => none
  | .release i =>
    match s.kind i with
    | .semaphore _ => some (i, none)
    | _ => none
  | .finish i thrown =>
    match s.kind i with
    | .thread false managed _ => some (i, if managed then thrown else none)
    | _ => none
  | _ => none

/-- The thread is where it was, and the alternatives have no exception. -/
structure Alike (s t : State I O E) : Prop where
  same : t = { s with kind := t.kind, _exception := t._exception }
  alts : ∀ o, t._exception (.alt o) = s._exception (.alt o)

omit [DecidableEq I] [DecidableEq O] in
theorem Alike.refl (s : State I O E) : Alike s s := ⟨rfl, fun _ => rfl⟩

omit [DecidableEq I] [DecidableEq O] in
theorem Alike.trans {u : State I O E} (h : Alike s t) (h' : Alike t u) : Alike s u := by
  refine ⟨?_, fun o => (h'.alts o).trans (h.alts o)⟩
  rw [h'.same, h.same]

omit [DecidableEq O] in
theorem alike_become (s : State I O E) (i : I) (k : Kind E) : Alike s (s.become i k) :=
  ⟨rfl, fun _ => rfl⟩

theorem alike_raise (s : State I O E) (i : I) (e : Option E) : Alike s (s._raise i e) :=
  ⟨rfl, fun o => by simp [_raise]⟩

/-- Only a barrier that is open and a thread that is done keep an exception. -/
def Closed (s : State I O E) : Prop :=
  ∀ i, s._exception (.leaf i) ≠ none → (s.kind i).may_raise

end State

namespace Event

/-- The event is one of the waitables. -/
def changes : Event I E → Bool
  | .wait _ | .timeout | .terminate | .resume => false
  | _ => true

end Event

namespace State

variable [DecidableEq I] [DecidableEq O] [DecidableEq E] {s s' t : State I O E}
  {w : Waitable I O} {i : I} {o : O} {a b : Waitable I O} {e : Option E} {ev : Event I E}

omit [DecidableEq E] in
theorem _signal_one_kind (fuel : Nat) (r : Ref I O) (s : State I O E) :
    (s._signal_one fuel r).kind = s.kind := by
  induction fuel generalizing r s with
  | zero => rfl
  | succ fuel ih =>
    unfold _signal_one
    split
    · rfl
    · rfl
    · next other this _ =>
      have hquit : (s._unwait other).kind = s.kind := by
        unfold _unwait
        split <;> rfl
      simp only [forget, ih, hquit]

omit [DecidableEq E] in
theorem _signal_kind (fuel : Nat) (i : I) (s : State I O E) :
    (s._signal fuel i).kind = s.kind := by
  unfold _signal
  split
  · exact _signal_one_kind fuel _ s
  · rfl

omit [DecidableEq O] [DecidableEq E] in
theorem Closed.become (h : Closed s) {k : Kind E}
    (hk : s._exception (.leaf i) ≠ none → k.may_raise) : Closed (s.become i k) := by
  intro j hj
  by_cases hji : j = i
  · subst hji
    simpa [State.become] using hk hj
  · simpa [State.become, hji] using h j hj

omit [DecidableEq E] in
theorem Closed.raise (h : Closed s) (he : e ≠ none → (s.kind i).may_raise) :
    Closed (s._raise i e) := by
  intro j hj
  by_cases hji : j = i
  · subst hji
    exact he (by simpa [_raise] using hj)
  · exact h j (by simpa [_raise, hji] using hj)

omit [DecidableEq I] [DecidableEq O] [DecidableEq E] in
theorem Closed.exception_eq_none (h : Closed s) (hk : (s.kind i).may_raise = false) :
    s._exception (.leaf i) = none := by
  by_contra hne
  rw [h i hne] at hk
  cases hk

theorem step_quiet (hclosed : Closed s) (hev : ev.changes = true) (hnone : s.signalled ev = none)
    (hs : s.step w ev = some s') : Alike s s' ∧ Closed s' := by
  have hsame : Alike s s ∧ Closed s := ⟨.refl s, hclosed⟩
  have hcleared : ∀ i, Alike s (s._raise i none) ∧ Closed (s._raise i none) := fun i =>
    ⟨alike_raise s i none, hclosed.raise (by simp)⟩
  cases ev with
  | «open» i =>
    obtain rfl := Option.some.inj hs
    unfold State.open
    cases hkind : s.kind i with
    | barrier opened =>
      cases opened with
      | true => exact hcleared i
      | false => simp [signalled, hkind] at hnone
    | semaphore count => exact hsame
    | thread done managed thrown => exact hsame
  | close i =>
    obtain rfl := Option.some.inj hs
    unfold State.close
    cases hkind : s.kind i with
    | barrier opened =>
      cases opened with
      | true =>
        refine ⟨(hcleared i).1.trans (alike_become _ _ _), (hcleared i).2.become ?_⟩
        simp [_raise]
      | false => exact hsame
    | semaphore count => exact hsame
    | thread done managed thrown => exact hsame
  | raise i e =>
    obtain rfl := Option.some.inj hs
    unfold State.raise
    cases hkind : s.kind i with
    | barrier opened =>
      cases opened with
      | true =>
        have hraised : ((s._raise i (some e)).open w.height i)._raise i (some e) =
            s._raise i (some e) := by
          simp [State.open, _raise, hkind]
        simp only [hraised]
        exact ⟨alike_raise s i _, hclosed.raise fun _ => by simp [hkind, Kind.may_raise]⟩
      | false => simp [signalled, hkind] at hnone
    | semaphore count => exact hsame
    | thread done managed thrown => exact hsame
  | acquire i =>
    obtain rfl := Option.some.inj hs
    unfold State.acquire
    cases hkind : s.kind i with
    | barrier opened => exact hsame
    | semaphore count =>
      dsimp only
      split
      · have hnever : (s.kind i).may_raise = false := by simp [hkind, Kind.may_raise]
        have hfree := hclosed.exception_eq_none hnever
        exact ⟨alike_become _ _ _, hclosed.become fun hne => absurd hfree hne⟩
      · exact hsame
    | thread done managed thrown => exact hsame
  | release i =>
    obtain rfl := Option.some.inj hs
    unfold State.release
    cases hkind : s.kind i with
    | barrier opened => exact hsame
    | semaphore count => simp [signalled, hkind] at hnone
    | thread done managed thrown => exact hsame
  | finish i thrown =>
    obtain rfl := Option.some.inj hs
    unfold State.finish
    cases hkind : s.kind i with
    | barrier opened => exact hsame
    | semaphore count => exact hsame
    | thread done managed thrown =>
      cases done with
      | true => exact hsame
      | false => simp [signalled, hkind] at hnone
  | wait timed => cases hev
  | timeout => cases hev
  | terminate => cases hev
  | resume => cases hev

theorem step_signals (hclosed : Closed s) (hsome : s.signalled ev = some (i, e)) :
    ∃ t u, Alike s t ∧ Closed t ∧ t._exception (.leaf i) = e ∧ s.step w ev = some u ∧
      Alike (t._signal w.height i) u ∧ (Closed (t._signal w.height i) → Closed u) := by
  have hfree : (s.kind i).may_raise = false → s._exception (.leaf i) = none :=
    hclosed.exception_eq_none
  cases ev with
  | «open» j =>
    simp only [signalled] at hsome
    split at hsome
    · next hkind =>
      simp only [Option.some.injEq, Prod.mk.injEq] at hsome
      obtain ⟨rfl, rfl⟩ := hsome
      have hnone := hfree (by simp [hkind, Kind.may_raise])
      refine ⟨s.become j (.barrier true), _, alike_become _ _ _, ?_, hnone, rfl, ?_, ?_⟩
      · exact hclosed.become fun _ => rfl
      · simp only [State.open, hkind]
        exact .refl _
      · simp [State.open, hkind]
    · cases hsome
  | raise j x =>
    simp only [signalled] at hsome
    split at hsome
    · next hkind =>
      simp only [Option.some.injEq, Prod.mk.injEq] at hsome
      obtain ⟨rfl, rfl⟩ := hsome
      have hopened : Closed ((s._raise j (some x)).become j (.barrier true)) := by
        intro l hl
        by_cases hlj : l = j
        · simp [hlj, State.become, Kind.may_raise]
        · have hl' : s._exception (.leaf l) ≠ none := by
            simpa [State.become, _raise, hlj] using hl
          simpa [State.become, _raise, hlj] using hclosed l hl'
      have hraised : s.raise w.height j x =
          (((s._raise j (some x)).become j (.barrier true))._signal w.height j)._raise j
            (some x) := by
        simp [State.raise, hkind, State.open, _raise]
      refine ⟨(s._raise j (some x)).become j (.barrier true), _,
        (alike_raise s j _).trans (alike_become _ _ _), hopened, by simp [State.become, _raise],
        rfl, ?_, ?_⟩
      · rw [hraised]
        exact alike_raise _ _ _
      · rw [hraised]
        intro h
        refine h.raise fun _ => ?_
        rw [_signal_kind]
        simp [State.become, Kind.may_raise]
    · cases hsome
  | release j =>
    simp only [signalled] at hsome
    split at hsome
    · next count hkind =>
      simp only [Option.some.injEq, Prod.mk.injEq] at hsome
      obtain ⟨rfl, rfl⟩ := hsome
      have hnone := hfree (by simp [hkind, Kind.may_raise])
      refine ⟨s.become j (.semaphore (count + 1)), _, alike_become _ _ _, ?_, hnone, rfl, ?_, ?_⟩
      · exact hclosed.become fun hne => absurd hnone hne
      · simp only [State.release, hkind]
        exact .refl _
      · simp [State.release, hkind]
    · cases hsome
  | finish j thrown =>
    simp only [signalled] at hsome
    split at hsome
    · next managed _ hkind =>
      simp only [Option.some.injEq, Prod.mk.injEq] at hsome
      obtain ⟨rfl, he⟩ := hsome
      have hnone := hfree (by simp [hkind, Kind.may_raise])
      have hdone : Closed (s.become j (.thread true managed thrown)) :=
        hclosed.become fun _ => rfl
      by_cases hraises : managed ∧ thrown.isSome
      · refine ⟨(s.become j (.thread true managed thrown))._raise j thrown, _,
          (alike_become _ _ _).trans (alike_raise _ _ _), ?_, ?_, rfl, ?_, ?_⟩
        · exact hdone.raise fun _ => by simp [State.become, Kind.may_raise]
        · simpa [_raise, hraises.1] using he
        · simp only [State.finish, hkind, if_pos hraises]
          exact .refl _
        · simp only [State.finish, hkind, if_pos hraises, imp_self]
      · refine ⟨s.become j (.thread true managed thrown), _, alike_become _ _ _, hdone, ?_, rfl,
          ?_, ?_⟩
        · have hexn : s._exception (.leaf j) = e := by
            rw [hnone, ← he]
            by_cases hmanaged : managed = true
            · have hthrown : thrown = none := by
                simpa [hmanaged] using hraises
              simp [hthrown]
            · simp [hmanaged]
          exact hexn
        · simp only [State.finish, hkind, if_neg hraises]
          exact .refl _
        · simp only [State.finish, hkind, if_neg hraises, imp_self]
    · cases hsome
  | close j => cases hsome
  | acquire j => cases hsome
  | wait timed => cases hsome
  | timeout => cases hsome
  | terminate => cases hsome
  | resume => cases hsome

end State

/-! ## Whole runs -/

namespace State

variable [DecidableEq I] [DecidableEq O] {s s' t : State I O E} {w : Waitable I O} {i : I} {o : O}
  {a b : Waitable I O} {e : Option E} {ev : Event I E} {p : Outcome E}

/-- A wait did not begin, and nothing was raised. -/
def start (kind : I → Kind E) (_interruptible : Bool) : State I O E := { kind, _interruptible }

/-- A leaf that is signalled gives up leaves only, and was not raised. -/
def SignalQuits (w : Waitable I O) (s : State I O E) (ev : Event I E) : Prop :=
  ∀ p ∈ s.signalled ev, s.phase = .frozen → p.1 ∈ w.leaves → p.2 = none ∧ w.signal_quits p.1

/-- A wait that this event ends ends as it should. A leaf that is done when the wait begins has
nothing but leaves registered before it. A timeout and a termination unregister the thread from
the alternative only. -/
def GivesUp (w : Waitable I O) (s : State I O E) : Event I E → Prop
  | .wait _ => ∀ i ∈ w.first_done s.is_done,
    StartsClean (s.throws i) i w ∧ (s.throws i = none → s.raised i = none)
  | .timeout => ¬ (s.phase = .frozen ∧ s.timed)
  | .terminate => ¬ (s.phase = .frozen ∧ s._interruptible)
  | ev => s.SignalQuits w ev

/-- What the thread is to throw when it runs. -/
def pending (s : State I O E) : Option (Exn E) := if s._terminating then some .Terminate else none

/-- What holds as long as every wait that ended did so as it should. -/
structure Sound (w : Waitable I O) (s : State I O E) : Prop where
  alts : ∀ o, s._exception (.alt o) = none
  closed : Closed s
  timeout : s._timeout = false
  begins : s.phase = .before → s._terminating = false
  waits : s.phase = .frozen → Frozen w s ∧ (s._terminating → s._interruptible = false)
  unregistered : s.phase ≠ .frozen → ∀ r, s._waiters r = none
  raises : (∀ o, s.phase ≠ .ended o) → s.exception = s.pending
  woken : s.phase = .running → s.cause = some (.signal none)
  gave : ∀ o, s.phase = .ended o → o = s.expected

theorem sound_start (w : Waitable I O) (kind : I → Kind E) (_interruptible : Bool) :
    Sound w (start kind _interruptible) where
  alts _ := rfl
  closed := by simp [Closed, start]
  timeout := rfl
  begins _ := rfl
  waits h := by simp [start] at h
  unregistered _ _ := rfl
  raises _ := by simp [start, pending]
  woken h := by simp [start] at h
  gave o h := by simp [start] at h

theorem Sound.alike (h : Sound w s) (hsame : Alike s t) (hclosed : Closed t) : Sound w t := by
  have halts := hsame.alts
  obtain ⟨k, x, rfl⟩ : ∃ k x, t = { s with kind := k, _exception := x } := ⟨_, _, hsame.same⟩
  exact {
    alts := fun o => (halts o).trans (h.alts o)
    closed := hclosed
    timeout := h.timeout
    begins := h.begins
    waits := fun hphase =>
      ⟨⟨hphase, (h.waits hphase).1.waiters, (h.waits hphase).1.waited⟩, (h.waits hphase).2⟩
    unregistered := h.unregistered
    raises := h.raises
    woken := h.woken
    gave := h.gave }

theorem Sound.resume_phase (h : Sound w s) (hphase : s.phase = .running) :
    s.resume.phase = .ended s.expected := by
  have hraises := h.raises (by simp [hphase])
  have hwoken := h.woken hphase
  have htimeout := h.timeout
  unfold pending at hraises
  by_cases hterminating : s._terminating = true
  · simp only [hterminating, if_true] at hraises
    by_cases hinterruptible : s._interruptible = true
    · simp [resume, expected, hraises, hterminating, hinterruptible]
    · simp [resume, expected, hraises, hterminating, hinterruptible, hwoken, htimeout]
  · simp only [hterminating] at hraises
    simp [resume, expected, hraises, hterminating, hwoken, htimeout]

theorem Sound.ends (h : Sound w s) : Ends w s where
  unregistered hphase r _ := by
    refine h.unregistered ?_ r
    rcases hphase with hphase | ⟨o, hphase⟩ <;> simp [hphase]
  gives := h.resume_phase
  gave := h.gave

theorem Sound.signal_unnoticed (h : Sound w s) (hnot : ¬ (s.phase = .frozen ∧ i ∈ w.leaves))
    (fuel : Nat) : s._signal fuel i = s._raise i none := by
  refine signal_unregistered ?_
  by_cases hphase : s.phase = .frozen
  · have hmem : i ∉ w.leaves := fun hi => hnot ⟨hphase, hi⟩
    rw [(h.waits hphase).1.waiters, Waitable.waker_eq_none]
    exact fun hr => hmem (Waitable.mem_refs_leaves hr)
  · exact h.unregistered hphase _

theorem Sound.signal (hnodup : (Waitable.alt o a b).refs.Nodup) (h : Sound (.alt o a b) s)
    (hclean : s.phase = .frozen → i ∈ (Waitable.alt o a b).leaves →
      s._exception (.leaf i) = none ∧ (Waitable.alt o a b).signal_quits i) :
    Sound (.alt o a b) (s._signal (Waitable.alt o a b).height i) := by
  by_cases hwaits : s.phase = .frozen ∧ i ∈ (Waitable.alt o a b).leaves
  · obtain ⟨hphase, hi⟩ := hwaits
    obtain ⟨hexn, hquits⟩ := hclean hphase hi
    obtain ⟨hfrozen, hinterruptible⟩ := h.waits hphase
    have hgone := (signal_quits_iff hnodup hfrozen hi (h.alts o)).2 hquits
    have hraises := h.raises (by simp [hphase])
    rw [signal_registered hnodup hfrozen hi (h.alts o)] at hgone ⊢
    refine ⟨fun o' => ?_, fun j hj => ?_, h.timeout, by simp, by simp, fun _ => hgone,
      fun _ => hraises, fun _ => ?_, by simp⟩
    · dsimp only
      split
      · rfl
      · exact h.alts o'
    · dsimp only at hj
      split at hj
      · exact absurd rfl hj
      · exact h.closed j hj
    · simp [hexn]
  · rw [h.signal_unnoticed hwaits]
    exact h.alike (alike_raise _ _ _) (h.closed.raise (by simp))

omit [DecidableEq I] [DecidableEq O] in
theorem raised_of_throws {x : E} (h : s.throws i = some x) : s.raised i = some x := by
  unfold throws at h
  unfold raised
  split at h
  · next hkind => simpa [hkind] using h
  · cases h
  · cases h

/-- What a wait gives that does not freeze the thread. -/
def immediate (thrown : Option E) : Outcome E :=
  match thrown with
  | some e => .thrown (.error e)
  | none => .returned true

theorem wait_done (hnodup : (Waitable.alt o a b).refs.Nodup) (h : Sound (.alt o a b) s)
    (hphase : s.phase = .before) (timed : Bool)
    (hdone : (Waitable.alt o a b).first_done s.is_done = some i) :
    ∃ f, s.wait (.alt o a b) timed = { s with
        _waiters := f
        phase := .ended (immediate (s.throws i))
        cause := some (.signal (s.raised i)) } ∧
      (∀ r ∉ (Waitable.alt o a b).refs, f r = none) ∧
      ((∀ r ∈ (Waitable.alt o a b).refs, f r = none) ↔
        StartsClean (s.throws i) i (.alt o a b)) := by
  have hfree := h.unregistered (by simp [hphase])
  obtain ⟨f, hanswer, hout, hclean⟩ := _wait_done (k := .empty) hnodup (fun r _ => hfree r) hdone
  refine ⟨f, ?_, fun r hr => (hout r hr).trans (hfree r), hclean⟩
  unfold wait
  rw [hanswer, hdone]
  cases s.throws i with
  | some x => simp [answer, immediate]
  | none => simp [answer, immediate, Waitable.ref, h.alts o]

theorem wait_none (hnodup : (Waitable.alt o a b).refs.Nodup) (h : Sound (.alt o a b) s)
    (hphase : s.phase = .before) (timed : Bool)
    (hdone : (Waitable.alt o a b).first_done s.is_done = none) :
    s.wait (.alt o a b) timed = { s with
      _waiters := (Waitable.alt o a b).waker .empty
      _waited := [.alt o]
      phase := .frozen
      timed
      _timeout := false } := by
  have hfree := h.unregistered (by simp [hphase])
  unfold wait
  rw [_wait_none hnodup (fun r _ => hfree r) hdone]
  simp [registered, hfree, Waitable.ref]

theorem immediate_expected (h : Sound w s) (hphase : s.phase = .before)
    {f : Ref I O → Option (Waker I O)} {p : Phase E} :
    immediate (s.throws i) = expected { s with
      _waiters := f, phase := p, cause := some (.signal (s.raised i)) } ↔
      (s.throws i = none → s.raised i = none) := by
  have hterminating := h.begins hphase
  cases hthrows : s.throws i with
  | some x =>
    simp [immediate, expected, hterminating, raised_of_throws hthrows]
  | none =>
    cases hraised : s.raised i with
    | none => simp [immediate, expected, hterminating]
    | some x => simp [immediate, expected, hterminating]

theorem abort_registered (hnodup : (Waitable.alt o a b).refs.Nodup)
    (h : Frozen (.alt o a b) s) : s._wait_abort._waiters a.ref ≠ none := by
  obtain ⟨-, -, hnot, -, -⟩ := Waitable.nodup_sides hnodup
  have hne : a.ref ≠ .alt o := fun heq => hnot (heq ▸ Waitable.ref_mem a)
  have hmem : a.ref ∈ (Waitable.alt o a b).refs := by simp [Waitable.refs, Waitable.ref_mem]
  have hwaited : s._waited = [.alt o] := h.waited
  have hroot : (s._waiters (.alt o)).isSome := by
    rw [h.waiters, Option.isSome_iff_ne_none]
    exact fun heq => Waitable.waker_eq_none.1 heq (Waitable.ref_mem (.alt o a b))
  simp only [_wait_abort, hwaited, List.foldl_cons, List.foldl_nil, _unwait, hroot, if_true,
    Function.update_of_ne hne]
  rw [h.waiters]
  exact fun heq => Waitable.waker_eq_none.1 heq hmem

theorem Sound.waited (hnodup : (Waitable.alt o a b).refs.Nodup) (h : Sound (.alt o a b) s)
    (hphase : s.phase = .before) (timed : Bool)
    (hclean : GivesUp (.alt o a b) s (.wait timed)) :
    Sound (.alt o a b) (s.wait (.alt o a b) timed) := by
  have hraises := h.raises (by simp [hphase])
  have hterminating := h.begins hphase
  cases hdone : (Waitable.alt o a b).first_done s.is_done with
  | none =>
    rw [wait_none hnodup h hphase timed hdone]
    refine ⟨h.alts, h.closed, rfl, by simp, fun _ => ⟨⟨rfl, fun _ => rfl, rfl⟩, ?_⟩, by simp,
      fun _ => hraises, by simp, by simp⟩
    simp [hterminating]
  | some i =>
    obtain ⟨f, heq, hout, hquits⟩ := wait_done hnodup h hphase timed hdone
    obtain ⟨hstarts, hraised⟩ := hclean i hdone
    have hgone := hquits.2 hstarts
    rw [heq]
    refine ⟨h.alts, h.closed, h.timeout, by simp, by simp, fun _ r => ?_, ?_, by simp, ?_⟩
    · by_cases hr : r ∈ (Waitable.alt o a b).refs
      · exact hgone r hr
      · exact hout r hr
    · simp
    · intro p hp
      injection hp with hp
      rw [← hp]
      exact (immediate_expected h hphase).2 hraised

theorem Sound.terminated (h : Sound w s) (hphase : s.phase = .frozen ∨ s.phase = .running)
    (hclean : ¬ (s.phase = .frozen ∧ s._interruptible)) :
    Sound w { s with _terminating := true, exception := some .Terminate } := by
  refine { h with begins := ?_, waits := fun hfrozen => ?_, raises := fun _ => ?_, gave := ?_ }
  · intro hbefore
    rcases hphase with hphase | hphase <;> simp [hphase] at hbefore
  · obtain ⟨hwaits, -⟩ := h.waits hfrozen
    refine ⟨⟨hfrozen, hwaits.waiters, hwaits.waited⟩, fun _ => ?_⟩
    by_contra hinterruptible
    exact hclean ⟨hfrozen, by simpa using hinterruptible⟩
  · simp [pending]
  · intro p hover
    rcases hphase with hphase | hphase <;> simp [hphase] at hover

theorem Sound.resumed (h : Sound w s) (hphase : s.phase = .running) : Sound w s.resume := by
  have hover := h.resume_phase hphase
  have hrest : s.resume = { s with
      phase := .ended s.expected, exception := s.resume.exception } := by
    rw [← hover]
    unfold State.resume
    split
    · split <;> rfl
    · rfl
    · rfl
  rw [hrest]
  refine ⟨h.alts, h.closed, h.timeout, by simp, by simp,
    fun _ => h.unregistered (by simp [hphase]), by simp, by simp, ?_⟩
  intro p hp
  injection hp with hp
  exact hp.symm

variable [DecidableEq E]

theorem Sound.step (hnodup : (Waitable.alt o a b).refs.Nodup) (h : Sound (.alt o a b) s)
    (hclean : GivesUp (.alt o a b) s ev) (hs : s.step (.alt o a b) ev = some s') :
    Sound (.alt o a b) s' := by
  by_cases hev : ev.changes = true
  · cases hsignalled : s.signalled ev with
    | none =>
      obtain ⟨halike, hclosed⟩ := step_quiet h.closed hev hsignalled hs
      exact h.alike halike hclosed
    | some p =>
      obtain ⟨t, u, halike, hclosed, hexn, hu, halike', hclosed'⟩ :=
        step_signals (w := .alt o a b) h.closed hsignalled
      rw [hu, Option.some.injEq] at hs
      subst hs
      have hphase : t.phase = s.phase := by rw [halike.same]
      have hclean' : t.phase = .frozen → p.1 ∈ (Waitable.alt o a b).leaves →
          t._exception (.leaf p.1) = none ∧ (Waitable.alt o a b).signal_quits p.1 := by
        rw [hphase, hexn]
        cases ev with
        | wait _ | timeout | terminate | resume => cases hev
        | _ => exact hclean p hsignalled
      have hsound := (h.alike halike hclosed).signal hnodup hclean'
      exact hsound.alike halike' (hclosed' hsound.closed)
  · cases ev with
    | wait timed =>
      simp only [State.step, Option.ite_none_right_eq_some, Option.some.injEq] at hs
      obtain ⟨hphase, rfl⟩ := hs
      exact h.waited hnodup hphase timed hclean
    | timeout =>
      simp only [State.step, Option.ite_none_right_eq_some] at hs
      exact absurd hs.1 hclean
    | terminate =>
      simp only [State.step] at hs
      split at hs
      · cases hs
      · split at hs
        · next hends => exact absurd hends hclean
        · split at hs
          · next hphase =>
            injection hs with hs
            exact hs ▸ h.terminated hphase hclean
          · cases hs
    | resume =>
      simp only [State.step, Option.ite_none_right_eq_some, Option.some.injEq] at hs
      obtain ⟨hphase, rfl⟩ := hs
      exact h.resumed hphase
    | _ => exact absurd rfl hev

omit [DecidableEq E] in
theorem not_ends_abort (hnodup : (Waitable.alt o a b).refs.Nodup)
    (h : Frozen (.alt o a b) s) {c : Option (Cause E)} :
    ¬ Ends (.alt o a b) { s._wait_abort with cause := c } := by
  intro hends
  have hmem : a.ref ∈ (Waitable.alt o a b).refs := by simp [Waitable.refs, Waitable.ref_mem]
  exact abort_registered hnodup h (hends.unregistered (.inl rfl) _ hmem)

omit [DecidableEq E] in
theorem Sound.not_ends_signal (hnodup : (Waitable.alt o a b).refs.Nodup)
    (h : Sound (.alt o a b) s) (hphase : s.phase = .frozen)
    (hi : i ∈ (Waitable.alt o a b).leaves)
    (hbad : ¬ (s._exception (.leaf i) = none ∧ (Waitable.alt o a b).signal_quits i))
    (halike : Alike (s._signal (Waitable.alt o a b).height i) t) : ¬ Ends (.alt o a b) t := by
  intro hends
  obtain ⟨hfrozen, hinterruptible⟩ := h.waits hphase
  have hquits := signal_quits_iff hnodup hfrozen hi (h.alts o)
  have hsame := halike.same
  obtain ⟨k, x, rfl⟩ : ∃ k x, t = { s._signal (Waitable.alt o a b).height i with
      kind := k, _exception := x } := ⟨_, _, hsame⟩
  have hsignal := signal_registered hnodup hfrozen hi (h.alts o)
  have hrunning : (s._signal (Waitable.alt o a b).height i).phase = .running := by rw [hsignal]
  have hgone : (Waitable.alt o a b).signal_quits i := by
    refine hquits.1 fun r => ?_
    by_cases hr : r ∈ (Waitable.alt o a b).refs
    · exact hends.unregistered (.inl hrunning) r hr
    · have hnone : (Waitable.alt o a b).waker .empty r = none := Waitable.waker_eq_none.2 hr
      simp [hsignal, hfrozen.waiters, hnone]
  have hgives := hends.gives hrunning
  have hraises := h.raises (by simp [hphase])
  rw [hsignal] at hgives
  cases hexn : s._exception (.leaf i) with
  | none => exact hbad ⟨hexn, hgone⟩
  | some x =>
    unfold pending at hraises
    by_cases hterminating : s._terminating = true
    · have hnot := hinterruptible hterminating
      simp [resume, expected, hraises, hterminating, hnot, hexn] at hgives
    · simp [resume, expected, hraises, hterminating, hexn] at hgives

omit [DecidableEq E] in
theorem Sound.not_ends_wait (hnodup : (Waitable.alt o a b).refs.Nodup)
    (h : Sound (.alt o a b) s) (hphase : s.phase = .before) (timed : Bool)
    (hbad : ¬ GivesUp (.alt o a b) s (.wait timed)) :
    ¬ Ends (.alt o a b) (s.wait (.alt o a b) timed) := by
  intro hends
  refine hbad fun i hdone => ?_
  obtain ⟨f, heq, -, hquits⟩ := wait_done hnodup h hphase timed hdone
  rw [heq] at hends
  have hgone := hends.unregistered (.inr ⟨_, rfl⟩)
  exact ⟨hquits.1 hgone, (immediate_expected h hphase).1 (hends.gave _ rfl)⟩

theorem Sound.not_ends (hnodup : (Waitable.alt o a b).refs.Nodup) (h : Sound (.alt o a b) s)
    (hbad : ¬ GivesUp (.alt o a b) s ev) (hs : s.step (.alt o a b) ev = some s') :
    ¬ Ends (.alt o a b) s' := by
  by_cases hev : ev.changes = true
  · have hsignals : ∃ p ∈ s.signalled ev, s.phase = .frozen ∧
        p.1 ∈ (Waitable.alt o a b).leaves ∧
        ¬ (p.2 = none ∧ (Waitable.alt o a b).signal_quits p.1) := by
      by_contra hnone
      push Not at hnone
      cases ev with
      | wait _ | timeout | terminate | resume => cases hev
      | _ => exact hbad hnone
    obtain ⟨p, hsignalled, hphase, hi, hnot⟩ := hsignals
    obtain ⟨t, u, halike, hclosed, hexn, hu, halike', -⟩ :=
      step_signals (w := .alt o a b) h.closed hsignalled
    rw [hu, Option.some.injEq] at hs
    subst hs
    have hphase' : t.phase = .frozen := by rw [halike.same, hphase]
    rw [← hexn] at hnot
    exact (h.alike halike hclosed).not_ends_signal hnodup hphase' hi hnot halike'
  · cases ev with
    | wait timed =>
      simp only [State.step, Option.ite_none_right_eq_some, Option.some.injEq] at hs
      obtain ⟨hphase, rfl⟩ := hs
      exact h.not_ends_wait hnodup hphase timed hbad
    | timeout =>
      simp only [State.step, Option.ite_none_right_eq_some, Option.some.injEq] at hs
      obtain ⟨⟨hphase, -⟩, rfl⟩ := hs
      obtain ⟨hwaits, -⟩ := h.waits hphase
      have hfrozen : Frozen (.alt o a b) { s with _timeout := true } :=
        ⟨hphase, hwaits.waiters, hwaits.waited⟩
      exact not_ends_abort hnodup hfrozen
    | terminate =>
      obtain ⟨hphase, hinterruptible⟩ := not_not.1 hbad
      simp only [State.step] at hs
      split at hs
      · cases hs
      · rw [if_pos ⟨hphase, hinterruptible⟩, Option.some.injEq] at hs
        subst hs
        obtain ⟨hwaits, -⟩ := h.waits hphase
        have hfrozen : Frozen (.alt o a b)
            { s with _terminating := true, exception := some .Terminate } :=
          ⟨hphase, hwaits.waiters, hwaits.waited⟩
        exact not_ends_abort hnodup hfrozen
    | resume => exact absurd (fun p hp => by cases hp) hbad
    | _ => exact absurd rfl hev

/-- A wait on an alternative of two waitables returns if it was signalled, throws what it was
raised with, and leaves the thread registered nowhere, as long as every event that ends it gives
up the rest. -/
theorem waits_end_iff {kind : I → Kind E} {_interruptible : Bool} {as : List (Event I E)}
    (hnodup : (Waitable.alt o a b).refs.Nodup)
    (hrun : Run (State.step (.alt o a b)) anyStep (start kind _interruptible) as s) :
    (∀ done t, done <+: as →
      Run (State.step (.alt o a b)) anyStep (start kind _interruptible) done t →
      Ends (.alt o a b) t) ↔
    Run (State.step (.alt o a b)) (GivesUp (.alt o a b)) (start kind _interruptible) as s :=
  Run.always_iff hrun (sound_start _ _ _) (fun _ h => h.ends)
    (fun _ _ _ h hclean hs => h.step hnodup hclean hs)
    (fun _ _ _ h _ hbad hs => h.not_ends hnodup hbad hs)

end State

section

variable [DecidableEq I]

instance Waitable.decidable_signal_quits (i : I) :
    (w : Waitable I O) → Decidable (w.signal_quits i)
  | .leaf _ => isTrue trivial
  | .alt _ lhs rhs =>
    have := decidable_signal_quits i lhs
    have := decidable_signal_quits i rhs
    inferInstanceAs (Decidable (if i ∈ lhs.leaves then lhs.signal_quits i ∧ rhs.isLeaf
      else rhs.signal_quits i ∧ lhs.isLeaf))

instance Waitable.decidable_done_quits (i : I) :
    (w : Waitable I O) → Decidable (w.done_quits i)
  | .leaf _ => isTrue trivial
  | .alt _ lhs rhs =>
    have := decidable_done_quits i lhs
    have := decidable_done_quits i rhs
    inferInstanceAs (Decidable (if i ∈ lhs.leaves then lhs.done_quits i
      else rhs.done_quits i ∧ lhs.isLeaf))

instance Waitable.decidable_leftmost (i : I) :
    (w : Waitable I O) → Decidable (w.leftmost i)
  | .leaf _ => isTrue trivial
  | .alt _ lhs _ =>
    have := decidable_leftmost i lhs
    inferInstanceAs (Decidable (i ∈ lhs.leaves ∧ lhs.leftmost i))

namespace State

instance (i : I) (w : Waitable I O) : (thrown : Option E) → Decidable (StartsClean thrown i w)
  | some _ => inferInstanceAs (Decidable (w.leftmost i))
  | none => inferInstanceAs (Decidable (w.done_quits i))

instance [DecidableEq E] (w : Waitable I O) (s : State I O E) (ev : Event I E) :
    Decidable (s.SignalQuits w ev) :=
  inferInstanceAs (Decidable (∀ p ∈ s.signalled ev, s.phase = .frozen → p.1 ∈ w.leaves →
    p.2 = none ∧ w.signal_quits p.1))

instance [DecidableEq E] (w : Waitable I O) (s : State I O E) :
    (ev : Event I E) → Decidable (s.GivesUp w ev)
  | .wait _ => inferInstanceAs (Decidable (∀ i ∈ w.first_done s.is_done,
    StartsClean (s.throws i) i w ∧ (s.throws i = none → s.raised i = none)))
  | .timeout => inferInstanceAs (Decidable (¬ (s.phase = .frozen ∧ s.timed)))
  | .terminate => inferInstanceAs (Decidable (¬ (s.phase = .frozen ∧ s._interruptible)))
  | .resume | .open _ | .close _ | .raise _ _ | .acquire _ | .release _ | .finish _ _ =>
    inferInstanceAs (Decidable (s.SignalQuits w _))

/-- One of two barriers is opened while a thread waits on both. -/
theorem an_open_barrier_ends_a_wait :
    ∃ (as : List (Event Nat Unit)) (s : State Nat Nat Unit),
      Run (State.step (.alt 0 (.leaf 0) (.leaf 1))) anyStep (start (fun _ => .barrier false) true)
        as s ∧ s.phase = .ended (.returned true) ∧ Ends (.alt 0 (.leaf 0) (.leaf 1)) s := by
  have hrun : ((exec (State.step (E := Unit) (.alt 0 (.leaf 0) (.leaf 1)))
      (GivesUp (.alt 0 (.leaf 0) (.leaf 1))) (start (fun _ => .barrier false) true)
      [.wait true, .open 1, .open 0, .resume]).map fun s => s.phase) =
        some (.ended (.returned true)) := by
    decide +kernel
  obtain ⟨s, hclean, hphase⟩ := Run.of_exec_map hrun
  have hany : Run (State.step (.alt 0 (.leaf 0) (.leaf 1))) anyStep
      (start (fun _ => .barrier false) true) _ s := hclean.mono fun _ _ _ => trivial
  exact ⟨_, s, hany, hphase, (waits_end_iff (by decide) hany).2 hclean _ s List.prefix_rfl hany⟩

/-- A timeout leaves the thread registered with both barriers. -/
theorem a_timeout_leaves_a_thread_registered :
    ∃ (as : List (Event Nat Unit)) (s : State Nat Nat Unit),
      Run (State.step (.alt 0 (.leaf 0) (.leaf 1))) anyStep (start (fun _ => .barrier false) true)
        as s ∧ s.phase = .ended (.returned false) ∧
        s._waiters (.leaf 0) = some (.cancel (.leaf 1) 0) ∧
        s._waiters (.leaf 1) = some (.cancel (.leaf 0) 0) ∧
        ¬ Ends (.alt 0 (.leaf 0) (.leaf 1)) s := by
  have hrun : ((exec (State.step (E := Unit) (.alt 0 (.leaf 0) (.leaf 1))) anyStep
      (start (fun _ => .barrier false) true) [.wait true, .timeout, .resume]).map fun s =>
        (s.phase, s._waiters (.leaf 0), s._waiters (.leaf 1))) =
        some (.ended (.returned false), some (.cancel (.leaf 1) 0),
          some (.cancel (.leaf 0) 0)) := by
    decide +kernel
  obtain ⟨s, hany, hvalues⟩ := Run.of_exec_map hrun
  simp only [Prod.mk.injEq] at hvalues
  obtain ⟨hphase, hleft, hright⟩ := hvalues
  refine ⟨_, s, hany, hphase, hleft, hright, fun hends => ?_⟩
  have hnone := hends.unregistered (.inr ⟨_, hphase⟩) (.leaf 0) (by decide)
  rw [hleft] at hnone
  cases hnone

end State

end

end elle.reactor.alternatives
