-- How threads end, and what each action keeps of the invariant of a reactor:
-- all of it, when the list of each wait is orderly.
import Memo.ReactorSound

namespace elle.reactor

variable {T W E : Type} [DecidableEq T]

namespace Scheduler

variable {s s' : Scheduler T W E} {t u : T} {w w' : Ref T W} {v : W}
variable {th : Thread T W E} {x : Waitable T E} {ending : Option T}

/-! ## The end of a thread -/

theorem Linked.setThread (h : s.Linked) (hwaited : th._waited = (s.thread t)._waited) :
    (s.setThread t th).Linked := by
  have hsame : ∀ u, ((s.setThread t th).thread u)._waited = (s.thread u)._waited := by
    intro u
    by_cases hu : u = t
    · subst hu
      simp [hwaited]
    · simp [hu]
  exact ⟨fun u w => (hsame u).symm ▸ h.registered u w, h.waiters_nodup,
    fun u => (hsame u).symm ▸ h.waited_nodup u⟩

omit [DecidableEq T] in
theorem Sound.waited_nil (h : s.Sound ending) (ht : (s.thread t)._state ≠ .frozen) :
    (s.thread t)._waited = [] := by
  by_contra hne
  exact ht ((h.waits t).mpr hne)

theorem Sound.waits_setThread (h : s.Sound ending) (ht : (s.thread t)._state ≠ .frozen)
    (hstate : th._state ≠ .frozen) (hwaited : th._waited = (s.thread t)._waited) (u : T) :
    (s.setThread t th).Waits u := by
  by_cases hu : u = t
  · subst hu
    simp [Waits, hwaited, h.waited_nil ht, hstate]
  · simpa [Waits, hu] using h.waits u

/-- A thread that did not start is discarded. -/
def drop_starting (s : Scheduler T W E) (t : T) : Scheduler T W E :=
  { s with _starting := s._starting.erase t }.setThread t { s.thread t with _state := .done }

theorem Sound.drop_starting (h : s.Sound ending) (ht : t ∈ s._starting) :
    (s.drop_starting t).Sound ending := by
  obtain ⟨hstate, hnot⟩ := h.placed.starting t ht
  have hl : (s.setThread t { s.thread t with _state := .done }).Linked := h.linked.setThread rfl
  refine ⟨⟨h.placed.unbroken, ?_, ?_, ?_, ?_, h.placed.starting_nodup.erase t,
      h.placed.running_nodup, h.placed.frozen_nodup, h.placed.current, ?_⟩,
    { hl with },
    h.waits_setThread (by simp [hstate]) (by simp) rfl⟩
  · intro u hu
    have hu' := (h.placed.starting_nodup.mem_erase_iff (a := u) (b := t)).mp hu
    simpa [Scheduler.drop_starting, hu'.1] using h.placed.starting u hu'.2
  · intro u hu
    have hut : u ≠ t := fun he => hnot (he ▸ hu)
    simpa [Scheduler.drop_starting, hut] using h.placed.running u hu
  · intro u hu
    by_cases hut : u = t
    · subst hut
      simp [Scheduler.drop_starting] at hu
    · simpa [Scheduler.drop_starting, hut, List.mem_erase_of_ne hut] using
        h.placed.active u (by simpa [Scheduler.drop_starting, hut] using hu)
  · intro u
    by_cases hut : u = t
    · subst hut
      simpa [Scheduler.drop_starting, hstate] using h.placed.frozen u
    · simpa [Scheduler.drop_starting, hut] using h.placed.frozen u
  · intro u hu
    by_cases hut : u = t
    · subst hut
      simp [Scheduler.drop_starting]
    · simpa [Scheduler.drop_starting, hut] using h.placed.ended u hu

theorem terminate_starting [DecidableEq W] (hc : s._current ≠ some t) (ht : t ∈ s._starting) :
    s._terminate t = (s.drop_starting t)._signal (.thread t) := by
  rw [_terminate, if_neg hc, if_pos ht]
  rfl

/-- The thread that was told to terminate, before its wait is aborted. -/
def told (s : Scheduler T W E) (t : T) : Scheduler T W E :=
  s.setThread t { s.thread t with _terminating := true, _exception := some (.Terminate t) }

theorem Sound.told (h : s.Sound ending) : (s.told t).Sound ending :=
  h.setThread rfl rfl

variable [DecidableEq W]

theorem terminate_started (hl : s.Linked) (hc : s._current ≠ some t) (ht : t ∉ s._starting) :
    s._terminate t = if (s.thread t)._terminating then s
      else if (s.thread t)._state = .frozen ∧ (s.thread t)._interruptible then
        (s.told t)._wait_abort t
      else s.told t := by
  have hraise : (s.setThread t { s.thread t with _terminating := true }).raise t (.Terminate t) =
      s.told t := by
    simp [raise, told, Scheduler.setThread]
  have htold : (s.told t).thread t =
      { s.thread t with _terminating := true, _exception := some (.Terminate t) } := by
    simp [told]
  rw [_terminate, if_neg hc, if_neg ht]
  simp only [hraise, htold]
  split_ifs with _ hfrozen
  · rfl
  · rw [assert_eq_self]
    have hl' : (s.told t).Linked := hl.setThread rfl
    rw [wait_abort_eq hl' (by simpa [htold] using hfrozen.1)]
    simp [Thread.aborted]
  · rfl

theorem Sound._terminate (h : s.Sound ending) : (s._terminate t).Sound ending := by
  by_cases hc : s._current = some t
  · rwa [Scheduler._terminate, if_pos hc]
  · by_cases ht : t ∈ s._starting
    · rw [terminate_starting hc ht]
      exact (h.drop_starting ht)._signal
    · rw [terminate_started h.linked hc ht]
      split_ifs with _ hfrozen
      · exact h
      · exact h.told._wait_abort (by simpa [Scheduler.told] using hfrozen.1)
      · exact h.told

variable {e : Option (Exn T E)} {l : List T}

theorem Sound.terminate_list (h : s.Sound ending) :
    (l.foldl Scheduler._terminate s).Sound ending := by
  induction l generalizing s with
  | nil => exact h
  | cons t l ih => exact ih h._terminate

omit [DecidableEq W] in
theorem discard_eq : s.discard = { s with
    thread := fun t =>
      if t ∈ s._starting then { s.thread t with _state := .done } else s.thread t
    _starting := [] } := by
  have hfold : ∀ l : List T, ∀ s : Scheduler T W E,
      l.foldl (fun s t => s.setThread t { s.thread t with _state := .done }) s = { s with
        thread := fun t => if t ∈ l then { s.thread t with _state := .done } else s.thread t } := by
    intro l
    induction l with
    | nil => simp
    | cons t l ih =>
      intro s
      rw [List.foldl_cons, ih]
      simp only [Scheduler.setThread, Scheduler.mk.injEq, and_true]
      funext u
      by_cases hu : u = t
      · subst hu
        simp
      · simp [hu]
  rw [discard, hfold]

omit [DecidableEq W] in
theorem Sound.discard (h : s.Sound ending) : s.discard.Sound ending := by
  have hstate : ∀ u ∈ s._starting, (s.thread u)._state = .running := fun u hu =>
    (h.placed.starting u hu).1
  rw [discard_eq]
  refine ⟨⟨h.placed.unbroken, ?_, ?_, ?_, ?_, List.nodup_nil, h.placed.running_nodup,
      h.placed.frozen_nodup, h.placed.current, ?_⟩, ⟨?_, h.linked.waiters_nodup, ?_⟩, ?_⟩
  · simp
  · intro u hu
    have hnot : u ∉ s._starting := fun hm => (h.placed.starting u hm).2 hu
    simpa [hnot] using h.placed.running u hu
  · intro u hu
    by_cases hm : u ∈ s._starting
    · simp [hm] at hu
    · simpa [hm] using h.placed.active u (by simpa [hm] using hu)
  · intro u
    by_cases hm : u ∈ s._starting
    · simpa [hm, hstate u hm] using h.placed.frozen u
    · simpa [hm] using h.placed.frozen u
  · intro u hu
    by_cases hm : u ∈ s._starting
    · simp [hm]
    · simpa [hm] using h.placed.ended u hu
  · intro u w
    by_cases hm : u ∈ s._starting <;> simpa [hm] using h.linked.registered u w
  · intro u
    by_cases hm : u ∈ s._starting <;> simpa [hm] using h.linked.waited_nodup u
  · intro u
    by_cases hm : u ∈ s._starting
    · simp [Waits, hm, h.waited_nil (t := u) (by simp [hstate u hm])]
    · simpa [Waits, hm] using h.waits u

theorem Sound.terminate (h : s.Sound ending) : s.terminate.Sound ending :=
  h.discard.terminate_list.terminate_list

theorem Sound.setWaitable (h : s.Sound ending) (hx : x._waiters = (s.waitable w)._waiters) :
    (s.setWaitable w x).Sound ending := by
  have hsame : ∀ w', ((s.setWaitable w x).waitable w')._waiters = (s.waitable w')._waiters := by
    intro w'
    by_cases hw : w' = w
    · subst hw
      simp [hx]
    · simp [hw]
  exact ⟨h.placed.same (fun _ => rfl) rfl rfl rfl rfl rfl,
    ⟨fun u w' => (hsame w').symm ▸ h.linked.registered u w',
      fun w' => (hsame w').symm ▸ h.linked.waiters_nodup w', h.linked.waited_nodup⟩, h.waits⟩

theorem Sound._raise (h : s.Sound ending) : (s._raise w e).Sound ending :=
  h.setWaitable rfl

/-- The thread whose action ended. -/
def halted (s : Scheduler T W E) (t : T) (e : Option (Exn T E)) : Scheduler T W E :=
  s.setThread t { s.thread t with _state := .done, _exception_thrown := escaped e }

omit [DecidableEq W] in
theorem Sound.halted (h : s.Sound none) (ht : s._current = some t) :
    (s.halted t e).Sound (some t) := by
  have hmem := h.placed.current t ht
  have hstate : (s.thread t)._state = .running := by simpa using h.placed.running t hmem
  refine ⟨{ h.placed with
      starting := ?_
      running := ?_
      active := ?_
      frozen := ?_
      ended := ?_ }, h.linked.setThread rfl,
    h.waits_setThread (by simp [hstate]) (by simp) rfl⟩
  · intro u hu
    have hstart := h.placed.starting u hu
    have hut : u ≠ t := fun he => hstart.2 (he ▸ hmem)
    simpa [Scheduler.halted, hut] using hstart
  · intro u hu
    by_cases hut : u = t
    · simp [hut]
    · exact Or.inl (by simpa [Scheduler.halted, hut] using h.placed.running u hu)
  · intro u hu
    by_cases hut : u = t
    · subst hut
      simp [Scheduler.halted] at hu
    · exact h.placed.active u (by simpa [Scheduler.halted, hut] using hu)
  · intro u
    by_cases hut : u = t
    · subst hut
      simpa [Scheduler.halted, hstate] using h.placed.frozen u
    · simpa [Scheduler.halted, hut] using h.placed.frozen u
  · intro u hu
    obtain rfl : t = u := Option.some.inj hu
    simp [Scheduler.halted]

theorem closing_eq (e : Option (Exn T E)) : s.closing t e =
    if (s.thread t)._managed && (escaped e).isSome then
      (s.halted t e)._raise (.thread t) (escaped e) else s.halted t e := rfl

theorem Sound.closing (h : s.Sound none) (ht : s._current = some t) :
    (s.closing t e).Sound (some t) := by
  rw [closing_eq]
  split_ifs
  · exact (h.halted ht)._raise
  · exact h.halted ht

theorem Sound.ended (h : s.Sound none) (ht : s._current = some t) :
    (s.ended t e).Sound (some t) :=
  (h.closing ht)._signal

omit [DecidableEq T] [DecidableEq W] in
theorem Sound.leave (h : s.Sound ending) : { s with _current := none }.Sound ending :=
  ⟨{ h.placed with current := by simp }, { h.linked with }, h.waits⟩

omit [DecidableEq W] in
theorem Sound.erase (h : s.Sound (some t)) (hc : s._current = none) :
    { s with _running := s._running.erase t }.Sound none := by
  have hdone := h.placed.ended t rfl
  have hmem : ∀ u, u ∈ s._running.erase t ↔ u ≠ t ∧ u ∈ s._running := fun u =>
    h.placed.running_nodup.mem_erase_iff
  refine ⟨{ h.placed with
    starting := fun u hu => ?_, running := fun u hu => ?_, active := fun u hu => ?_,
    running_nodup := h.placed.running_nodup.erase t, current := by simp [hc],
    ended := by simp }, { h.linked with },
    h.waits⟩
  · exact (h.placed.starting u hu).imp_right fun hnot hu => hnot ((hmem u).mp hu).2
  · obtain ⟨hut, hu⟩ := (hmem u).mp hu
    exact Or.inl ((h.placed.running u hu).resolve_right fun he => hut (Option.some.inj he).symm)
  · have hut : u ≠ t := fun he => by
      subst he
      simp [hdone] at hu
    exact (h.placed.active u hu).imp_right fun hm => (hmem u).mpr ⟨hut, hm⟩

theorem signal_current : (s._signal w)._current = s._current := by
  have hall : ∀ (s : Scheduler T W E) w, (s.wake_all w)._current = s._current :=
    fun s w => wake_all_rest.2.2
  have hslot : ∀ (s : Scheduler T W E) t, (s.on_signaled t)._current = s._current := by
    intro s t
    unfold on_signaled
    split
    · rfl
    · split
      · dsimp only
        split_ifs
        · exact hall _ _
        · rfl
      · rfl
  cases w with
  | thread t => exact (hslot _ t).trans (hall s _)
  | other v => exact hall s _

theorem unwait_all_rest : (s.unwait_all t)._current = s._current ∧
    (s.unwait_all t)._starting = s._starting ∧ (s.unwait_all t).kind = s.kind := by
  have hfold : ∀ (l : List (Ref T W)) (s : Scheduler T W E),
      (l.foldl (fun s w => s._unwait t w) s)._current = s._current ∧
      (l.foldl (fun s w => s._unwait t w) s)._starting = s._starting ∧
      (l.foldl (fun s w => s._unwait t w) s).kind = s.kind := by
    intro l
    induction l with
    | nil => exact fun _ => ⟨rfl, rfl, rfl⟩
    | cons w l ih => exact fun s => ih (s._unwait t w)
  exact hfold _ s

theorem terminate_one_current : (s._terminate t)._current = s._current := by
  have habort : ∀ s : Scheduler T W E, (s._wait_abort t)._current = s._current :=
    fun s => (unwait_all_rest (s := s.assert _)).1
  unfold _terminate
  dsimp only
  split_ifs
  · rfl
  · exact signal_current
  · rfl
  · exact habort _
  · rfl

theorem terminate_list_current (l : List T) :
    (l.foldl Scheduler._terminate s)._current = s._current := by
  induction l generalizing s with
  | nil => rfl
  | cons t l ih => exact ih.trans terminate_one_current

theorem terminate_current : s.terminate._current = s._current := by
  have hdiscard : s.discard._current = s._current := by rw [discard_eq]
  exact (terminate_list_current _).trans ((terminate_list_current _).trans hdiscard)

theorem Sound.finish (h : s.Sound none) (ht : s._current = some t) :
    (s.finish t e).Sound none := by
  have hleave := (h.ended (e := e) ht).leave
  unfold Scheduler.finish
  dsimp only
  split_ifs
  · exact hleave.terminate.erase terminate_current
  · exact hleave.erase rfl

/-! ## The other operations -/

theorem Sound.create {m : Bool} {j : Option W} (h : s.Sound none) :
    (s.create t m j).Sound none := by
  unfold Scheduler.create
  split_ifs with hdone
  · obtain ⟨hdone, hempty⟩ := hdone
    have hnot : t ∉ s._running := fun hm => by simpa [hdone] using h.placed.running t hm
    have hnot' : t ∉ s._starting := fun hm => by simpa [hdone] using h.placed.starting t hm
    have hwaited := h.waited_nil (t := t) (by simp [hdone])
    set s' : Scheduler T W E :=
      { (s.setThread t { _managed := m, _state := .running, job := j }).setWaitable (.thread t) {}
        with _starting := s._starting.insert t } with hs'
    have hsound : s'.Sound none := by
      refine ⟨⟨h.placed.unbroken, ?_, ?_, ?_, ?_, List.Nodup.insert h.placed.starting_nodup,
        h.placed.running_nodup, h.placed.frozen_nodup, h.placed.current, by simp⟩,
        ⟨?_, ?_, ?_⟩, ?_⟩
      · intro u hu
        by_cases hut : u = t
        · subst hut
          simp [hs', hnot]
        · have hu' := (List.mem_insert_iff.mp hu).resolve_left hut
          simpa [hs', hut] using h.placed.starting u hu'
      · intro u hu
        have hut : u ≠ t := fun he => hnot (he ▸ hu)
        simpa [hs', hut] using h.placed.running u hu
      · intro u hu
        by_cases hut : u = t
        · simp [hs', hut, List.mem_insert_iff]
        · simpa [hs', hut, List.mem_insert_iff] using
            h.placed.active u (by simpa [hs', hut] using hu)
      · intro u
        by_cases hut : u = t
        · subst hut
          simpa [hs', hdone] using h.placed.frozen u
        · simpa [hs', hut] using h.placed.frozen u
      · intro u w
        have hcases := h.linked.registered u w
        by_cases hw : w = .thread t <;> by_cases hut : u = t
        · subst hw hut
          simp [hs']
        · subst hw
          simpa [hs', hut, hempty] using hcases
        · subst hut
          simpa [hs', hw, hwaited] using hcases
        · simpa [hs', hw, hut] using hcases
      · intro w
        by_cases hw : w = .thread t
        · simp [hs', hw]
        · simpa [hs', hw] using h.linked.waiters_nodup w
      · intro u
        by_cases hut : u = t
        · simp [hs', hut]
        · simpa [hs', hut] using h.linked.waited_nodup u
      · intro u
        by_cases hut : u = t
        · simp [Waits, hs', hut]
        · simpa [Waits, hs', hut] using h.waits u
    dsimp only
    split
    · exact hsound
    · split
      · exact hsound.setKind
      · exact hsound
  · exact h

omit [DecidableEq W] in
theorem Sound.round (h : s.Sound none) : s.round.Sound none := by
  have hmem : ∀ u, u ∈ s._running ∪ s._starting ↔ u ∈ s._running ∨ u ∈ s._starting :=
    fun u => List.mem_union_iff
  refine ⟨{ h.placed with
    starting := by simp [Scheduler.round], running := fun u hu => ?_, active := fun u hu => ?_,
    starting_nodup := List.nodup_nil,
    running_nodup := List.Nodup.union _ h.placed.starting_nodup,
    current := fun u hu => (hmem u).mpr (Or.inl (h.placed.current u hu)) },
    { h.linked with }, h.waits⟩
  · exact ((hmem u).mp hu).elim (h.placed.running u) fun hs => Or.inl (h.placed.starting u hs).1
  · exact Or.inr ((hmem u).mpr (h.placed.active u hu).symm)

omit [DecidableEq T] [DecidableEq W] in
theorem Sound.enter (h : s.Sound ending) (ht : t ∈ s._running) :
    { s with _current := some t }.Sound ending :=
  ⟨{ h.placed with current := fun _ hu => Option.some.inj hu ▸ ht },
    { h.linked with }, h.waits⟩

omit [DecidableEq W] in
theorem Sound.schedule (h : s.Sound none) : (s.schedule t).2.Sound none := by
  unfold Scheduler.schedule
  split_ifs with ht
  · have hstate : (s.thread t)._state = .running := by simpa using h.placed.running t ht.2
    have henter := h.enter ht.2
    simp only [assert_eq_self hstate]
    split
    · exact henter.setThread rfl rfl
    · split_ifs <;> exact henter.setThread rfl rfl
    · exact henter.setThread rfl rfl
  · exact h

omit [DecidableEq W] in
theorem Sound.interruptible {state raise : Bool} (h : s.Sound ending) :
    (s.interruptible t state raise).2.Sound ending := by
  unfold Scheduler.interruptible
  dsimp only
  split
  · split_ifs <;> exact h.setThread rfl rfl
  · exact h.setThread rfl rfl

omit [DecidableEq W] in
theorem Sound.raise {e : Exn T E} (h : s.Sound ending) : (s.raise t e).Sound ending :=
  h.setThread rfl rfl

theorem raise_and_wake_eq {e : Exn T E} (hl : s.Linked) : s.raise_and_wake t e =
    if (s.thread t)._state = .frozen then (s.raise t e)._wait_abort t else s.raise t e := by
  have hthread : (s.raise t e).thread t = { s.thread t with _exception := some e } := by
    simp [Scheduler.raise]
  unfold raise_and_wake
  simp only [hthread]
  split_ifs with hfrozen
  · have hl' : (s.raise t e).Linked := hl.setThread rfl
    rw [assert_eq_self]
    rw [wait_abort_eq hl' (by simpa [hthread] using hfrozen)]
    simp [Thread.aborted]
  · rfl

theorem Sound.raise_and_wake {e : Exn T E} (h : s.Sound ending) :
    (s.raise_and_wake t e).Sound ending := by
  rw [raise_and_wake_eq h.linked]
  split_ifs with hfrozen
  · exact h.raise._wait_abort (by simpa [Scheduler.raise] using hfrozen)
  · exact h.raise

theorem Sound._wait_timeout (h : s.Sound ending) : (s._wait_timeout t).Sound ending := by
  unfold Scheduler._wait_timeout
  split_ifs with hfrozen
  · have hset : (s.setThread t { s.thread t with _timeout := true }).Sound ending :=
      h.setThread rfl rfl
    exact hset._wait_abort (by simpa using hfrozen)
  · exact h

theorem Sound._signal_one (h : s.Sound ending) : (s._signal_one w).Sound ending := by
  have hnodup := h.linked.waiters_nodup w
  unfold Scheduler._signal_one
  split
  case h_1 hnil => exact h.setWaitable hnil.symm
  case h_2 t rest hcons =>
    rw [hcons] at hnodup
    obtain ⟨ht, hrest⟩ := List.nodup_cons.mp hnodup
    exact h.wake_some (List.nodup_singleton t) hrest (by simp [hcons]) (by simpa using ht)

theorem Sound.open_barrier (h : s.Sound ending) : (s.open_barrier v).Sound ending := by
  unfold Scheduler.open_barrier
  split
  · exact h.setKind._signal
  · exact h._raise
  · exact h

theorem Sound.close_barrier (h : s.Sound ending) : (s.close_barrier v).Sound ending := by
  unfold Scheduler.close_barrier
  split
  · exact h._raise.setKind
  · exact h

theorem Sound.raise_barrier {e : Exn T E} (h : s.Sound ending) :
    (s.raise_barrier v e).Sound ending := by
  unfold Scheduler.raise_barrier
  split
  · exact h._raise.open_barrier._raise
  · exact h

theorem Sound.fail_scope {e : Exn T E} (h : s.Sound ending) :
    (s.fail_scope v e).Sound ending := by
  unfold Scheduler.fail_scope
  split
  · exact h.setKind._raise
  · exact h

/-! ## Every action -/

theorem terminate_one_thread (hl : s.Linked) (hc : s._current ≠ some t) (ht : t ∉ s._starting) :
    (s._terminate t).thread = Function.update s.thread t ((s.thread t).terminated t) := by
  rw [terminate_started hl hc ht]
  have hl' : (s.told t).Linked := hl.setThread rfl
  have htold : (s.told t).thread t =
      { s.thread t with _terminating := true, _exception := some (.Terminate t) } := by
    simp [told]
  split_ifs with hterm hfrozen
  · simp [Thread.terminated, hterm]
  · rw [wait_abort_eq hl' (by simpa [htold] using hfrozen.1), htold]
    simp [Thread.terminated, hterm, hfrozen, told]
  · simp only [Thread.terminated, hterm, hfrozen, told]
    rfl

theorem terminate_one_starting (ht : t ∉ s._starting) :
    (s._terminate t)._starting = s._starting := by
  have habort : ∀ s : Scheduler T W E, (s._wait_abort t)._starting = s._starting :=
    fun s => (unwait_all_rest (s := s.assert _)).2.1
  unfold _terminate
  dsimp only
  split_ifs
  · rfl
  · rfl
  · exact habort _
  · rfl

theorem terminate_list_thread (h : s.Sound ending) (hstarting : s._starting = []) (hl : l.Nodup)
    (hc : ∀ t ∈ l, s._current ≠ some t) (u : T) :
    (l.foldl _terminate s).thread u =
      if u ∈ l then (s.thread u).terminated u else s.thread u := by
  induction l generalizing s with
  | nil => simp
  | cons t l ih =>
    obtain ⟨ht, hl⟩ := List.nodup_cons.mp hl
    have hnot : t ∉ s._starting := by simp [hstarting]
    rw [List.foldl_cons, ih h._terminate ((terminate_one_starting hnot).trans hstarting) hl
      fun v hv => terminate_one_current (s := s) ▸ hc v (List.mem_cons_of_mem t hv),
      terminate_one_thread h.linked (hc t List.mem_cons_self) hnot]
    by_cases hu : u = t
    · subst hu
      simp [ht]
    · simp [hu]

omit [DecidableEq T] [DecidableEq W] in
theorem terminated_of_running (hstate : th._state ≠ .frozen) :
    (th.terminated t)._state = th._state ∧ (th.terminated t)._waited = th._waited := by
  unfold Thread.terminated
  split_ifs with _ hfrozen
  · exact ⟨rfl, rfl⟩
  · exact absurd hfrozen.1 hstate
  · exact ⟨rfl, rfl⟩

omit [DecidableEq W] in
theorem discard_thread : s.discard.thread u =
    if u ∈ s._starting then { s.thread u with _state := .done } else s.thread u := by
  rw [discard_eq]

omit [DecidableEq W] in
theorem discard_rest : s.discard._running = s._running ∧ s.discard._frozen = s._frozen ∧
    s.discard._current = s._current ∧ s.discard._starting = [] ∧
    s.discard.waitable = s.waitable := by
  rw [discard_eq]
  exact ⟨rfl, rfl, rfl, rfl, rfl⟩

theorem terminate_list_starting (h : s._starting = []) :
    (l.foldl _terminate s)._starting = [] := by
  induction l generalizing s with
  | nil => exact h
  | cons t l ih =>
    exact ih ((terminate_one_starting (by simp [h])).trans h)

omit [DecidableEq W] in
theorem mem_terminated : u ∈ s.terminated ↔
    u ∈ s._running ∧ s._current ≠ some u ∨ u ∈ s._frozen := by
  simp [terminated]

omit [DecidableEq T] [DecidableEq W] in
theorem Placed.not_frozen_of_running (h : s.Placed ending) (ht : t ∈ s._running) :
    (s.thread t)._state ≠ .frozen := by
  rcases h.running t ht with hrun | hend
  · simp [hrun]
  · simp [h.ended t hend]

theorem terminate_thread (h : s.Sound ending) (u : T) : s.terminate.thread u =
    if u ∈ s._starting then { s.thread u with _state := .done }
    else if u ∈ s.terminated then (s.thread u).terminated u else s.thread u := by
  obtain ⟨hrunning, hfrozen, hcurrent, hstarting, -⟩ := discard_rest (s := s)
  have hd := h.discard
  -- The threads that run are told, and stay where they are.
  obtain ⟨r, hr⟩ : ∃ r, r = s.discard._running.filter fun t => s.discard._current ≠ some t :=
    ⟨_, rfl⟩
  have hr_mem : ∀ u, u ∈ r ↔ u ∈ s._running ∧ s._current ≠ some u := by
    simp [hr, hrunning, hcurrent]
  have hsound : (r.foldl _terminate s.discard).Sound ending := hd.terminate_list
  have hfirst : ∀ u, (r.foldl _terminate s.discard).thread u =
      if u ∈ r then (s.discard.thread u).terminated u else s.discard.thread u :=
    terminate_list_thread hd hstarting (hr ▸ hd.placed.running_nodup.filter _)
      fun t ht => hcurrent ▸ ((hr_mem t).mp ht).2
  have hfr : ∀ u, u ∈ (r.foldl _terminate s.discard)._frozen ↔ u ∈ s._frozen := by
    intro u
    rw [hsound.placed.frozen, ← hfrozen, hd.placed.frozen, hfirst u]
    split_ifs with hu
    · rw [(terminated_of_running
        (hd.placed.not_frozen_of_running (hrunning ▸ ((hr_mem u).mp hu).1))).1]
    · rfl
  -- Then the frozen ones are.
  have hsecond : s.terminate.thread u =
      if u ∈ (r.foldl _terminate s.discard)._frozen then
        ((r.foldl _terminate s.discard).thread u).terminated u
      else (r.foldl _terminate s.discard).thread u := by
    have hunfold : s.terminate =
        (r.foldl _terminate s.discard)._frozen.foldl _terminate (r.foldl _terminate s.discard) :=
      hr ▸ rfl
    rw [hunfold]
    refine terminate_list_thread hsound (terminate_list_starting hstarting)
      hsound.placed.frozen_nodup (fun t ht hc => ?_) u
    rw [terminate_list_current, hcurrent] at hc
    exact h.placed.not_frozen_of_running (h.placed.current t hc)
      ((h.placed.frozen t).mp ((hfr t).mp ht))
  have hexcl : u ∈ s._starting → u ∉ s._running ∧ u ∉ s._frozen := fun hs =>
    ⟨(h.placed.starting u hs).2, fun hf => by
      simpa [(h.placed.starting u hs).1] using (h.placed.frozen u).mp hf⟩
  have hexcl' : u ∈ s._frozen → u ∉ s._running := fun hf hru =>
    h.placed.not_frozen_of_running hru ((h.placed.frozen u).mp hf)
  rw [hsecond, hfirst u, discard_thread]
  simp only [hfr, hr_mem, mem_terminated]
  by_cases hs : u ∈ s._starting
  · simp [hs, hexcl hs]
  · by_cases hf : u ∈ s._frozen
    · simp [hs, hf, hexcl' hf]
    · simp [hs, hf]

theorem terminated_not_done (h : s.Sound none) (hu : u ∈ s.terminated) :
    (s.terminate.thread u)._state ≠ .done := by
  have hns : u ∉ s._starting := fun hs => by
    have hstart := h.placed.starting u hs
    rcases mem_terminated.mp hu with hru | hf
    · exact hstart.2 hru.1
    · simpa [hstart.1] using (h.placed.frozen u).mp hf
  have hstate : (s.thread u)._state ≠ .done := by
    rcases mem_terminated.mp hu with hru | hf
    · have hrun := h.placed.running u hru.1
      simp at hrun
      simp [hrun]
    · simp [(h.placed.frozen u).mp hf]
  rw [terminate_thread h, if_neg hns, if_pos hu, Thread.terminated]
  split_ifs
  · exact hstate
  · simp [Thread.aborted]
  · exact hstate

omit [DecidableEq T] [DecidableEq W] in
theorem orderly_of_stored {ws : List (Ref T W)} (h : ∀ w ∈ ws, s.stored w = none) :
    s.Orderly ws := by
  induction ws with
  | nil => trivial
  | cons w ws ih =>
    have hrest : ∀ v ∈ ws, s.stored v = none := fun v hv => h v (List.mem_cons_of_mem w hv)
    rw [Orderly]
    split
    · exact hrest
    · exact Or.inr (ih hrest)

omit [DecidableEq T] [DecidableEq W] in
theorem stored_of_not_done (h : (s.thread t)._state ≠ .done) : s.stored (.thread t) = none := by
  simp [stored, answer, h]

/-- The list of each wait is one of distinct waitables, and orderly. -/
def Waiting (s : Scheduler T W E) : Act T W E → Prop
  | .wait ws _ => ws.Nodup ∧ s.Orderly ws
  | _ => True

theorem Sound._terminate_now {suicide : Bool} (h : s.Sound none) (hu : s._current = some u) :
    (s._terminate_now t u suicide).2.Sound none := by
  unfold Scheduler._terminate_now
  dsimp only
  split_ifs with _ _ hdone
  · exact h
  · exact h
  · exact h._terminate
  · exact h._terminate.wait (terminate_one_current.trans hu) (List.nodup_singleton _)
      (orderly_of_stored fun w hw => List.mem_singleton.mp hw ▸ stored_of_not_done hdone)

theorem terminated_orderly (h : s.Sound none) :
    (s.terminated.map Ref.thread : List (Ref T W)).Nodup ∧
      s.terminate.Orderly (s.terminated.map .thread) := by
  constructor
  · have hinj : Function.Injective (Ref.thread : T → Ref T W) := fun _ _ he => Ref.thread.inj he
    refine List.Nodup.map hinj (List.nodup_append.mpr
      ⟨h.placed.running_nodup.filter _, h.placed.frozen_nodup, fun a ha b hb he => ?_⟩)
    exact h.placed.not_frozen_of_running (List.mem_of_mem_filter ha)
      ((h.placed.frozen a).mp (he ▸ hb))
  · refine orderly_of_stored fun w hw => ?_
    obtain ⟨t, ht, rfl⟩ := List.mem_map.mp hw
    exact stored_of_not_done (terminated_not_done h ht)

theorem Sound.terminate_now (h : s.Sound none) (hu : s._current = some u) :
    (s.terminate_now u).2.Sound none :=
  h.terminate.wait (terminate_current.trans hu) (terminated_orderly h).1 (terminated_orderly h).2

section

variable {P : Scheduler T W E → Prop}

omit [DecidableEq T] [DecidableEq W] in
theorem running_rule {f : T → Outcome T E × Scheduler T W E} (h : P s)
    (hf : ∀ u, s._current = some u → P (f u).2) : P (s.running f).2 := by
  unfold Scheduler.running
  split
  · exact h
  case h_2 u hu => exact hf u hu

omit [DecidableEq T] [DecidableEq W] in
theorem plainly_rule {f : Scheduler T W E → Scheduler T W E} (h : P s) (hf : P (f s)) :
    P (s.plainly v f) := by
  unfold Scheduler.plainly
  split
  · exact hf
  · exact h

end

theorem Sound.act {a : Act T W E} (h : s.Sound none) (ha : s.Waiting a) :
    (s.act a).Sound none := by
  cases a with
  | create t m job => exact h.create
  | round => exact h.round
  | schedule t => exact h.schedule
  | yield => exact h.leave
  | wait ws timeout => exact running_rule (P := (·.Sound none)) h fun u hu => h.wait hu ha.1 ha.2
  | finish e => exact running_rule (P := (·.Sound none)) h fun u hu => h.finish hu
  | interruptible state raise =>
    exact running_rule (P := (·.Sound none)) h fun u _ => h.interruptible
  | timeout t => exact h._wait_timeout
  | terminate t => exact h._terminate
  | terminate_now t suicide =>
    exact running_rule (P := (·.Sound none)) h fun u hu => h._terminate_now hu
  | terminate_all => exact h.terminate
  | terminate_all_now => exact running_rule (P := (·.Sound none)) h fun u hu => h.terminate_now hu
  | raise t e => exact h.raise
  | raise_and_wake t e => exact h.raise_and_wake
  | signal v => exact plainly_rule (P := (·.Sound none)) (f := (·._signal (.other v))) h h._signal
  | signal_one v =>
    exact plainly_rule (P := (·.Sound none)) (f := (·._signal_one (.other v))) h h._signal_one
  | raise_plain v e =>
    exact plainly_rule (P := (·.Sound none)) (f := (·._raise (.other v) e)) h h._raise
  | open_barrier v => exact h.open_barrier
  | close_barrier v => exact h.close_barrier
  | raise_barrier v e => exact h.raise_barrier
  | fail_scope v e => exact h.fail_scope

end Scheduler

end elle.reactor
