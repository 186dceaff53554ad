-- The promises of the servers. A server grants a proposal at most once, since
-- its promise only grows, so that two attempts that both have the promises of
-- a majority have different proposals, whatever the ids and the rounds of
-- their clients.
import Memo.PaxosHistory

open majority voting runs

namespace athena.paxos

variable {T Id : Type} [LinearOrder Id]

/-! ## The promise of a server -/

namespace Server

variable {s s' : Server T Id} {p : Proposal Id}

theorem Proposed.grants {r : Response T Id} (h : Proposed s p (.ok r) s') (hg : r.Grants p) :
    (∀ st, s.state = some st → st.proposal < p) ∧ ∃ st, s'.state = some st ∧ st.proposal = p := by
  cases h with
  | newer hs hv => exact absurd (hg _ rfl) (not_lt.mpr (Proposal.lt_of_version hv).le)
  | first hs => exact ⟨by simp [hs], _, rfl, rfl⟩
  | next hs hv hc | skip hs hv hp hc =>
    refine ⟨?_, _, rfl, rfl⟩
    intro st hst
    rw [hs] at hst
    cases hst
    exact Proposal.lt_of_version hv
  | raise hs hlt hv =>
    refine ⟨?_, _, rfl, rfl⟩
    intro st hst
    rw [hs] at hst
    cases hst
    exact hlt
  | refused hs hle => exact absurd (hg _ rfl) (not_lt.mpr hle)

theorem handle_promise [Inhabited Id] {r : Request T Id} {st : VersionState T Id}
    (hs : s.state = some st) :
    ∃ st', (s.handle r).2.state = some st' ∧ st.proposal ≤ st'.proposal := by
  refine handle_rule (P := fun s' => ∃ st', s'.state = some st' ∧ st.proposal ≤ st'.proposal)
    ⟨st, hs, le_rfl⟩ ?_ ?_ ?_
  · intro q p _ res s' h
    cases h with
    | failed e => exact ⟨st, hs, le_rfl⟩
    | newer hs' hv => exact ⟨st, hs, le_rfl⟩
    | first hs' => rw [hs] at hs'; cases hs'
    | next hs' hv hc | skip hs' hv hp hc =>
      rw [hs] at hs'
      cases hs'
      exact ⟨_, rfl, (Proposal.lt_of_version hv).le⟩
    | raise hs' hlt hv =>
      rw [hs] at hs'
      cases hs'
      exact ⟨_, rfl, hlt.le⟩
    | refused hs' hle => exact ⟨st, hs, le_rfl⟩
  · intro q p v _ res s' h
    cases h with
    | failed e => exact ⟨st, hs, le_rfl⟩
    | obsolete hs' hlt => exact ⟨st, hs, le_rfl⟩
    | accepted hs' hp =>
      rw [hs] at hs'
      cases hs'
      exact ⟨_, rfl, hp.le⟩
  · intro q p _ res s' h
    cases h with
    | failed e => exact ⟨st, hs, le_rfl⟩
    | obsolete hs' hv => exact ⟨st, hs, le_rfl⟩
    | already hs' hle hv ha => exact ⟨st, hs, le_rfl⟩
    | confirmed hs' hle hv ha =>
      rw [hs] at hs'
      cases hs'
      exact ⟨_, rfl, le_rfl⟩

end Server

namespace World

variable {w w' : World T Id} {Q : Finset Id}

/-! ## Who was promised what -/

/-- The server promised the proposal to the attempt. -/
def Promised (w : World T Id) (Q : Finset Id) (k n : Nat) (s : Id) (p : Proposal Id) : Prop :=
  ∃ r, w.Replied k n s (.propose Q p) (.response r) ∧ r.Grants p

/-- A promise is kept, and was made to one attempt only. -/
structure Faithful (Q : Finset Id) (w : World T Id) : Prop where
  kept : ∀ k n s p, w.Promised Q k n s p → ∃ st, (w.servers s).state = some st ∧ p ≤ st.proposal
  once : ∀ k n k' n' s p, w.Promised Q k n s p → w.Promised Q k' n' s p → k = k' ∧ n = n'

theorem promised_deliver [Inhabited Id] {i : Nat} {call : Call T Id} {k n : Nat} {s : Id}
    {p : Proposal Id} (hi : w.calls[i]? = some call) (h : (w.deliver i call).Promised Q k n s p) :
    w.Promised Q k n s p ∨ (call.task = k ∧ call.attempt = n ∧ call.peer = s) ∧
      (∀ st, (w.servers s).state = some st → st.proposal < p) ∧
      ∃ st, ((w.deliver i call).servers s).state = some st ∧ st.proposal = p := by
  obtain ⟨r, hr, hg⟩ := h
  rcases replied_deliver hi hr with hr | ⟨hk, hn, hs, hreq, hres⟩
  · exact Or.inl ⟨r, hr, hg⟩
  · refine Or.inr ⟨⟨hk, hn, hs⟩, ?_⟩
    obtain ⟨hbelow, hnew⟩ := (Server.propose_answer hres).grants hg
    refine ⟨hbelow, ?_⟩
    rw [servers_deliver, if_pos hs.symm, hreq]
    exact hnew

theorem state_deliver [Inhabited Id] (i : Nat) (call : Call T Id) {s : Id} {st : VersionState T Id}
    (hs : (w.servers s).state = some st) :
    ∃ st', ((w.deliver i call).servers s).state = some st' ∧ st.proposal ≤ st'.proposal := by
  rw [servers_deliver]
  by_cases hp : s = call.peer
  · rw [if_pos hp]
    exact Server.handle_promise hs
  · rw [if_neg hp]
    exact ⟨st, hs, le_rfl⟩

theorem Faithful.deliver [Inhabited Id] (h : Faithful Q w) {i : Nat} {call : Call T Id}
    (hi : w.calls[i]? = some call) : Faithful Q (w.deliver i call) := by
  refine ⟨?_, ?_⟩
  · intro k n s p hp
    rcases promised_deliver hi hp with hp | ⟨-, -, st, hst, rfl⟩
    · obtain ⟨st, hst, hle⟩ := h.kept k n s p hp
      obtain ⟨st', hst', hle'⟩ := state_deliver i call hst
      exact ⟨st', hst', hle.trans hle'⟩
    · exact ⟨st, hst, le_rfl⟩
  · -- a new promise is above the old ones
    have hfresh : ∀ k n s p, w.Promised Q k n s p →
        ¬ ∀ st, (w.servers s).state = some st → st.proposal < p := by
      intro k n s p hp hbelow
      obtain ⟨st, hst, hle⟩ := h.kept k n s p hp
      exact absurd (hbelow st hst) (not_lt.mpr hle)
    intro k n k' n' s p hp hp'
    rcases promised_deliver hi hp with hp | ⟨⟨hk, hn, -⟩, hbelow, -⟩
    · rcases promised_deliver hi hp' with hp' | ⟨-, hbelow, -⟩
      · exact h.once k n k' n' s p hp hp'
      · exact absurd hbelow (hfresh k n s p hp)
    · rcases promised_deliver hi hp' with hp' | ⟨⟨hk', hn', -⟩, -, -⟩
      · exact absurd hbelow (hfresh k' n' s p hp')
      · exact ⟨hk.symm.trans hk', hn.symm.trans hn'⟩

theorem Faithful.quiet (h : Faithful Q w) (hq : Quiet w w') : Faithful Q w' := by
  have hiff : ∀ k n s p, w'.Promised Q k n s p ↔ w.Promised Q k n s p := by
    intro k n s p
    simp only [Promised, hq.replied]
  refine ⟨?_, ?_⟩
  · intro k n s p hp
    rw [hq.1]
    exact h.kept k n s p ((hiff _ _ _ _).mp hp)
  · intro k n k' n' s p hp hp'
    exact h.once k n k' n' s p ((hiff _ _ _ _).mp hp) ((hiff _ _ _ _).mp hp')

theorem Faithful.step [Inhabited Id] {a : Action T Id} (h : Faithful Q w)
    (hs : w.step a = some w') :
    Faithful Q w' := by
  rcases step_deliver_or_quiet hs with ⟨i, call, -, hi, -, rfl⟩ | hq
  · exact h.deliver hi
  · exact h.quiet hq

theorem Initial.faithful (h : Initial Q w) : Faithful Q w := by
  have hnone : ∀ k n s p, ¬ w.Promised Q k n s p := by
    rintro k n s p ⟨r, ⟨i, hi⟩, -⟩
    simp [h.calls] at hi
  exact ⟨fun k n s p hp => absurd hp (hnone k n s p),
    fun k n _ _ s p hp _ => absurd hp (hnone k n s p)⟩

/-! ## Two attempts -/

theorem Faithful.one_attempt (h : Faithful Q w) {k n k' n' : Nat} {p : Proposal Id}
    {v v' : Value T Id} (hj : w.Justified Q k n p v) (hj' : w.Justified Q k' n' p v') :
    k = k' ∧ n = n' := by
  obtain ⟨responses, -, -, hM, hr, -⟩ := hj
  obtain ⟨responses', -, -, hM', hr', -⟩ := hj'
  obtain ⟨s, hs, hs'⟩ := hM.meet hM'
  simp only [List.mem_toFinset, List.mem_map] at hs hs'
  obtain ⟨x, hx, rfl⟩ := hs
  obtain ⟨x', hx', heq⟩ := hs'
  have hp : w.Promised Q k n x.1 p := ⟨x.2, (hr x hx).1, (hr x hx).2.1⟩
  have hp' : w.Promised Q k' n' x'.1 p := ⟨x'.2, (hr' x' hx').1, (hr' x' hx').2.1⟩
  rw [heq] at hp'
  exact h.once k n k' n' x.1 p hp hp'

/-- The attempt and the proposal of a run in its accept phase. -/
def acceptPhase (w : World T Id) (k : Nat) : Option (Nat × Proposal Id) :=
  match w.tasks k with
  | some (.choose run) =>
    match run.phase with
    | .accepting _ => some (run.attempt, run.proposal)
    | _ => none
  | _ => none

theorem Orderly.of_acceptPhase (h : Orderly Q w) {k n : Nat} {p : Proposal Id}
    (hk : w.acceptPhase k = some (n, p)) : ∃ v, w.Justified Q k n p v := by
  unfold acceptPhase at hk
  split at hk
  · rename_i run hrun
    split at hk
    · rename_i reached hp
      cases hk
      have hinv := h.tasks k _ hrun
      simp only [TaskInv, hp] at hinv
      exact ⟨_, hinv.2.1⟩
    · cases hk
  · cases hk

/-- No two attempts, of one `choose` or of two, reach the accept phase with the same proposal. -/
theorem accept_phases_have_different_proposals [Inhabited Id] {w₀ : World T Id}
    {as bs : List (Action T Id)} {k n k' n' : Nat} {p p' : Proposal Id} (h₀ : Initial Q w₀)
    (h : Run step anyStep w₀ as w) (h' : Run step anyStep w bs w')
    (hk : w.acceptPhase k = some (n, p)) (hk' : w'.acceptPhase k' = some (n', p'))
    (hne : (k, n) ≠ (k', n')) : p ≠ p' := by
  intro heq
  subst heq
  have hw : Orderly Q w ∧ Faithful Q w :=
    h.invariant (I := fun w => Orderly Q w ∧ Faithful Q w) ⟨h₀.orderly, h₀.faithful⟩
      fun _ _ _ hinv _ hs => ⟨hinv.1.step hs, hinv.2.step hs⟩
  obtain ⟨v, hj⟩ := hw.1.of_acceptPhase hk
  -- what justified the first attempt still stands when the second one comes
  have hw' : (Orderly Q w' ∧ Faithful Q w') ∧ w'.Justified Q k n p v :=
    h'.invariant (I := fun w => (Orderly Q w ∧ Faithful Q w) ∧ w.Justified Q k n p v)
      ⟨hw, hj⟩ fun _ _ _ hinv _ hs =>
        ⟨⟨hinv.1.1.step hs, hinv.1.2.step hs⟩, hinv.2.follows (Follows.of_step hs)⟩
  obtain ⟨v', hj'⟩ := hw'.1.1.of_acceptPhase hk'
  obtain ⟨hkk, hnn⟩ := hw'.1.2.one_attempt hw'.2 hj'
  exact hne (by rw [hkk, hnn])

/-- Two clients of one id propose in the same round, and the first one gets the promises. -/
def selfConflict : List (Action Nat Nat) :=
  [.choose 0 0 1 (.value 100), .choose 1 1 1 (.value 101), .deliver 0, .deliver 1, .deliver 2,
    .deliver 3, .deliver 4, .deliver 5, .receive 0 1, .receive 0 2, .receive 0 3, .advance 0]

/-- The second one proposes again. -/
def selfConflictRetry : List (Action Nat Nat) :=
  [.receive 1 1, .receive 1 2, .receive 1 3, .advance 1, .deliver 9, .deliver 10, .deliver 11,
    .receive 1 1, .receive 1 2, .receive 1 3, .advance 1]

theorem self_conflict_ends_with_different_proposals :
    ∃ w w' : World Nat Nat, ∃ p p' : Proposal Nat,
      Run step anyStep (three fun _ => 11) selfConflict w ∧
      Run step anyStep w selfConflictRetry w' ∧
      w.acceptPhase 0 = some (1, p) ∧ w'.acceptPhase 1 = some (2, p') ∧ p ≠ p' := by
  have hexec : ((exec step anyStep (three fun _ => 11) selfConflict).bind fun w =>
      (exec step anyStep w selfConflictRetry).map fun w' => (w.acceptPhase 0, w'.acceptPhase 1)) =
      some (some (1, ⟨1, 1, 11⟩), some (2, ⟨1, 3, 11⟩)) := by decide +kernel
  rw [Option.bind_eq_some_iff] at hexec
  obtain ⟨w, hw, hexec'⟩ := hexec
  obtain ⟨w', hw', hphases⟩ := Run.of_exec_map hexec'
  obtain ⟨hk, hk'⟩ := Prod.mk.inj hphases
  refine ⟨w, w', _, _, Run.of_exec hw, hw', hk, hk', ?_⟩
  exact accept_phases_have_different_proposals (initial_three _) (Run.of_exec hw) hw' hk hk'
    (by decide)

end World

end athena.paxos
