-- The loop of `LocalPeer::_disappeared_evict` for one block, among all the servers
-- and clients of the block: any number of other calls are made and executed while
-- the loop is in its `choose`, and also between two of its attempts.
import Memo.PaxosHistory

open runs

namespace athena.paxos

variable {T Id : Type}

/-! ## The version a server stands at -/

namespace Server

variable {s : Server T Id} {p : Proposal Id} {q : Finset Id} {n : Int}

/-- The server has a state, and stands at version `n` or a later one. -/
def Reached (s : Server T Id) (n : Int) : Prop := s.state.isSome ∧ n ≤ s.current_version

theorem reached_iff : s.Reached n ↔ ∃ st, s.state = some st ∧
    n ≤ if st.confirmed then st.proposal.version else st.proposal.version - 1 := by
  unfold Reached current_version
  cases s.state <;> simp

theorem Reached.mono {m : Int} (h : s.Reached n) (hm : m ≤ n) : s.Reached m := ⟨h.1, hm.trans h.2⟩

theorem Reached.of_state {s' : Server T Id} {st st' : VersionState T Id} (h : s.Reached n)
    (hs : s.state = some st) (hs' : s'.state = some st')
    (hv : st.proposal.version < st'.proposal.version ∨
      st.proposal.version = st'.proposal.version ∧ (st.confirmed → st'.confirmed)) :
    s'.Reached n := by
  obtain ⟨st₀, hst₀, hn⟩ := reached_iff.mp h
  rw [hs] at hst₀
  cases hst₀
  refine reached_iff.mpr ⟨st', hs', ?_⟩
  rcases hv with hlt | ⟨heq, hc⟩
  · split_ifs at hn ⊢ <;> omega
  · by_cases hst : st.confirmed
    · rw [if_pos hst] at hn
      rw [if_pos (hc hst), ← heq]
      exact hn
    · rw [if_neg hst] at hn
      split_ifs <;> omega

variable [LinearOrder Id] [Inhabited Id]

theorem Reached.handle (h : s.Reached n) (r : Request T Id) : (s.handle r).2.Reached n := by
  obtain ⟨st, hs, -⟩ := reached_iff.mp h
  apply handle_rule (P := fun s' => s'.Reached n) h
  · rintro q p - res s' hp
    cases hp with
    | failed e => exact h
    | newer hs' hv => exact h
    | first hs' => simp [hs] at hs'
    | next hs' hv hc => exact h.of_state hs' rfl (Or.inl hv)
    | skip hs' hv hp hc => exact h.of_state hs' rfl (Or.inl hv)
    | raise hs' hlt hv =>
      refine h.of_state hs' rfl ?_
      rcases lt_or_eq_of_le (Proposal.version_le hlt) with hlt | heq
      · exact Or.inl hlt
      · exact Or.inr ⟨heq, fun hc => hc⟩
    | refused hs' hle => exact h
  · rintro q p v - res s' ha
    cases ha with
    | failed e => exact h
    | obsolete hs' hlt => exact h
    | accepted hs' hp =>
      refine h.of_state hs' rfl (Or.inr ⟨by rw [hp], fun hc => ?_⟩)
      simpa [VersionState.confirmed] using hc
  · rintro q p - res s' hc
    cases hc with
    | failed e => exact h
    | obsolete hs' hv => exact h
    | already hs' hle hv ha => exact h
    | confirmed hs' hle hv ha =>
      exact h.of_state hs' rfl (Or.inr ⟨rfl, fun _ => rfl⟩)

theorem reached_of_confirm {u : Unit} (h : (s.confirm q p).1 = .ok u) :
    (s.confirm q p).2.Reached p.version := by
  have hcases := confirm_cases s q p
  rw [h] at hcases
  generalize (s.confirm q p).2 = s' at hcases
  cases hcases with
  | obsolete hs hv =>
    refine reached_iff.mpr ⟨_, hs, ?_⟩
    split_ifs <;> omega
  | already hs hle hv ha =>
    refine reached_iff.mpr ⟨_, hs, ?_⟩
    simp [VersionState.confirmed, ha, hv]
  | confirmed hs hle hv ha =>
    refine reached_iff.mpr ⟨_, rfl, ?_⟩
    simp [VersionState.confirmed, hv]

end Server

/-! ## What a step of the world keeps -/

namespace World

variable {w w' : World T Id} {k : Nat} {node : Id} {version : Int} {run : Choose T Id}

/-- The servers that answered a confirmation stand at its version. -/
def Confirmations (w : World T Id) : Prop :=
  ∀ k n s q p, w.Replied k n s (.confirm q p) .confirmed → (w.servers s).Reached p.version

theorem reached_step [LinearOrder Id] [Inhabited Id] {a : Action T Id} (h : w.step a = some w')
    {s : Id} {n : Int} (hr : (w.servers s).Reached n) : (w'.servers s).Reached n := by
  rcases step_deliver_or_quiet h with ⟨i, call, -, -, -, rfl⟩ | ⟨hservers, -⟩
  · rw [servers_deliver]
    split_ifs
    · exact hr.handle call.request
    · exact hr
  · rwa [hservers]

theorem Confirmations.step [LinearOrder Id] [Inhabited Id] {a : Action T Id} (h : w.Confirmations)
    (hs : w.step a = some w') :
    w'.Confirmations := by
  intro k n s q p hr
  rcases step_deliver_or_quiet hs with ⟨i, call, -, hi, hnone, rfl⟩ | hq
  · rcases replied_deliver hi hr with hr | ⟨-, -, rfl, hreq, hok⟩
    · exact reached_step hs (h k n s q p hr)
    · rw [servers_deliver, if_pos rfl, hreq]
      simp only [Server.handle] at hok ⊢
      cases hc : ((w.servers call.peer).confirm q p).1 with
      | error e => simp [hc, Except.map] at hok
      | ok u => exact Server.reached_of_confirm hc
  · rw [hq.1]
    exact h k n s q p (hq.replied.mp hr)

/-! ## One `choose` that started at a version -/

/-- A run that started at `version`: it only goes up, the peers that answered its confirmation stand
at its proposal, and when it has ended on another value, so does the server `node` at `version`. -/
structure Goes (w : World T Id) (node : Id) (version : Int) (run : Choose T Id) : Prop where
  asked : version ≤ run.version
  proposed : version ≤ run.proposal.version
  confirming : ∀ reached, run.phase = .confirming reached →
    (∀ x ∈ run.waiting, ∃ k n q reply,
      w.calls[x.2]? = some ⟨k, n, x.1, .confirm q run.proposal, reply⟩) ∧
    ∀ s ∈ reached, (w.servers s).Reached run.proposal.version
  returned : ∀ p v, run.phase = .returned ⟨p, some v⟩ → (w.servers node).Reached version

/-- The peers that answered the confirmation, when `choose` is about to end on another value than
the one submitted. There are none when the value comes from a confirmed answer. -/
def ends_on (run : Choose T Id) : Option (List Id) :=
  match run.phase with
  | .proposing responses => if responses.any (·.2.choice.isSome) then some [] else none
  | .confirming reached => if run.replace.isSome then some reached else none
  | _ => none

theorem ends_on_of_proposing {responses : List (Id × Response T Id)} {x : Id × Response T Id}
    (hp : run.phase = .proposing responses) (hx : x ∈ responses) (hc : x.2.choice.isSome) :
    ends_on run = some [] := by
  have hany : responses.any (·.2.choice.isSome) = true := List.any_eq_true.mpr ⟨x, hx, hc⟩
  simp [ends_on, hp, hany]

theorem ends_on_of_confirming {reached : List Id} (hp : run.phase = .confirming reached)
    (hr : run.replace.isSome) : ends_on run = some reached := by
  simp [ends_on, hp, hr]

theorem Goes.later [LinearOrder Id] [Inhabited Id] {a : Action T Id} (h : Goes w node version run)
    (hs : w.step a = some w') :
    Goes w' node version run where
  asked := h.asked
  proposed := h.proposed
  confirming := by
    intro reached hp
    obtain ⟨hwait, hreached⟩ := h.confirming reached hp
    refine ⟨fun x hx => ?_, fun s hm => reached_step hs (hreached s hm)⟩
    obtain ⟨k, n, q, reply, hi⟩ := hwait x hx
    obtain ⟨reply', hi', -⟩ := Follows.of_step hs _ _ _ _ _ _ hi
    exact ⟨k, n, q, reply', hi'⟩
  returned p v hp := reached_step hs (h.returned p v hp)

theorem Goes.of_phase (ha : version ≤ run.version) (hp : version ≤ run.proposal.version)
    (hc : ∀ reached, run.phase ≠ .confirming reached) (hr : ∀ c, run.phase ≠ .returned c) :
    Goes w node version run :=
  ⟨ha, hp, fun reached h => absurd h (hc reached), fun _ _ h => absurd h (hr _)⟩

variable [LinearOrder Id]

theorem Goes.without (h : Goes w node version run) (s : Id) :
    Goes w node version (run.without s) where
  asked := h.asked
  proposed := h.proposed
  confirming := by
    intro reached hp
    obtain ⟨hwait, hreached⟩ := h.confirming reached hp
    exact ⟨fun x hx => hwait x (List.mem_filter.mp hx).1, hreached⟩
  returned := h.returned

theorem Goes.unavailable (h : Goes w node version run) (s : Id) :
    Goes w node version (run.unavailable s) := by
  have hw := h.without s
  exact { hw with }

theorem Goes.weakened (h : Goes w node version run) (s : Id) (e : Error Id) :
    Goes w node version (run.weakened s e) := by
  have hw := h.unavailable s
  exact { hw with }

theorem Goes.receive (h : Goes w node version run) (hc : w.Confirmations) (round : Int) {s : Id}
    {reply : Except (Error Id) (Answer T Id)} (hr : w.replyTo run.waiting s = some reply) :
    Goes w node version (run.receive round s reply).1 := by
  unfold Choose.receive
  split
  · exact Goes.of_phase h.asked h.proposed (by simp) (by simp)
  · rename_i answer
    split
    · exact Goes.of_phase h.asked h.proposed (by simp) (by simp)
    · split_ifs with hlt
      · exact Goes.of_phase (h.proposed.trans (Proposal.version_le hlt)) h.proposed (by simp)
          (by simp)
      · exact Goes.of_phase h.asked h.proposed (by simp) (by simp)
    · rename_i reached hp
      obtain ⟨hwait, hreached⟩ := h.confirming reached hp
      refine ⟨h.asked, h.proposed, ?_, by simp⟩
      rintro reached' hp'
      simp only [Phase.confirming.injEq] at hp'
      subst hp'
      refine ⟨fun x hx => hwait x (List.mem_filter.mp hx).1, fun s' hs' => ?_⟩
      rcases List.mem_append.mp hs' with hs' | hs'
      · exact hreached s' hs'
      · obtain rfl : s' = s := by simpa using hs'
        obtain ⟨i, c, hi, hcall, hreply⟩ := replyTo_spec hr
        obtain ⟨k, n, q, reply, hcall'⟩ := hwait _ hi
        rw [hcall'] at hcall
        cases hcall
        simp only at hreply
        subst hreply
        exact hc k n s' q _ ⟨i, hcall'⟩
    · exact h.without s

theorem Goes.step [Inhabited Id] {a : Action T Id} (h : Goes w node version run)
    (hc : w.Confirmations) (hk : w.tasks k = some (.choose run)) (hs : w.step a = some w')
    (hend : a = .advance k → ∀ reached, ends_on run = some reached →
      node ∈ reached ∨ (w.servers node).Reached version) :
    ∃ run', w'.tasks k = some (.choose run') ∧ Goes w' node version run' := by
  have hother : ∀ {k' : Nat} {task : Task T Id}, w'.tasks = (w.setTask k' task).tasks → k ≠ k' →
      ∃ run', w'.tasks k = some (.choose run') ∧ Goes w' node version run' := by
    intro k' task ht hkk
    refine ⟨run, ?_, h.later hs⟩
    rw [ht]
    simp [setTask, hkk, hk]
  have hown : ∀ {k' : Nat} {run₁ run' : Choose T Id}, w.tasks k' = some (.choose run₁) →
      w'.tasks = (w.setTask k' (.choose run')).tasks →
      (k = k' → run = run₁ → Goes w' node version run') →
      ∃ run', w'.tasks k = some (.choose run') ∧ Goes w' node version run' := by
    intro k' run₁ run' hrun ht htask
    by_cases hkk : k = k'
    · subst hkk
      rw [hk] at hrun
      cases hrun
      exact ⟨run', by rw [ht]; simp [setTask], htask rfl rfl⟩
    · exact hother ht hkk
  cases step_cases hs with
  | choose hnone | state hnone => exact hother rfl (by rintro rfl; simp [hk] at hnone)
  | deliver hi hr =>
    exact ⟨run, hk, h.later hs⟩
  | receive hrun hr =>
    refine hown hrun rfl ?_
    rintro rfl rfl
    exact (h.receive hc _ hr).later hs
  | unavailable hrun hm =>
    refine hown hrun rfl ?_
    rintro rfl rfl
    exact (h.unavailable _).later hs
  | weak_error hrun hm =>
    refine hown hrun rfl ?_
    rintro rfl rfl
    exact (h.weakened _ _).later hs
  | chosen hrun hw hp hv =>
    refine hown hrun rfl ?_
    rintro rfl rfl
    obtain ⟨r, hr, hchoice⟩ := weigh_chosen hv
    obtain ⟨x, hx, rfl⟩ := List.mem_map.mp hr
    rcases hend rfl [] (ends_on_of_proposing hp hx (by simp [hchoice])) with hnil | hreached
    · cases hnil
    · exact ⟨h.asked, h.proposed, by simp, fun _ _ _ => reached_step hs hreached⟩
  | failed hrun hw =>
    refine hown hrun rfl ?_
    rintro rfl rfl
    exact Goes.of_phase h.asked h.proposed (by simp) (by simp)
  | retry hrun hw hp hv =>
    refine hown hrun rfl ?_
    rintro rfl rfl
    -- the answer that sends the run back is above its own proposal
    obtain ⟨-, rp, hle, rfl, -⟩ := weigh_retry hv
    have hversion := h.proposed.trans (Proposal.version_mono hle)
    exact Goes.of_phase hversion hversion (by simp) (by simp)
  | accept hrun hw hp hv =>
    refine hown hrun rfl ?_
    rintro rfl rfl
    exact Goes.of_phase h.asked h.proposed (by simp) (by simp)
  | resume hrun hw hp =>
    refine hown hrun rfl ?_
    rintro rfl rfl
    exact Goes.of_phase h.asked h.asked (by simp) (by simp)
  | confirm hrun hw hp hcard =>
    refine hown hrun rfl ?_
    rintro rfl rfl
    refine ⟨h.asked, h.proposed, ?_, by simp⟩
    intro reached hreached
    simp only [Phase.confirming.injEq] at hreached
    subst hreached
    exact ⟨fun x hx => ⟨_, _, _, _, launch_pending hx⟩, by simp⟩
  | returned hrun hw hp hcard =>
    refine hown hrun rfl ?_
    rintro rfl rfl
    refine ⟨h.asked, h.proposed, by simp, ?_⟩
    intro p v hret
    simp only [Phase.returned.injEq, Choice.mk.injEq] at hret
    apply reached_step hs
    rcases hend rfl _ (ends_on_of_confirming hp (by simp [hret.2])) with hmem | hreached
    · exact ((h.confirming _ hp).2 node hmem).mono h.proposed
    · exact hreached
  | read_receive hrun hr => exact hother rfl (by rintro rfl; simp [hk] at hrun)
  | read_unavailable hrun hm => exact hother rfl (by rintro rfl; simp [hk] at hrun)
  | read_weak_error hrun hm => exact hother rfl (by rintro rfl; simp [hk] at hrun)
  | read_finish hrun hw ho => exact hother rfl (by rintro rfl; simp [hk] at hrun)

end World

end athena.paxos

namespace memo.Paxos

open athena.paxos

/-! ## The loop -/

/-- Where the loop stands: before an attempt, with the attempt that has just conflicted, if one has;
in the `choose` of task `k`; or out of the loop. -/
inductive Stage (Id : Type) where
  | top (conflict : Option (Int × Finset Id))
  | choosing (k : Nat) (version : Int) (quorum : Finset Id)
  | done
deriving DecidableEq

/-- The loop, and the servers and clients of the block. -/
structure Eviction (T Id : Type) where
  world : World T Id
  q : Finset Id
  stage : Stage Id

inductive Happening (T Id : Type) where
  /-- A step of the servers and clients, those of the loop included. -/
  | system (a : athena.paxos.Action T Id)
  /-- The loop has client `c` choose, as task `k`. -/
  | attempt (k c : Nat)
  /-- The loop looks at the end of its `choose`. -/
  | ended

variable {T Id : Type}

/-- A new client of the node, with the members of the quorum that the lookup held. -/
def BuiltFor (client : Client Id) (node : Id) (q : Finset Id) : Prop :=
  client.id = node ∧ client.round = 0 ∧ client.peers.Nodup ∧ ∀ s ∈ client.peers, s ∈ q

instance [LinearOrder Id] (client : Client Id) (node : Id) (q : Finset Id) :
    Decidable (BuiltFor client node q) :=
  inferInstanceAs (Decidable (_ ∧ _ ∧ _ ∧ _))

namespace Eviction

variable [LinearOrder Id] [Inhabited Id]

def start (node : Id) (w : World T Id) : Eviction T Id :=
  ⟨w, (w.servers node).current_quorum, .top none⟩

/-- One attempt: `choose(decision.paxos.current_version() + 1, q)`, without the lost node, on a
client of the quorum with it. -/
def attempt (node lost : Id) (s : Eviction T Id) (k c : Nat) : Option (Eviction T Id) :=
  if BuiltFor (s.world.clients c) node s.q then
    -- the constructor of the client asserts that there are peers, and the loop breaks
    if (s.world.clients c).peers = [] then some { s with stage := .done }
    else if lost ∈ s.q then
      let version := (s.world.servers node).current_version + 1
      let q := s.q.erase lost
      (s.world.step (.choose k c version (.quorum q))).map fun world =>
        ⟨world, q, .choosing k version s.q⟩
    else some { s with stage := .done }
  else none

/-- After the `choose` for the version and the quorum. -/
def after (node : Id) (s : Eviction T Id) (version : Int) (quorum : Finset Id) :
    Phase T Id → Option (Eviction T Id)
  | .returned ⟨_, none⟩ => some { s with stage := .done }
  | .returned ⟨_, some _⟩ =>
    let q := (s.world.servers node).current_quorum
    some { s with q, stage := .top (some (version, quorum)) }
  | .failed (.wrong_quorum expected _ _) => some { s with q := expected, stage := .top none }
  | .failed _ => some { s with stage := .done }
  | _ => none

def step (node lost : Id) (s : Eviction T Id) : Happening T Id → Option (Eviction T Id)
  | .system a => (s.world.step a).map fun world => { s with world }
  | .attempt k c =>
    match s.stage with
    | .top _ => s.attempt node lost k c
    | _ => none
  | .ended =>
    match s.stage with
    | .choosing k version quorum =>
      match s.world.tasks k with
      | some (.choose run) => s.after node version quorum run.phase
      | _ => none
    | _ => none

end Eviction

/-- The attempt that follows a conflict is for another version or another quorum. -/
def Moves (s s' : Eviction T Id) : Prop :=
  ∀ version quorum k version' quorum', s.stage = .top (some (version, quorum)) →
    s'.stage = .choosing k version' quorum' → version' ≠ version ∨ quorum' ≠ quorum

/-- The `choose` of the loop ends on what another node has chosen while the acceptor of the node has
not reached the version, and has not answered the confirmation. -/
def left_behind [LinearOrder Id] (node : Id) (s : Eviction T Id) : Happening T Id → Bool
  | .system (.advance k) =>
    match s.stage, s.world.tasks k with
    | .choosing k' version _, some (.choose run) =>
      k = k' && (World.ends_on run).any fun reached =>
        !reached.contains node && (s.world.servers node).current_version < version
    | _, _ => false
  | _ => false

/-- Before any call. -/
def Idle (w : World T Id) : Prop := (∀ k, w.tasks k = none) ∧ w.calls = []

/-! ## What holds in the loop -/

variable {node lost : Id} {s s' : Eviction T Id}

/-- After a conflict, the acceptor of the node stands at the version that conflicted. -/
structure Advanced (node : Id) (s : Eviction T Id) : Prop where
  confirmations : s.world.Confirmations
  conflict : ∀ version quorum, s.stage = .top (some (version, quorum)) →
    (s.world.servers node).Reached version
  choosing : ∀ k version quorum, s.stage = .choosing k version quorum →
    ((s.world.servers node).state = none → version = 1) ∧
    ∃ run, s.world.tasks k = some (.choose run) ∧ World.Goes s.world node version run

theorem Idle.confirmations {w : World T Id} (h : Idle w) : w.Confirmations := by
  rintro k n s q p ⟨i, hi⟩
  simp [h.2] at hi

theorem start_advanced {w : World T Id} (h : w.Confirmations) :
    Advanced node (Eviction.start node w) :=
  ⟨h, by simp [Eviction.start], by simp [Eviction.start]⟩

theorem reached_of_version {w : World T Id} {version : Int}
    (hfresh : (w.servers node).state = none → version = 1)
    (hv : version ≤ (w.servers node).current_version) : (w.servers node).Reached version := by
  refine ⟨?_, hv⟩
  cases hs : (w.servers node).state with
  | some st => rfl
  | none =>
    simp only [Server.current_version, hs] at hv
    have := hfresh hs
    omega

variable [LinearOrder Id] [Inhabited Id]

theorem state_of_step {w w' : World T Id} {a : athena.paxos.Action T Id} (h : w.step a = some w')
    (hs : (w'.servers node).state = none) : (w.servers node).state = none := by
  by_contra hne
  have hr : (w.servers node).Reached (w.servers node).current_version :=
    ⟨Option.isSome_iff_ne_none.mpr hne, le_refl _⟩
  have := (World.reached_step h hr).1
  simp [hs] at this

theorem Advanced.system {a : athena.paxos.Action T Id} {w' : World T Id} (h : Advanced node s)
    (hok : left_behind node s (.system a) = false) (hs : s.world.step a = some w') :
    Advanced node { s with world := w' } where
  confirmations := h.confirmations.step hs
  conflict version quorum hstage := World.reached_step hs (h.conflict version quorum hstage)
  choosing := by
    intro k version quorum hstage
    replace hstage : s.stage = .choosing k version quorum := hstage
    obtain ⟨hfresh, run, hk, hgoes⟩ := h.choosing k version quorum hstage
    refine ⟨fun hnone => hfresh (state_of_step hs hnone), ?_⟩
    refine hgoes.step h.confirmations hk hs ?_
    rintro rfl reached hends
    by_cases hmem : node ∈ reached
    · exact Or.inl hmem
    · refine Or.inr (reached_of_version hfresh ?_)
      simpa [left_behind, hstage, hk, hends, hmem] using hok

theorem Advanced.attempt {k c : Nat} (h : Advanced node s)
    (hs : s.attempt node lost k c = some s') : Advanced node s' := by
  unfold Eviction.attempt at hs
  split_ifs at hs
  · cases hs
    exact ⟨h.confirmations, by simp, by simp⟩
  · simp only [Option.map_eq_some_iff] at hs
    obtain ⟨w', hstep, rfl⟩ := hs
    refine ⟨h.confirmations.step hstep, by simp, ?_⟩
    intro k' version quorum hstage
    simp only [Stage.choosing.injEq] at hstage
    obtain ⟨rfl, rfl, rfl⟩ := hstage
    refine ⟨fun hnone => ?_, ?_⟩
    · have hstate := state_of_step hstep hnone
      simp [Server.current_version, hstate]
    · cases World.step_cases hstep with
      | choose hk =>
        refine ⟨_, Function.update_self k _ s.world.tasks, ?_⟩
        exact World.Goes.of_phase (le_refl _) (le_refl _) (by simp) (by simp)
  · cases hs
    exact ⟨h.confirmations, by simp, by simp⟩

theorem Advanced.ended (h : Advanced node s) (hs : s.step node lost .ended = some s') :
    Advanced node s' := by
  simp only [Eviction.step] at hs
  split at hs
  · rename_i k version quorum hstage
    split at hs
    · rename_i run hk
      obtain ⟨-, run', hk', hgoes⟩ := h.choosing k version quorum hstage
      rw [hk] at hk'
      cases hk'
      unfold Eviction.after at hs
      split at hs
      · cases hs
        exact ⟨h.confirmations, by simp, by simp⟩
      · rename_i p v hphase
        cases hs
        refine ⟨h.confirmations, ?_, by simp⟩
        intro version' quorum' hstage'
        simp only [Stage.top.injEq, Option.some.injEq, Prod.mk.injEq] at hstage'
        obtain ⟨rfl, rfl⟩ := hstage'
        exact hgoes.returned p v hphase
      · cases hs
        exact ⟨h.confirmations, by simp, by simp⟩
      · cases hs
        exact ⟨h.confirmations, by simp, by simp⟩
      · cases hs
    · cases hs
  · cases hs

theorem Advanced.step {a : Happening T Id} (h : Advanced node s)
    (hok : left_behind node s a = false) (hs : s.step node lost a = some s') :
    Advanced node s' := by
  cases a with
  | system a =>
    simp only [Eviction.step, Option.map_eq_some_iff] at hs
    obtain ⟨w', hstep, rfl⟩ := hs
    exact h.system hok hstep
  | attempt k c =>
    simp only [Eviction.step] at hs
    split at hs
    · exact h.attempt hs
    · cases hs
  | ended => exact h.ended hs

theorem Advanced.moves {k c : Nat} (h : Advanced node s)
    (hs : s.step node lost (.attempt k c) = some s') : Moves s s' := by
  intro version quorum k' version' quorum' hstage hstage'
  left
  have hreached := (h.conflict version quorum hstage).2
  simp only [Eviction.step, hstage, Eviction.attempt] at hs
  split_ifs at hs
  · cases hs
    cases hstage'
  · simp only [Option.map_eq_some_iff] at hs
    obtain ⟨w', -, rfl⟩ := hs
    simp only [Stage.choosing.injEq] at hstage'
    omega
  · cases hs
    cases hstage'

/-- In every run in which the acceptor of the node is never left behind, whatever the servers of the
block stood at when the loop began and whatever the other nodes do, the attempt that follows a
conflict is for another version or another quorum. -/
theorem eviction_moves (node lost : Id) {w₀ w : World T Id}
    {before : List (athena.paxos.Action T Id)} {as : List (Happening T Id)} {s s' : Eviction T Id}
    {k c : Nat} (h₀ : Idle w₀)
    (hw : Run World.step anyStep w₀ before w)
    (hrun : Run (Eviction.step node lost) (fun s a => left_behind node s a = false)
      (Eviction.start node w) as s)
    (hs : s.step node lost (.attempt k c) = some s') : Moves s s' := by
  have hconf : w.Confirmations :=
    hw.invariant h₀.confirmations fun _ _ _ h _ hstep => h.step hstep
  have hadv : Advanced node s :=
    hrun.invariant (start_advanced hconf) fun _ _ _ h hok hstep => h.step hok hstep
  exact hadv.moves hs

/-- The servers 1, 2 and 3, the clients of node 1, and another node that writes. -/
def writer : World Nat Nat := World.three fun c => if c = 0 then 11 else 1

theorem idle_writer : Idle writer := ⟨fun _ => rfl, rfl⟩

/-- The other node has 7 accepted at version 1. -/
def accepted : List (athena.paxos.Action Nat Nat) :=
  [.choose 0 0 1 (.value 7), .deliver 0, .deliver 1, .deliver 2, .receive 0 1, .receive 0 2,
    .receive 0 3, .advance 0, .deliver 3, .deliver 4, .deliver 5, .receive 0 1, .receive 0 2,
    .receive 0 3, .advance 0]

/-- The `choose` of node 1 without node 3 finds 7, confirms it at the nodes 1 and 2, and ends in a
conflict. -/
def confirms : List (Happening Nat Nat) :=
  [.attempt 1 1, .system (.deliver 9), .system (.deliver 10), .system (.receive 1 1),
    .system (.receive 1 2), .system (.unavailable 1 3), .system (.advance 1),
    .system (.deliver 12), .system (.deliver 13), .system (.receive 1 1), .system (.receive 1 2),
    .system (.unavailable 1 3), .system (.advance 1), .system (.deliver 15),
    .system (.deliver 16), .system (.receive 1 1), .system (.receive 1 2), .system (.advance 1),
    .system (.deliver 17), .system (.deliver 18), .system (.receive 1 1), .system (.receive 1 2),
    .system (.advance 1), .ended]

theorem the_next_version_is_attempted :
    ∃ (w : World Nat Nat) (s s' : Eviction Nat Nat), Run World.step anyStep writer accepted w ∧
      Run (Eviction.step 1 3) (fun s a => left_behind 1 s a = false) (Eviction.start 1 w)
        confirms s ∧
      s.step 1 3 (.attempt 2 2) = some s' ∧ s.stage = .top (some (1, {1, 2, 3})) ∧
      s'.stage = .choosing 2 2 {1, 2, 3} ∧ Moves s s' := by
  have hexec : ((exec World.step anyStep writer accepted).bind fun w =>
      (exec (Eviction.step 1 3) (fun s a => left_behind 1 s a = false) (Eviction.start 1 w)
        confirms).bind fun s => (s.step 1 3 (.attempt 2 2)).map fun s' => (s.stage, s'.stage)) =
      some (.top (some (1, {1, 2, 3})), .choosing 2 2 {1, 2, 3}) := by decide +kernel
  simp only [Option.bind_eq_some_iff, Option.map_eq_some_iff, Prod.mk.injEq] at hexec
  obtain ⟨w, hw, s, hs, s', hs', hstage, hstage'⟩ := hexec
  exact ⟨w, s, s', Run.of_exec hw, Run.of_exec hs, hs', hstage, hstage',
    eviction_moves 1 3 idle_writer (Run.of_exec hw) (Run.of_exec hs) hs'⟩

/-- The confirmation of 7 reaches the nodes 2 and 3, and is lost on the way to node 1. -/
def missed : List (athena.paxos.Action Nat Nat) := accepted ++ [.deliver 7, .deliver 8]

/-- The `choose` of node 1 ends at once, on the confirmed answer of node 2. -/
def conflicts : List (Happening Nat Nat) :=
  [.attempt 1 1, .system (.deliver 9), .system (.deliver 10), .system (.receive 1 1),
    .system (.receive 1 2), .system (.unavailable 1 3), .system (.advance 1), .ended]

/-- The acceptor of node 1 missed the version that node 2 answers, so node 1 attempts this version
with this quorum again. -/
theorem a_missed_version_is_attempted_again :
    ¬ ∀ (node lost : Nat) (w₀ w : World Nat Nat) (before : List (athena.paxos.Action Nat Nat))
      (as : List (Happening Nat Nat)) (s s' : Eviction Nat Nat) (k c : Nat), Idle w₀ →
      Run World.step anyStep w₀ before w →
      Run (Eviction.step node lost) anyStep (Eviction.start node w) as s →
      s.step node lost (.attempt k c) = some s' → Moves s s' := by
  intro h
  have hexec : ((exec World.step anyStep writer missed).bind fun w =>
      (exec (Eviction.step 1 3) anyStep (Eviction.start 1 w) conflicts).bind fun s =>
        (s.step 1 3 (.attempt 2 2)).map fun s' => (s.stage, s'.stage)) =
      some (.top (some (1, {1, 2, 3})), .choosing 2 1 {1, 2, 3}) := by decide +kernel
  simp only [Option.bind_eq_some_iff, Option.map_eq_some_iff, Prod.mk.injEq] at hexec
  obtain ⟨w, hw, s, hs, s', hs', hstage, hstage'⟩ := hexec
  rcases h 1 3 writer w missed conflicts s s' 2 2 idle_writer (Run.of_exec hw) (Run.of_exec hs) hs'
    1 _ 2 1 _ hstage hstage' with hne | hne
  · exact hne rfl
  · exact hne rfl

end memo.Paxos
