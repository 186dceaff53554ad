-- The removal of a block from all of its nodes: `Consensus::remove_many` starts a task for each
-- peer that the lookup finds, and counts those that end.
import Memo.Runs
import Mathlib.Data.List.Perm.Basic
import Mathlib.Data.List.Count

open runs

namespace memo.consensus.remove_many

variable {P E : Type}

/-! ## The tasks -/

/-- What a call throws: the block is missing, or the peer refuses or fails. -/
inductive Error (E : Type) where
  | missing_block
  | other (e : E)
deriving DecidableEq

/-- How the call on a peer ends. -/
inductive Outcome (E : Type) where
  | removed
  | network_error
  | end_of_stream
  /-- `peer was destroyed while removing` -/
  | destroyed
  | thrown (e : Error E)
deriving DecidableEq

/-- The variables of `remove_many` and of its scope. Tasks are started, and then wait for the call
on their peer. -/
structure Removal (P E : Type) where
  listing : Bool := true
  started : List P := []
  calling : List P := []
  count : Nat := 0
  _exception : Option (Error E) := none
  result : Option (Except (Error E) Unit) := none

inductive Action (P E : Type) where
  /-- The lookup finds a peer, or has no more. -/
  | found (p : P)
  | listed
  /-- A task locks its peer, or finds it destroyed. -/
  | lock (p : P)
  | expired (p : P)
  /-- The call of a task on its peer ends. -/
  | ended (p : P) (o : Outcome E)
  /-- The scope is left. -/
  | leave
deriving DecidableEq

namespace Removal

/-- The end of a task whose call has ended. An error of the network and an end of stream are
caught, and the task goes on after them; the first of the other exceptions is the scope's, and
terminates its tasks. -/
def task (s : Removal P E) : Outcome E → Removal P E
  | .removed | .network_error | .end_of_stream => { s with count := s.count + 1 }
  | .thrown e =>
    { s with _exception := s._exception.or (some e), started := [], calling := [] }
  | .destroyed => s

/-- What `remove_many` does after the scope, or throws out of it. -/
def outcome (s : Removal P E) : Except (Error E) Unit :=
  match s._exception with
  | some e => .error e
  | none => if s.count = 0 then .error .missing_block else .ok ()

def step [DecidableEq P] [DecidableEq E] (s : Removal P E) (a : Action P E) :
    Option (Removal P E) :=
  if s.result.isSome then none else
    match a with
    | .found p =>
      if s.listing ∧ s._exception = none then some { s with started := s.started ++ [p] } else none
    | .listed => if s.listing then some { s with listing := false } else none
    | .lock p =>
      if p ∈ s.started then
        some { s with started := s.started.erase p, calling := s.calling ++ [p] }
      else
        none
    | .expired p =>
      if p ∈ s.started then some { s with started := s.started.erase p } else none
    | .ended p o =>
      if p ∈ s.calling ∧ o ≠ .destroyed then
        some ({ s with calling := s.calling.erase p }.task o)
      else
        none
    | .leave =>
      if s._exception ≠ none ∨ s.listing = false ∧ s.started = [] ∧ s.calling = [] then
        some { s with result := some s.outcome }
      else
        none

end Removal

/-! ## What the tasks leave -/

/-- The peer of a task that ended, with its end. -/
def Action.outcome : Action P E → Option (P × Outcome E)
  | .ended p o => some (p, o)
  | .expired p => some (p, .destroyed)
  | _ => none

def outcomes (as : List (Action P E)) : List (P × Outcome E) := as.filterMap Action.outcome

def Action.peer : Action P E → Option P
  | .found p => some p
  | _ => none

/-- The peers that the lookup found. -/
def peers (as : List (Action P E)) : List P := as.filterMap Action.peer

/-- The task goes on to the end. -/
def Outcome.counted : Outcome E → Bool
  | .removed | .network_error | .end_of_stream => true
  | .thrown _ | .destroyed => false

def Outcome.unreachable : Outcome E → Bool
  | .network_error | .end_of_stream | .destroyed => true
  | .removed | .thrown _ => false

def Outcome.error : Outcome E → Option (Error E)
  | .thrown e => some e
  | _ => none

/-- The state after some actions, by the ends of the tasks. -/
structure Removal.After [DecidableEq P] (as : List (Action P E)) (s : Removal P E) : Prop where
  count : s.count = (outcomes as).countP fun o => o.2.counted
  thrown : s._exception = ((outcomes as).findSome? fun o => o.2.error)
  /-- As long as none has thrown, each peer has its task. -/
  tasks : s._exception = none → ∀ p, (peers as).count p =
    s.started.count p + s.calling.count p + ((outcomes as).map Prod.fst).count p
  result : ∀ r, s.result = some r → r = s.outcome ∧
    (s._exception = none → s.started = [] ∧ s.calling = [])

variable {s s' : Removal P E} {as : List (Action P E)} {a : Action P E}

theorem outcomes_append : outcomes (as ++ [a]) = outcomes as ++ a.outcome.toList := by
  unfold outcomes
  rw [List.filterMap_append]
  cases ha : a.outcome <;> simp [ha]

theorem peers_append : peers (as ++ [a]) = peers as ++ a.peer.toList := by
  unfold peers
  rw [List.filterMap_append]
  cases ha : a.peer <;> simp [ha]

variable [DecidableEq P]

theorem count_erase_add {l : List P} {p q : P} (hp : p ∈ l) :
    (l.erase p).count q + (if p = q then 1 else 0) = l.count q := by
  rw [List.count_erase]
  by_cases heq : p = q
  · subst heq
    have hpos := List.count_pos_iff.mpr hp
    simp
    omega
  · simp [heq]

theorem Removal.After.ended {o : Outcome E} {p : P} (h : After as s) (hp : p ∈ s.calling)
    (hr : s.result = none) :
    After (as ++ [.ended p o]) ({ s with calling := s.calling.erase p }.task o) := by
  have hout : outcomes (as ++ [.ended p o]) = outcomes as ++ [(p, o)] := outcomes_append
  have hpeers : peers (as ++ [.ended p o]) = peers as := by
    rw [peers_append]
    exact List.append_nil _
  constructor
  · rw [hout, List.countP_append, ← h.count]
    cases o <;> simp [Removal.task, Outcome.counted]
  · rw [hout, List.findSome?_append, ← h.thrown]
    cases o <;> simp [Removal.task, Outcome.error]
  · intro hnone q
    have hbefore : s._exception = none := by
      cases o with
      | thrown e => simp [Removal.task] at hnone
      | _ => exact hnone
    have htasks := h.tasks hbefore q
    have hq := count_erase_add (q := q) hp
    rw [hout, hpeers, htasks, List.map_append, List.count_append]
    cases o with
    | thrown e => simp [Removal.task] at hnone
    | _ =>
      simp [Removal.task, List.count_singleton, beq_iff_eq]
      omega
  · intro r hres
    cases o <;> simp [Removal.task, hr] at hres

theorem Removal.After.quiet (h : After as s) (ha : a.outcome = none)
    (hcount : s'.count = s.count) (hexception : s'._exception = s._exception)
    (htasks : s._exception = none → ∀ p, s'.started.count p + s'.calling.count p =
      s.started.count p + s.calling.count p + a.peer.toList.count p)
    (hresult : ∀ r, s'.result = some r → r = s'.outcome ∧
      (s'._exception = none → s'.started = [] ∧ s'.calling = [])) :
    After (as ++ [a]) s' := by
  have hout : outcomes (as ++ [a]) = outcomes as := by
    rw [outcomes_append, ha]
    exact List.append_nil _
  constructor
  · rw [hout, hcount, h.count]
  · rw [hout, hexception, h.thrown]
  · intro hnone p
    rw [hexception] at hnone
    have hbefore := h.tasks hnone p
    have hafter := htasks hnone p
    rw [hout, peers_append, List.count_append]
    omega
  · exact hresult

theorem Removal.After.step [DecidableEq E] (h : After as s) (hs : s.step a = some s') :
    After (as ++ [a]) s' := by
  have hresult : s.result = none := by
    by_contra hne
    have hsome : s.result.isSome = true := Option.isSome_iff_ne_none.mpr hne
    simp [Removal.step, hsome] at hs
  unfold Removal.step at hs
  rw [if_neg (by simp [hresult])] at hs
  cases a with
  | found p =>
    simp only [Option.ite_none_right_eq_some] at hs
    obtain ⟨-, hs⟩ := hs
    obtain rfl := Option.some.inj hs
    refine h.quiet rfl rfl rfl (fun _ q => ?_) (fun r hr => ?_)
    · simp [Action.peer]
      omega
    · cases hresult.symm.trans hr
  | listed =>
    simp only [Option.ite_none_right_eq_some] at hs
    obtain ⟨-, hs⟩ := hs
    obtain rfl := Option.some.inj hs
    refine h.quiet rfl rfl rfl (fun _ q => ?_) (fun r hr => ?_)
    · simp [Action.peer]
    · cases hresult.symm.trans hr
  | lock p =>
    simp only [Option.ite_none_right_eq_some] at hs
    obtain ⟨hp, hs⟩ := hs
    obtain rfl := Option.some.inj hs
    refine h.quiet rfl rfl rfl (fun _ q => ?_) (fun r hr => ?_)
    · have hq := count_erase_add (q := q) hp
      simp [Action.peer, List.count_singleton, beq_iff_eq]
      omega
    · cases hresult.symm.trans hr
  | expired p =>
    simp only [Option.ite_none_right_eq_some] at hs
    obtain ⟨hp, hs⟩ := hs
    obtain rfl := Option.some.inj hs
    have hout : outcomes (as ++ [.expired p]) = outcomes as ++ [(p, .destroyed)] := outcomes_append
    constructor
    · simpa [hout, Outcome.counted] using h.count
    · simpa [hout, Outcome.error] using h.thrown
    · intro hnone q
      have htasks := h.tasks hnone q
      have hq := count_erase_add (q := q) hp
      rw [hout, peers_append, List.map_append, List.count_append, List.count_append, htasks]
      simp [Action.peer, List.count_singleton, beq_iff_eq]
      omega
    · intro r hr
      cases hresult.symm.trans hr
  | ended p o =>
    simp only [Option.ite_none_right_eq_some] at hs
    obtain ⟨⟨hp, -⟩, hs⟩ := hs
    obtain rfl := Option.some.inj hs
    exact h.ended hp hresult
  | leave =>
    simp only [Option.ite_none_right_eq_some] at hs
    obtain ⟨hleave, hs⟩ := hs
    obtain rfl := Option.some.inj hs
    refine h.quiet rfl rfl rfl (fun _ q => ?_) (fun r hr => ?_)
    · simp [Action.peer]
    · refine ⟨(Option.some.inj hr).symm, fun hnone => ?_⟩
      rcases hleave with hthrown | ⟨-, hstarted, hcalling⟩
      · exact absurd hnone hthrown
      · exact ⟨hstarted, hcalling⟩

theorem after_start : (({} : Removal P E)).After [] := by
  constructor <;> simp [outcomes, peers]

/-! ## What is reported -/

/-- A normal return means that a peer removed the block, and when none could be reached, the block
is missing. -/
def Reported (as : List (Action P E)) (r : Except (Error E) Unit) : Prop :=
  (r = .ok () → ∃ o ∈ outcomes as, o.2 = .removed) ∧
    ((∀ o ∈ outcomes as, o.2.unreachable) → r = .error .missing_block)

/-- A peer removed the block, or a call has thrown another exception, or all peers were destroyed
before their call. -/
def Told (as : List (Action P E)) : Prop :=
  (∃ o ∈ outcomes as, o.2 = .removed) ∨ (∃ o ∈ outcomes as, o.2.error.isSome) ∨
    ∀ o ∈ outcomes as, o.2 = .destroyed

/-- A removal that ends tells what happened, exactly when a peer removed the block, another
exception was thrown, or no call ended with an error of the network. -/
theorem removal_is_reported_iff [DecidableEq E]
    (h : Run Removal.step anyStep ({} : Removal P E) as s) {r : Except (Error E) Unit}
    (hr : s.result = some r) : Reported as r ↔ Told as := by
  have hafter := h.history (I := Removal.After) after_start fun _ _ _ _ hi _ hs => hi.step hs
  obtain ⟨rfl, -⟩ := hafter.result r hr
  have hthrown := hafter.thrown
  have hcount := hafter.count
  unfold Reported Told Removal.outcome
  cases he : s._exception with
  | some e =>
    rw [he] at hthrown
    obtain ⟨o, ho, herror⟩ := List.exists_of_findSome?_eq_some hthrown.symm
    have hsome : o.2.error.isSome = true := by rw [herror]; rfl
    constructor
    · exact fun _ => .inr (.inl ⟨o, ho, hsome⟩)
    · intro _
      refine ⟨fun hok => (by cases hok), fun hall => ?_⟩
      have hun := hall o ho
      cases hcase : o.2 <;> simp [hcase, Outcome.unreachable, Outcome.error] at hun herror
  | none =>
    rw [he] at hthrown
    have hno : ∀ o ∈ outcomes as, o.2.error = none := List.findSome?_eq_none_iff.mp hthrown.symm
    dsimp only
    split_ifs with hzero
    · have hall : ∀ o ∈ outcomes as, o.2 = .destroyed := by
        intro o ho
        rw [hzero] at hcount
        have huncounted := List.countP_eq_zero.mp hcount.symm o ho
        have herror := hno o ho
        cases hcase : o.2 <;> simp [hcase, Outcome.counted, Outcome.error] at huncounted herror ⊢
      simp only [false_implies, implies_true, and_self, true_iff]
      exact .inr (.inr hall)
    · obtain ⟨o, ho, hcounted⟩ : ∃ o ∈ outcomes as, o.2.counted = true := by
        rw [← List.countP_pos_iff, ← hcount]
        omega
      constructor
      · rintro ⟨hremoved, -⟩
        exact .inl (hremoved rfl)
      · rintro (⟨q, hq, hremoved⟩ | ⟨q, hq, herror⟩ | hall)
        · refine ⟨fun _ => ⟨q, hq, hremoved⟩, fun hun => ?_⟩
          have hreached := hun q hq
          rw [hremoved] at hreached
          cases hreached
        · rw [hno q hq] at herror
          cases herror
        · rw [hall o ho] at hcounted
          cases hcounted

/-- One of the two peers removes the block and the other one cannot be reached. -/
def one_removed : List (Action Nat Nat) :=
  [.found 0, .found 1, .lock 0, .listed, .lock 1, .ended 1 .network_error, .ended 0 .removed,
    .leave]

theorem a_removal_is_reported : ∃ s : Removal Nat Nat,
    Run Removal.step anyStep {} one_removed s ∧ s.result = some (.ok ()) ∧
      Reported one_removed (.ok ()) := by
  have hexec : (exec Removal.step anyStep {} one_removed).map
      (fun s : Removal Nat Nat => s.result) = some (some (.ok ())) := by
    decide +kernel
  obtain ⟨s, hrun, hs⟩ := Run.of_exec_map hexec
  exact ⟨s, hrun, hs, (removal_is_reported_iff hrun hs).mpr (.inl ⟨(0, .removed), by decide, rfl⟩)⟩

/-- The only peer cannot be reached. -/
theorem an_unreachable_peer_removes : ∃ (as : List (Action Nat Nat)) (s : Removal Nat Nat),
    Run Removal.step anyStep {} as s ∧ s.result = some (.ok ()) ∧
      outcomes as = [(0, .network_error)] ∧ ¬Reported as (.ok ()) := by
  have hexec : (exec Removal.step anyStep {}
      [.found 0, .listed, .lock 0, .ended 0 .network_error, .leave]).map
      (fun s : Removal Nat Nat => s.result) = some (some (.ok ())) := by
    decide +kernel
  obtain ⟨s, hrun, hs⟩ := Run.of_exec_map hexec
  refine ⟨_, s, hrun, hs, by decide, fun hreported => ?_⟩
  cases hreported.2 (by decide)

end memo.consensus.remove_many
