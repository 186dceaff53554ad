-- The acceptors that leave the cache. A call finds a dropped acceptor again in
-- the storage, but for `propagate`, which takes an acceptor that is not in the
-- cache for one that is not there, and elects it again.
import Memo.SideBySide

open ops athena.paxos

namespace memo.LocalPeer

variable {B A R : Type} [LinearOrder A] [Inhabited A]
variable {s t : LocalPeer B A} {i : Nat}

/-! ## Sequences of calls -/

/-- A call of the consensus on the node. -/
inductive Call (B A R : Type) where
  | propose (peers : Finset A) (a : A) (p : Proposal A) (insert : Bool) (owners : Finset A)
  | accept (peers : Finset A) (a : A) (p : Proposal A) (value : Value B A) (owners : Finset A)
  | confirm (peers : Finset A) (a : A) (p : Proposal A) (owners : Finset A)
  | get (peers : Finset A) (a : A) (local_version : Option Int) (owners : Finset A)
  | propagate (q : Finset A) (b : B) (p : Proposal A) (owners : Finset A)
  | remove (a : A) (rs : R) (owners : Finset A)

/-- What a call returns. -/
inductive Returned (B A : Type) where
  | response (r : Response B A)
  | minimum (p : Proposal A)
  | current (r : Option (Accepted (Option B) A))
  | nothing

def call (model : Model B A R) : Call B A R → Op (LocalPeer B A) (Fault B A) (Returned B A)
  | .propose peers a p insert owners => do
    let r ← LocalPeer.propose peers a p insert owners
    return .response r
  | .accept peers a p value owners => do
    let r ← LocalPeer.accept model peers a p value owners
    return .minimum r
  | .confirm peers a p owners => do
    LocalPeer.confirm peers a p owners
    return .nothing
  | .get peers a local_version owners => do
    let r ← LocalPeer.get peers a owners
    let r ← Op.ofExcept (honor_local_version model local_version r)
    return .current r
  | .propagate q b p owners => do
    LocalPeer.propagate model q b p owners
    return .nothing
  | .remove a rs owners => do
    LocalPeer.remove model a rs owners
    return .nothing

/-- The node after a list of calls, whether they failed or not. -/
def after (model : Model B A R) (self : LocalPeer B A) (calls : List (Call B A R)) :
    LocalPeer B A :=
  calls.foldl (fun self c => (call model c self).2) self

/-- What the calls return or throw, one after the other. -/
def results (model : Model B A R) :
    LocalPeer B A → List (Call B A R) → List (Except (Fault B A) (Returned B A))
  | _, [] => []
  | self, c :: calls => (call model c self).1 :: results model (call model c self).2 calls

/-- A node that was just started, on what other runs stored. -/
structure Fresh (node : LocalPeer B A) : Prop where
  addresses : node.addresses = []
  stored : ∀ a d, node.storage a = some (.paxos d) →
    d.stored node.version = d ∧ Server.Ordered d

/-- The call does not depend on the room in the cache. `bare` is the node with room for no
acceptor but the one in use, and `roomy` the one that never drops any. Before 0.2.0 the stored
form forgets that versions were missed. An acceptor that was dropped must not be elected again,
unless this changes nothing, and an election must not fail after it changed the acceptor. -/
structure Steady (model : Model B A R) (bare roomy : LocalPeer B A) (c : Call B A R) : Prop where
  whole : roomy.version < ⟨0, 2, 0⟩ → ∀ e ∈ roomy.addresses, e.2.partial_state = false
  dropped : ∀ q b p owners d, c = .propagate q b p owners →
    bare.cached (model.address b) = none → roomy.cached (model.address b) = some d →
      Unmoved d q p
  elected : ∀ q b p owners d, c = .propagate q b p owners →
    roomy.cached (model.address b) = none →
      roomy.storage (model.address b) = some (.paxos d) → ¬ Server.Stale d q p

theorem after_append (model : Model B A R) (self : LocalPeer B A) (calls : List (Call B A R))
    (c : Call B A R) :
    after model self (calls ++ [c]) = (call model c (after model self calls)).2 := by
  simp [after, List.foldl_append]

omit [Inhabited A] in
theorem return_side {α : Type} {P : LocalPeer B A → LocalPeer B A → Prop}
    {x : Op (LocalPeer B A) (Fault B A) α} (f : α → Returned B A)
    (h : Op.Sim P x x (fun _ => Between i) (fun _ => Between i)) :
    Op.Sim P (do let r ← x; return f r) (do let r ← x; return f r) (fun _ => Between i)
      (fun _ => Between i) :=
  Op.Sim.bind h fun _ => Op.Sim.pure fun _ _ h => h

theorem call_side (model : Model B A R) (c : Call B A R) (h : Between (i + 1) s t)
    (hwhole : Whole t)
    (hdropped : ∀ q b p owners d, c = .propagate q b p owners →
      s.cached (model.address b) = none → t.cached (model.address b) = some d → Unmoved d q p)
    (helected : ∀ q b p owners d, c = .propagate q b p owners →
      t.cached (model.address b) = none → t.storage (model.address b) = some (.paxos d) →
        ¬ Server.Stale d q p) :
    (call model c s).1 = (call model c t).1 ∧
      Between i (call model c s).2 (call model c t).2 := by
  cases c with
  | propose peers a p insert owners =>
    exact (return_side _ (propose_side peers p insert owners)).results ⟨h, hwhole⟩
  | accept peers a p value owners =>
    exact (return_side _ (accept_side model peers p value owners)).results ⟨h, hwhole⟩
  | confirm peers a p owners =>
    exact (return_side _ (confirm_side peers p owners)).results ⟨h, hwhole⟩
  | get peers a local_version owners =>
    have hget := Op.Sim.bind (get_side (i := i) (a := a) peers owners) fun r =>
      return_side (B := B) Returned.current (Op.Sim.ofExcept
        (r := honor_local_version model local_version r) (fun _ _ _ _ h => h) fun _ _ _ _ h => h)
    exact hget.results ⟨h, hwhole⟩
  | propagate q b p owners =>
    have hside := propagate_side model b owners h hwhole
      (fun d => hdropped q b p owners d rfl) (fun d => helected q b p owners d rfl)
    exact (return_side _ (Op.Sim.of_results hside.1 hside.2)).results ⟨rfl, rfl⟩
  | remove a rs owners =>
    exact (return_side _ (remove_side model rs owners)).results ⟨h, hwhole⟩

/-- The three nodes of a run: with no room, with room for `m` acceptors, and with room for all. -/
structure Abreast (i : Nat) (bare some_room roomy : LocalPeer B A) : Prop where
  lower : Beside i bare some_room
  upper : Beside i some_room roomy
  writing : Writing none roomy

omit [Inhabited A] in
theorem Beside.writing (h : Beside i s t) (hw : Writing none t) : Writing none s where
  format := by
    rw [h.version]
    exact hw.format
  versions e he := by
    rw [h.version]
    exact hw.versions e (h.within e he)
  cached e he hne := by
    rw [h.version, h.storage]
    exact hw.cached e (h.within e he) hne
  stored a d hd := by
    rw [h.version]
    rw [h.storage] at hd
    exact hw.stored a d hd

omit [LinearOrder A] [Inhabited A] in
theorem Beside.whole (h : Beside i s t) (hw : Whole t) : Whole s := by
  intro e he
  rw [h.version]
  exact hw e (h.within e he)

omit [Inhabited A] in
theorem Writing.whole {x : Option A} (h : Writing x t)
    (hp : t.version < ⟨0, 2, 0⟩ → ∀ e ∈ t.addresses, e.2.partial_state = false) : Whole t := by
  intro e he
  by_cases hv : t.version < ⟨0, 2, 0⟩
  · have hpartial := hp hv e he
    have hversion := h.versions e he
    unfold Server.stored
    simp only [not_lt.mpr h.format, hv, if_false, if_true]
    rw [← hversion, ← hpartial]
  · exact Server.stored_of_version (not_lt.mp hv) (h.versions e he)

theorem Abreast.call {bare some_room roomy : LocalPeer B A} (model : Model B A R) (c : Call B A R)
    (h : Abreast (i + 1) bare some_room roomy) (hc : Steady model bare roomy c) :
    (LocalPeer.call model c some_room).1 = (LocalPeer.call model c roomy).1 ∧
      Abreast i (LocalPeer.call model c bare).2 (LocalPeer.call model c some_room).2
        (LocalPeer.call model c roomy).2 := by
  have hwhole := h.writing.whole hc.whole
  have hnone : ∀ a, some_room.cached a = none → bare.cached a = none := by
    intro a hm
    cases hb : bare.cached a with
    | none => rfl
    | some d =>
      rw [h.lower.cached hb] at hm
      cases hm
  have hupper := call_side model c ⟨h.upper, h.writing⟩ hwhole
    (fun q b p owners d hq hm hr => hc.dropped q b p owners d hq (hnone _ hm) hr) hc.elected
  have hlower := call_side model c ⟨h.lower, h.upper.writing h.writing⟩ (h.upper.whole hwhole)
    (fun q b p owners d hq hb hm => hc.dropped q b p owners d hq hb (h.upper.cached hm)) (by
      intro q b p owners d hq hm hst
      rw [h.upper.storage] at hst
      cases hr : roomy.cached (model.address b) with
      | none => exact hc.elected q b p owners d hq hr hst
      | some d' =>
        -- the acceptor was dropped from the smaller caches, so its election changes nothing
        have hd := h.writing.cached _ (mem_of_cached hr) (by simp)
        rw [hwhole _ (mem_of_cached hr), hst] at hd
        cases hd
        exact (hc.dropped q b p owners _ hq (hnone _ hm) hr).not_stale)
  exact ⟨hupper.1, hlower.2.1, hupper.2.1, hupper.2.2⟩

end memo.LocalPeer
