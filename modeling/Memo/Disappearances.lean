-- The ages of the peers that a `Kouncil` has lost: each record of a peer has the time of its
-- disappearance, and what travels is the age.
import Memo.Gossip
import Memo.Runs

open ops runs

namespace memo.overlay.kouncil

variable {A E : Type} [DecidableEq A]

/-! ## Ages -/

/-- `LamportAge`: a time in nanoseconds since the epoch. The epoch itself is no time. -/
abbrev LamportAge := Int

namespace LamportAge

def null : LamportAge := 0

/-- `LamportAge::serialize`, of the age that is read. -/
def of_age (now age : Int) : LamportAge := if age = 0 then null else now - age

end LamportAge

/-! ## The peers -/

/-- A `Kouncil` with the disappearance in the record of each peer. `before` has the peers that were
connected, which no function reads. -/
structure Watch (A E : Type) where
  node : Kouncil A E
  disappearance : A → LamportAge := fun _ => LamportAge.null
  before : Finset A := ∅

inductive PeerEvent (A E : Type) where
  /-- `_discover` of a record that is read with this age. -/
  | discover (pi : PeerInfo A E) (age : Int)
  /-- `_peer_connected`, `_peer_disconnected` and `_peer_evicted`. -/
  | connected (id : A)
  | disconnected (id : A)
  | evicted (id : A)
  /-- The configuration of a peer comes in. -/
  | configure (id : A) (storing : Option Bool)
deriving DecidableEq

namespace Watch

/-- `_discover`: the age of a record that is inserted is kept, and `merge` leaves the age that is
there. -/
def discover [DecidableEq E] (null : A) (now : Int) (pi : PeerInfo A E) (age : Int)
    (s : Watch A E) : Watch A E :=
  { s with
    node := (_discover null pi s.node).2
    disappearance :=
      if (find pi.id s.node._infos).isSome then s.disappearance
      else Function.update s.disappearance pi.id (LamportAge.of_age now age) }

/-- `_peer_connected`. -/
def connected (id : A) (s : Watch A E) : Watch A E :=
  { s with
    node :=
      { s.node with
        _peers := insert id s.node._peers
        _infos := modify id (fun p => { p with storing := some true }) s.node._infos }
    before := insert id s.before }

/-- `_peer_disconnected`. -/
def disconnected (now : Int) (id : A) (s : Watch A E) : Watch A E :=
  { s with
    node :=
      { s.node with
        _peers := s.node._peers.erase id
        _infos := modify id (fun p => { p with storing := none }) s.node._infos }
    disappearance :=
      if (find id s.node._infos).isSome then Function.update s.disappearance id now
      else s.disappearance }

/-- `_peer_evicted`, and the records that are left. -/
def evicted (id : A) (s : Watch A E) : Watch A E :=
  { s with
    node :=
      { s.node with
        _infos := s.node._infos.filter fun p => p.id ≠ id
        _stale_endpoints := Function.update s.node._stale_endpoints id none } }

def configure (id : A) (storing : Option Bool) (s : Watch A E) : Watch A E :=
  { s with
    node :=
      { s.node with
        _infos := modify id (fun p => { p with storing }) s.node._infos } }

/-- What happens at a time, which is after the epoch. A peer is connected before it disconnects,
and is not evicted while it is connected. -/
def step [DecidableEq E] (null : A) (s : Watch A E) : Int × PeerEvent A E → Option (Watch A E)
  | (now, a) =>
    if now ≤ 0 then none else
      match a with
      | .discover pi age => if pi.id = null then none else some (s.discover null now pi age)
      | .connected id => if id = null then none else some (s.connected id)
      | .disconnected id =>
        if id ∈ s.node._peers then some (s.disconnected now id) else none
      | .evicted id => if id ∈ s.node._peers then none else some (s.evicted id)
      | .configure id storing =>
        -- `ELLE_ENFORCE`
        if (find id s.node._infos).isSome then some (s.configure id storing) else none

/-! ## Ages of the connected -/

/-- The record of a peer says whether it is lost. -/
def Told (s : Watch A E) : Prop :=
  ∀ id, (find id s.node._infos).isSome →
    (id ∈ s.node._peers → s.disappearance id = LamportAge.null) ∧
      (id ∈ s.before → id ∉ s.node._peers → s.disappearance id ≠ LamportAge.null)

/-- A peer connects that has no record, or one without a disappearance. A record that is inserted
has no disappearance when the peer is connected, and has one when it was. -/
def Timely (s : Watch A E) : Int × PeerEvent A E → Prop
  | (now, .discover pi age) => find pi.id s.node._infos = none →
    (pi.id ∈ s.node._peers → LamportAge.of_age now age = LamportAge.null) ∧
      (pi.id ∈ s.before → pi.id ∉ s.node._peers →
        LamportAge.of_age now age ≠ LamportAge.null)
  | (_, .connected id) => (find id s.node._infos).isSome →
    s.disappearance id = LamportAge.null
  | (_, .disconnected _) | (_, .evicted _) | (_, .configure _ _) => True

instance (s : Watch A E) : (a : Int × PeerEvent A E) → Decidable (s.Timely a)
  | (_, .discover _ _) => inferInstanceAs (Decidable (_ = _ → (_ → (_ : Int) = _) ∧
      (_ → _ → ¬(_ : Int) = _)))
  | (_, .connected _) => inferInstanceAs (Decidable (_ → (_ : Int) = _))
  | (_, .disconnected _) | (_, .evicted _) | (_, .configure _ _) => isTrue trivial

variable {null id id' : A} {s s' : Watch A E} {infos : List (PeerInfo A E)} {pi : PeerInfo A E}
  {now age : Int} {as : List (Int × PeerEvent A E)}

theorem find_isSome_iff : (find id infos).isSome ↔ ∃ p ∈ infos, p.id = id := by
  unfold find
  rw [List.find?_isSome]
  simp

theorem find_modify_isSome {f : PeerInfo A E → PeerInfo A E} (hf : ∀ p, (f p).id = p.id) :
    (find id (modify id' f infos)).isSome ↔ (find id infos).isSome := by
  rw [find_isSome_iff, find_isSome_iff]
  unfold modify
  simp only [List.mem_map, exists_exists_and_eq_and]
  constructor
  · rintro ⟨p, hp, hid⟩
    refine ⟨p, hp, ?_⟩
    split_ifs at hid
    · exact (hf p) ▸ hid
    · exact hid
  · rintro ⟨p, hp, hid⟩
    refine ⟨p, hp, ?_⟩
    split_ifs
    · exact (hf p).trans hid
    · exact hid

theorem find_merge_in_isSome [DecidableEq E] :
    (find id (merge_in pi infos).1).isSome ↔ (find id infos).isSome ∨ id = pi.id := by
  unfold merge_in
  cases hp : find pi.id infos with
  | none =>
    dsimp only
    rw [find_isSome_iff, find_isSome_iff]
    simp only [List.mem_append, List.mem_singleton, or_and_right, exists_or, exists_eq_left,
      eq_comm (a := id)]
  | some p =>
    dsimp only
    rw [find_modify_isSome fun p => merge_id p pi]
    constructor
    · exact .inl
    · rintro (h | rfl)
      · exact h
      · rw [hp]
        rfl

theorem announce_peers [DecidableEq E] (pi : PeerInfo A E) (k : Kouncil A E) :
    (announce pi k)._peers = k._peers := by
  unfold announce _notify_observers connect _remember_stale
  dsimp only
  split <;> split <;> rfl

theorem _discover_peers [DecidableEq E] (k : Kouncil A E) :
    (_discover null pi k).2._peers = k._peers := by
  unfold _discover
  split
  · rfl
  · rw [Op.bind_of_ok (Op.get_apply k)]
    dsimp only
    rw [Op.bind_of_ok (Op.modify_apply _ k)]
    split
    · exact announce_peers pi _
    · rfl

theorem Told.discover_iff [DecidableEq E] (h : s.Told) (hnull : pi.id ≠ null) :
    (s.discover null now pi age).Told ↔ s.Timely (now, .discover pi age) := by
  obtain ⟨k', hread, -, hinfos⟩ := _discover_infos s.node hnull
  have hpeers : k'._peers = s.node._peers := by
    have hrest : (_discover null pi s.node).2._peers = s.node._peers := _discover_peers s.node
    rw [hread] at hrest
    exact hrest
  have hfound : ∀ id, (find id k'._infos).isSome ↔
      (find id s.node._infos).isSome ∨ id = pi.id := by
    intro id
    rw [hinfos, find_merge_in_isSome]
  unfold Told Timely Watch.discover
  rw [hread]
  dsimp only
  simp only [hpeers, hfound]
  cases hold : find pi.id s.node._infos with
  | some p =>
    simp only [Option.isSome_some, if_true, reduceCtorEq, false_implies, iff_true]
    intro id hid
    rcases hid with hid | rfl
    · exact h id hid
    · exact h pi.id (by rw [hold]; rfl)
  | none =>
    simp only [Option.isSome_none, Bool.false_eq_true, if_false, forall_const]
    constructor
    · intro hall
      have hpi := hall pi.id (.inr rfl)
      rw [Function.update_self] at hpi
      exact hpi
    · rintro htimely id (hid | rfl)
      · have hne : id ≠ pi.id := by
          rintro rfl
          rw [hold] at hid
          cases hid
        rw [Function.update_of_ne hne]
        exact h id hid
      · rw [Function.update_self]
        exact htimely

theorem Told.connected_iff (h : s.Told) : (s.connected id).Told ↔
    ((find id s.node._infos).isSome → s.disappearance id = LamportAge.null) := by
  unfold Told Watch.connected
  dsimp only
  simp only [find_modify_isSome (f := fun p : PeerInfo A E => { p with storing := some true })
    fun _ => rfl]
  constructor
  · exact fun hall hid => (hall id hid).1 (Finset.mem_insert_self id _)
  · intro hnone id' hid'
    by_cases heq : id' = id
    · subst heq
      exact ⟨fun _ => hnone hid', fun _ hout => absurd (Finset.mem_insert_self id' _) hout⟩
    · simp only [Finset.mem_insert, heq, false_or]
      exact h id' hid'

theorem Told.disconnected (h : s.Told) (hnow : 0 < now) : (s.disconnected now id).Told := by
  unfold Told Watch.disconnected
  dsimp only
  simp only [find_modify_isSome (f := fun p : PeerInfo A E => { p with storing := none })
    fun _ => rfl]
  intro id' hid'
  by_cases heq : id' = id
  · subst heq
    rw [if_pos hid', Function.update_self]
    refine ⟨fun hin => absurd hin (Finset.notMem_erase id' _), fun _ _ => ?_⟩
    change (now : Int) ≠ 0
    omega
  · have hsame : (if (find id s.node._infos).isSome = true then
        Function.update s.disappearance id now else s.disappearance) id' = s.disappearance id' := by
      split_ifs
      · exact Function.update_of_ne heq _ _
      · rfl
    rw [hsame, Finset.mem_erase]
    simp only [heq, not_false_eq_true, true_and, ne_eq]
    exact h id' hid'

theorem Told.evicted (h : s.Told) : (s.evicted id).Told := by
  intro id' hid'
  have hold : (find id' s.node._infos).isSome := by
    rw [find_isSome_iff] at hid' ⊢
    obtain ⟨p, hp, heq⟩ := hid'
    exact ⟨p, List.mem_of_mem_filter hp, heq⟩
  exact h id' hold

theorem Told.configure (h : s.Told) (storing : Option Bool) : (s.configure id storing).Told := by
  intro id' hid'
  have hold : (find id' s.node._infos).isSome :=
    (find_modify_isSome (f := fun p : PeerInfo A E => { p with storing }) fun _ => rfl).mp hid'
  exact h id' hold

theorem Told.step_iff [DecidableEq E] {a : Int × PeerEvent A E} (h : s.Told)
    (hs : step null s a = some s') :
    s'.Told ↔ s.Timely a := by
  obtain ⟨now, a⟩ := a
  unfold step at hs
  dsimp only at hs
  split_ifs at hs with hnow
  cases a with
  | discover pi age =>
    dsimp only at hs
    split_ifs at hs with hnull
    obtain rfl := Option.some.inj hs
    exact h.discover_iff hnull
  | connected id =>
    dsimp only at hs
    split_ifs at hs
    obtain rfl := Option.some.inj hs
    exact h.connected_iff
  | disconnected id =>
    dsimp only at hs
    split_ifs at hs
    obtain rfl := Option.some.inj hs
    simp only [Timely, iff_true]
    exact h.disconnected (by omega)
  | evicted id =>
    dsimp only at hs
    split_ifs at hs
    obtain rfl := Option.some.inj hs
    simp only [Timely, iff_true]
    exact h.evicted
  | configure id storing =>
    dsimp only at hs
    split_ifs at hs
    obtain rfl := Option.some.inj hs
    simp only [Timely, iff_true]
    exact h.configure storing

/-- A node with records that it made itself, and the peers that it is connected to. -/
def started (k : Kouncil A E) : Watch A E := { node := k, before := k._peers }

theorem told_started (k : Kouncil A E) : (started k).Told :=
  fun _ _ => ⟨fun _ => rfl, fun hbefore hout => absurd hbefore hout⟩

/-- The ages are right in each state of a run exactly when each of its steps is one in time. -/
theorem ages_are_right_iff [DecidableEq E] (k : Kouncil A E)
    (h : Run (step null) anyStep (started k) as s) :
    (∀ done t, done <+: as → Run (step null) anyStep (started k) done t → t.Told) ↔
      Run (step null) Timely (started k) as s :=
  h.always_iff (told_started k) (fun _ hs => hs)
    (fun _ _ _ hs hok hstep => (hs.step_iff hstep).mpr hok)
    fun _ _ _ hs _ hno hstep hright => hno ((hs.step_iff hstep).mp hright)

/-- A node that knows no peer. -/
def alone : Kouncil Nat Nat := { id := 9, has_local := false }

/-- Peer 1 is discovered, connects and is lost. -/
def lost : List (Int × PeerEvent Nat Nat) :=
  [(5, .discover (seen 10 1) 0), (6, .connected 1), (7, .disconnected 1)]

theorem the_age_of_a_lost_peer_is_right : ∃ s : Watch Nat Nat,
    Run (step 0) anyStep (started alone) lost s ∧ s.disappearance 1 = 7 ∧
      ∀ done t, done <+: lost → Run (step 0) anyStep (started alone) done t → t.Told := by
  have hexec : (exec (step 0) Timely (started alone) lost).map
      (fun s : Watch Nat Nat => s.disappearance 1) = some 7 := by
    decide +kernel
  obtain ⟨s, hrun, hs⟩ := Run.of_exec_map hexec
  have hany : Run (step 0) anyStep (started alone) lost s := hrun.mono fun _ _ _ => trivial
  exact ⟨s, hany, hs, (ages_are_right_iff alone hany).mpr hrun⟩

/-- It is connected again. -/
theorem a_connected_peer_has_an_age : ∃ s : Watch Nat Nat,
    Run (step 0) anyStep (started alone) (lost ++ [(8, .connected 1)]) s ∧
      1 ∈ s.node._peers ∧ (find 1 s.node._infos).isSome ∧ s.disappearance 1 = 7 ∧ ¬s.Told := by
  have hexec : (exec (step 0) anyStep (started alone) (lost ++ [(8, .connected 1)])).map
      (fun s : Watch Nat Nat =>
        (decide (1 ∈ s.node._peers), (find 1 s.node._infos).isSome, s.disappearance 1)) =
      some (true, true, 7) := by
    decide +kernel
  obtain ⟨s, hrun, hs⟩ := Run.of_exec_map hexec
  simp only [Prod.mk.injEq, decide_eq_true_eq] at hs
  obtain ⟨hpeer, hknown, hage⟩ := hs
  refine ⟨s, hrun, hpeer, hknown, hage, fun htold => ?_⟩
  have hnull := (htold 1 hknown).1 hpeer
  rw [hage] at hnull
  cases hnull

end Watch

end memo.overlay.kouncil
