-- Which peers a node of version 0.8.0 or later picks for new blocks: those whose
-- record says that they store. The flag of a record is written by four handlers, all
-- of them in the thread of the connection to the peer, which waits for the reply to its
-- advertisement and then serves the peer. An allocation waits between two picks.
import Memo.Gossip
import Memo.Runs

open ops runs

namespace memo.overlay.kouncil.allocation

variable {A E : Type} [DecidableEq A] [DecidableEq E]

/-! ## The handlers -/

def set_storing (id : A) (storing : Option Bool) (infos : List (PeerInfo A E)) :
    List (PeerInfo A E) :=
  modify id (fun p => { p with storing := storing }) infos

/-- `_peer_connected`, as far as the call of `kouncil_advertise`. -/
def _peer_connected (null : A) (peer : NodeLocation A E) : Op (Kouncil A E) Error Unit := do
  if peer.id = null then
    Op.throw (.assert_error "peer->id()")
  else
    Op.modify fun k =>
      { k with
        _peers := insert peer.id k._peers
        _stale_endpoints := Function.update k._stale_endpoints peer.id
          (some ((k._stale_endpoints peer.id).getD peer.endpoints))
        _infos := set_storing peer.id (some true) k._infos }

/-- The flag of a peer is written, and its record must be there. -/
def configure (id : A) (storing : Bool) : Op (Kouncil A E) Error Unit := do
  let k ← Op.get
  match find id k._infos with
  | some _ => Op.modify fun k => { k with _infos := set_storing id (some storing) k._infos }
  | none => Op.throw (.assert_error "find(this->_infos, r.id())")

/-- A record that comes from another node, without the flag. -/
def received (pi : PeerInfo A E) : PeerInfo A E := { pi with storing := none }

/-- `kouncil_discover` and `kouncil_advertise`. -/
def discover (null : A) (infos : List (PeerInfo A E)) : Op (Kouncil A E) Error Unit :=
  _discover_all null (infos.map received)

/-- The rest of `_advertise`, once the reply is there. -/
def advertised (null id : A) (infos : List (PeerInfo A E)) (storing : Bool) :
    Op (Kouncil A E) Error Unit := do
  discover null infos
  configure id storing

def _peer_disconnected (id : A) : Op (Kouncil A E) Error Unit := do
  Op.modify fun k =>
    { k with _infos := set_storing id none k._infos, _peers := k._peers.erase id }
  let k ← Op.get
  if k._stale_endpoints id = none then
    Op.throw (.assert_error "find(this->_stale_endpoints, id)")

def _peer_evicted (id : A) : Op (Kouncil A E) Error Unit := do
  let k ← Op.get
  if id ∈ k._peers then
    Op.throw (.assert_error "!this->_discovered(id)")
  else
    Op.modify fun k =>
      { k with
        _infos := k._infos.filter fun p => p.id ≠ id
        _stale_endpoints := Function.update k._stale_endpoints id none }

/-! ## An allocation -/

/-- The peers that are ready to store. -/
def ready (k : Kouncil A E) : List A :=
  (k._infos.filter fun p => p.storing = some true).map (·.id)

/-- A call of `_allocate`: the picks that it has not come to and the members that it has given.
`failed`: a pick was not found among the peers. -/
structure Allocation (A : Type) where
  picks : List A
  members : List A := []
  failed : Bool := false
deriving DecidableEq

/-- `pick_n(min(n, size), range)`. -/
def IsPick (n : Nat) (k : Kouncil A E) (picks : List A) : Prop :=
  picks.Sublist (ready k) ∧ picks.length = min n (ready k).length

instance (n : Nat) (k : Kouncil A E) (picks : List A) : Decidable (IsPick n k picks) :=
  inferInstanceAs (Decidable (_ ∧ _))

/-- One turn of the loop, to the next yield. -/
def Allocation.next (peers : Finset A) (a : Allocation A) : Allocation A :=
  match a.picks with
  | [] => a
  | id :: picks =>
    if id ∈ peers then { a with picks := picks, members := a.members ++ [id] }
    else { a with picks := [], failed := true }

/-! ## What may happen -/

/-- A node, its allocations, and its connections: those whose thread waits for the reply to
`kouncil_advertise`, and those whose thread serves the peer. -/
structure World (A E : Type) where
  node : Kouncil A E
  advertising : Finset A := ∅
  serving : Finset A := ∅
  allocations : List (Allocation A) := []

inductive Action (A E : Type) where
  | _peer_connected (peer : NodeLocation A E)
  | advertised (id : A) (infos : List (PeerInfo A E)) (storing : Bool)
  /-- The network fails during the call. -/
  | advertise_failed (id : A)
  | kouncil_configure (id : A) (storing : Bool)
  | discover (infos : List (PeerInfo A E))
  | _peer_disconnected (id : A)
  | _peer_evicted (id : A)
  | _allocate (n : Nat) (picks : List A)
  /-- An allocation goes on after a yield. -/
  | resume (i : Nat)

/-- What a handler leaves, whether it failed or not. -/
def World.after (w : World A E) (x : Op (Kouncil A E) Error Unit) : World A E :=
  { w with node := (x w.node).2 }

/-- The thread of a connection has its reply, or does not get it. -/
def World.serve (w : World A E) (id : A) : World A E :=
  { w with advertising := w.advertising.erase id, serving := insert id w.serving }

/-- The thread of a connection ends, wherever it was. -/
def World.hang_up (w : World A E) (id : A) : World A E :=
  { w with advertising := w.advertising.erase id, serving := w.serving.erase id }

def step (null : A) (w : World A E) : Action A E → Option (World A E)
  | ._peer_connected peer =>
    -- a second connection is dropped as a duplicate
    if peer.id ∈ w.advertising ∪ w.serving then none
    else
      let w' := w.after (_peer_connected null peer)
      some (if peer.id = null then w'
        else { w' with advertising := insert peer.id w'.advertising })
  | .advertised id infos storing =>
    if id ∈ w.advertising then some ((w.serve id).after (advertised null id infos storing))
    else none
  | .advertise_failed id => if id ∈ w.advertising then some (w.serve id) else none
  | .kouncil_configure id storing =>
    if id ∈ w.serving then some (w.after (configure id storing)) else none
  | .discover infos => some (w.after (discover null infos))
  | ._peer_disconnected id => some ((w.hang_up id).after (_peer_disconnected id))
  | ._peer_evicted id => some (w.after (_peer_evicted id))
  | ._allocate n picks =>
    if IsPick n w.node picks then
      let a : Allocation A := { picks := picks }
      some { w with allocations := w.allocations ++ [a.next w.node._peers] }
    else
      none
  | .resume i =>
    w.allocations[i]?.map fun a =>
      { w with allocations := w.allocations.set i (a.next w.node._peers) }

/-- The peers and the records that a node starts with. -/
def client (id : A) : World A E := { node := { id := id, has_local := false } }

/-- `_register_local`. -/
def server (id : A) (endpoints : Finset E) (stamp : Int) (storing : Bool) : World A E :=
  { node := {
      id := id, has_local := true, _peers := {id}
      _infos := [{ id := id, endpoints := endpoints, stamp := stamp, storing := some storing }] } }

/-! ## Allocatable peers -/

/-- The records that say that a peer stores are of peers that are connected. -/
def ReadyConnected (k : Kouncil A E) : Prop :=
  ∀ p ∈ k._infos, p.storing = some true → p.id ∈ k._peers

/-- A peer does not go while an allocation has it among the picks that it has not come to. -/
def Meets (w : World A E) : Action A E → Prop
  | ._peer_disconnected id => ∀ a ∈ w.allocations, id ∉ a.picks
  | _ => True

instance (w : World A E) : (a : Action A E) → Decidable (Meets w a)
  | ._peer_disconnected _ => inferInstanceAs (Decidable (∀ a ∈ w.allocations, _))
  | ._peer_connected _ | .advertised _ _ _ | .advertise_failed _ | .kouncil_configure _ _
  | .discover _ | ._peer_evicted _ | ._allocate _ _ | .resume _ => isTrue trivial

/-! ## The handlers keep it -/

variable {infos : List (PeerInfo A E)} {k : Kouncil A E} {w w' : World A E} {peers : Finset A}
  {id null : A}

omit [DecidableEq E] in
theorem mem_modify {f : PeerInfo A E → PeerInfo A E} {p : PeerInfo A E}
    (h : p ∈ modify id f infos) :
    (p ∈ infos ∧ p.id ≠ id) ∨ ∃ q ∈ infos, q.id = id ∧ p = f q := by
  unfold modify at h
  obtain ⟨q, hq, rfl⟩ := List.mem_map.mp h
  by_cases hid : q.id = id
  · rw [if_pos hid]
    exact Or.inr ⟨q, hq, hid, rfl⟩
  · rw [if_neg hid]
    exact Or.inl ⟨hq, hid⟩

omit [DecidableEq A] in
theorem merge_storing (p other : PeerInfo A E) : (p.merge other).1.storing = p.storing := by
  unfold PeerInfo.merge
  split <;> rfl

omit [DecidableEq E] in
theorem ReadyConnected.set_storing {storing : Option Bool}
    (h : ∀ p ∈ infos, p.id ≠ id → p.storing = some true → p.id ∈ peers)
    (hid : storing = some true → id ∈ peers) :
    ∀ p ∈ set_storing id storing infos, p.storing = some true → p.id ∈ peers := by
  intro p hp hs
  rcases mem_modify hp with ⟨hmem, hne⟩ | ⟨q, -, hq, rfl⟩
  · exact h p hmem hne hs
  · exact hq ▸ hid hs

theorem ReadyConnected.merge_in (h : ReadyConnected k) {pi : PeerInfo A E}
    (hpi : pi.storing = none) :
    ∀ p ∈ (merge_in pi k._infos).1, p.storing = some true → p.id ∈ k._peers := by
  intro p hp hs
  unfold kouncil.merge_in at hp
  cases hfind : find pi.id k._infos with
  | none =>
    rw [hfind] at hp
    rcases List.mem_append.mp hp with hmem | hmem
    · exact h p hmem hs
    · rw [List.mem_singleton.mp hmem, hpi] at hs
      cases hs
  | some q =>
    rw [hfind] at hp
    rcases mem_modify hp with ⟨hmem, -⟩ | ⟨r, hr, -, rfl⟩
    · exact h p hmem hs
    · rw [merge_storing] at hs
      rw [merge_id]
      exact h r hr hs

theorem announce_peers (pi : PeerInfo A E) (k : Kouncil A E) :
    (announce pi k)._peers = k._peers := by
  unfold announce _notify_observers connect _remember_stale
  dsimp only
  split <;> split <;> rfl

/-- What a handler does not touch. -/
def KeepsReady (x : Op (Kouncil A E) Error Unit) : Prop :=
  ∀ k, ReadyConnected k → ReadyConnected (x k).2 ∧ (x k).2._peers = k._peers

theorem _discover_keeps {pi : PeerInfo A E} (hpi : pi.storing = none) :
    KeepsReady (_discover null pi) := by
  intro k hk
  by_cases hnull : pi.id = null
  · unfold _discover
    rw [if_pos hnull]
    exact ⟨hk, rfl⟩
  · unfold _discover
    rw [if_neg hnull, Op.bind_of_ok (Op.get_apply k)]
    dsimp only
    rw [Op.bind_of_ok (Op.modify_apply _ k)]
    have hmerge := hk.merge_in hpi
    by_cases hc : (merge_in pi k._infos).2 = true
    · rw [if_pos hc, Op.modify_apply]
      refine ⟨?_, announce_peers pi _⟩
      intro p hp hs
      rw [(announce_infos pi _).1] at hp
      rw [announce_peers]
      exact hmerge p hp hs
    · rw [if_neg hc]
      exact ⟨hmerge, rfl⟩

omit [DecidableEq A] [DecidableEq E] in
theorem keeps_bind {x y : Op (Kouncil A E) Error Unit} (hx : KeepsReady x) (hy : KeepsReady y) :
    KeepsReady (x >>= fun _ => y) := by
  intro k hk
  obtain ⟨hk', hpeers⟩ := hx k hk
  rcases hres : x k with ⟨r, k'⟩
  rw [hres] at hk' hpeers
  cases r with
  | error e =>
    rw [Op.bind_of_error hres]
    exact ⟨hk', hpeers⟩
  | ok u =>
    rw [Op.bind_of_ok hres]
    exact ⟨(hy k' hk').1, (hy k' hk').2.trans hpeers⟩

theorem _discover_all_keeps (h : ∀ pi ∈ infos, pi.storing = none) :
    KeepsReady (_discover_all null infos) := by
  induction infos with
  | nil => exact fun k hk => ⟨hk, rfl⟩
  | cons pi infos ih =>
    have hrest := ih fun p hp => h p (List.mem_cons_of_mem _ hp)
    intro k hk
    unfold _discover_all
    rw [Op.bind_of_ok (Op.get_apply k)]
    apply keeps_bind _ hrest k hk
    split
    · exact fun k hk => ⟨hk, rfl⟩
    · exact _discover_keeps (h pi List.mem_cons_self)

theorem discover_keeps (null : A) (infos : List (PeerInfo A E)) :
    KeepsReady (discover null infos) := by
  apply _discover_all_keeps
  intro pi hpi
  obtain ⟨q, -, rfl⟩ := List.mem_map.mp hpi
  rfl

omit [DecidableEq E] in
theorem configure_keeps {storing : Bool} (hk : ReadyConnected k)
    (h : storing = true → id ∈ k._peers) :
    ReadyConnected (configure id storing k).2 ∧ (configure id storing k).2._peers = k._peers := by
  unfold configure
  rw [Op.bind_of_ok (Op.get_apply k)]
  cases find id k._infos with
  | none => exact ⟨hk, rfl⟩
  | some p =>
    refine ⟨?_, rfl⟩
    exact ReadyConnected.set_storing (fun p hp _ => hk p hp) fun hs => h (Option.some.inj hs)

theorem advertised_keeps {storing : Bool} (hk : ReadyConnected k)
    (h : storing = true → id ∈ k._peers) :
    ReadyConnected (advertised null id infos storing k).2 ∧
      (advertised null id infos storing k).2._peers = k._peers := by
  obtain ⟨hk', hpeers⟩ := discover_keeps null infos k hk
  unfold advertised
  rcases hres : discover null infos k with ⟨r, k'⟩
  rw [hres] at hk' hpeers
  cases r with
  | error e =>
    rw [Op.bind_of_error hres]
    exact ⟨hk', hpeers⟩
  | ok u =>
    rw [Op.bind_of_ok hres]
    obtain ⟨hk'', hpeers'⟩ := configure_keeps hk' fun hs => hpeers ▸ h hs
    exact ⟨hk'', hpeers'.trans hpeers⟩

omit [DecidableEq E] in
theorem _peer_connected_keeps (null : A) (peer : NodeLocation A E) (hk : ReadyConnected k) :
    ReadyConnected (_peer_connected null peer k).2 ∧
      k._peers ⊆ (_peer_connected null peer k).2._peers := by
  unfold _peer_connected
  by_cases hnull : peer.id = null
  · rw [if_pos hnull]
    exact ⟨hk, fun _ h => h⟩
  · rw [if_neg hnull]
    refine ⟨?_, Finset.subset_insert _ _⟩
    apply ReadyConnected.set_storing
    · exact fun p hp _ hs => Finset.mem_insert_of_mem (hk p hp hs)
    · exact fun _ => Finset.mem_insert_self _ _

omit [DecidableEq E] in
theorem _peer_disconnected_state (id : A) (k : Kouncil A E) :
    (_peer_disconnected id k).2 =
      { k with _infos := set_storing id none k._infos, _peers := k._peers.erase id } := by
  unfold _peer_disconnected
  rw [Op.bind_of_ok (Op.modify_apply _ k), Op.bind_of_ok (Op.get_apply _)]
  split <;> rfl

omit [DecidableEq E] in
theorem _peer_disconnected_keeps (hk : ReadyConnected k) :
    ReadyConnected (_peer_disconnected id k).2 := by
  rw [_peer_disconnected_state]
  apply ReadyConnected.set_storing
  · exact fun p hp hne hs => Finset.mem_erase_of_ne_of_mem hne (hk p hp hs)
  · exact fun h => absurd h (Option.some_ne_none true).symm

omit [DecidableEq E] in
theorem _peer_evicted_keeps (hk : ReadyConnected k) :
    ReadyConnected (_peer_evicted id k).2 ∧ (_peer_evicted id k).2._peers = k._peers := by
  unfold _peer_evicted
  rw [Op.bind_of_ok (Op.get_apply k)]
  split
  · exact ⟨hk, rfl⟩
  · refine ⟨?_, rfl⟩
    exact fun p hp hs => hk p (List.mem_of_mem_filter hp) hs

/-! ## The allocations -/

/-- The picks to come are of peers that are connected, and no pick was missed. -/
def Sound (peers : Finset A) (a : Allocation A) : Prop :=
  a.failed = false ∧ ∀ id ∈ a.picks, id ∈ peers

omit [DecidableEq A] in
theorem Sound.mono {peers' : Finset A} {a : Allocation A} (h : Sound peers a)
    (hsub : ∀ id ∈ a.picks, id ∈ peers → id ∈ peers') : Sound peers' a :=
  ⟨h.1, fun id hid => hsub id hid (h.2 id hid)⟩

theorem Sound.next {a : Allocation A} (h : Sound peers a) :
    Sound peers (a.next peers) := by
  unfold Allocation.next
  cases hp : a.picks with
  | nil => exact h
  | cons id picks =>
    have hpicks := h.2
    rw [hp] at hpicks
    dsimp only
    rw [if_pos (hpicks id List.mem_cons_self)]
    exact ⟨h.1, fun id' hid' => hpicks id' (List.mem_cons_of_mem _ hid')⟩

/-- What holds in every state. -/
structure Invariant (w : World A E) : Prop where
  ready : ReadyConnected w.node
  connected : w.advertising ∪ w.serving ⊆ w.node._peers
  sound : ∀ a ∈ w.allocations, Sound w.node._peers a

omit [DecidableEq E] in
theorem picked (h : Invariant w) {n : Nat} {picks : List A} (hp : IsPick n w.node picks) :
    Sound w.node._peers { picks := picks } := by
  refine ⟨rfl, ?_⟩
  intro id hid
  obtain ⟨p, hmem, rfl⟩ := List.mem_map.mp (hp.1.subset hid)
  rw [List.mem_filter, decide_eq_true_eq] at hmem
  exact h.ready p hmem.1 hmem.2

omit [DecidableEq E] in
theorem Invariant.of_grows (h : Invariant w)
    (hk : ReadyConnected w'.node ∧ w.node._peers ⊆ w'.node._peers)
    (hc : w'.advertising ∪ w'.serving ⊆ w'.node._peers)
    (ha : w'.allocations = w.allocations) : Invariant w' := by
  refine ⟨hk.1, hc, ?_⟩
  rw [ha]
  intro a hmem
  exact (h.sound a hmem).mono fun _ _ hin => hk.2 hin

omit [DecidableEq E] in
theorem Invariant.of_keeps (h : Invariant w)
    (hk : ReadyConnected w'.node ∧ w'.node._peers = w.node._peers)
    (hc : w'.advertising ∪ w'.serving ⊆ w.advertising ∪ w.serving)
    (ha : w'.allocations = w.allocations) : Invariant w' :=
  h.of_grows ⟨hk.1, hk.2.symm ▸ fun _ hin => hin⟩ (hk.2.symm ▸ hc.trans h.connected) ha

omit [DecidableEq E] in
theorem serve_subset (h : id ∈ w.advertising) :
    (w.serve id).advertising ∪ (w.serve id).serving ⊆ w.advertising ∪ w.serving := by
  intro id' hid'
  simp only [World.serve, Finset.mem_union, Finset.mem_erase, Finset.mem_insert] at hid' ⊢
  rcases hid' with ⟨-, hid'⟩ | rfl | hid'
  · exact Or.inl hid'
  · exact Or.inl h
  · exact Or.inr hid'

omit [DecidableEq E] in
theorem Invariant._peer_disconnected (h : Invariant w) (hm : ∀ a ∈ w.allocations, id ∉ a.picks) :
    Invariant ((w.hang_up id).after (allocation._peer_disconnected id)) := by
  have hpeers : ((w.hang_up id).after (allocation._peer_disconnected id)).node._peers =
      w.node._peers.erase id := by
    change (allocation._peer_disconnected id w.node).2._peers = _
    rw [_peer_disconnected_state]
  refine ⟨_peer_disconnected_keeps h.ready, ?_, ?_⟩
  · rw [hpeers]
    intro id' hid'
    simp only [World.after, World.hang_up, Finset.mem_union, Finset.mem_erase] at hid' ⊢
    have hin := @h.connected id'
    simp only [Finset.mem_union] at hin
    tauto
  · intro a ha
    rw [hpeers]
    apply (h.sound a ha).mono
    intro id' hid' hmem
    exact Finset.mem_erase_of_ne_of_mem (fun heq => hm a ha (heq ▸ hid')) hmem

theorem Invariant.step {a : Action A E} (h : Invariant w) (hm : Meets w a)
    (hs : step null w a = some w') : Invariant w' := by
  cases a with
  | _peer_connected peer =>
    have hk := _peer_connected_keeps null peer h.ready
    simp only [allocation.step, Option.ite_none_left_eq_some, Option.some.injEq] at hs
    obtain ⟨-, rfl⟩ := hs
    split
    · exact h.of_grows hk (h.connected.trans hk.2) rfl
    · rename_i hnull
      refine h.of_grows hk ?_ rfl
      dsimp only
      rw [Finset.insert_union]
      refine Finset.insert_subset ?_ (h.connected.trans hk.2)
      change _ ∈ (allocation._peer_connected null peer w.node).2._peers
      unfold allocation._peer_connected
      rw [if_neg hnull]
      exact Finset.mem_insert_self _ _
  | advertised id infos storing =>
    simp only [allocation.step, Option.ite_none_right_eq_some, Option.some.injEq] at hs
    obtain ⟨hin, rfl⟩ := hs
    have hid := h.connected (Finset.mem_union_left _ hin)
    exact h.of_keeps (advertised_keeps h.ready fun _ => hid) (serve_subset hin) rfl
  | advertise_failed id =>
    simp only [allocation.step, Option.ite_none_right_eq_some, Option.some.injEq] at hs
    obtain ⟨hin, rfl⟩ := hs
    exact h.of_keeps ⟨h.ready, rfl⟩ (serve_subset hin) rfl
  | kouncil_configure id storing =>
    simp only [allocation.step, Option.ite_none_right_eq_some, Option.some.injEq] at hs
    obtain ⟨hin, rfl⟩ := hs
    have hid := h.connected (Finset.mem_union_right _ hin)
    exact h.of_keeps (configure_keeps h.ready fun _ => hid) subset_rfl rfl
  | discover infos =>
    cases hs
    exact h.of_keeps (discover_keeps null infos _ h.ready) subset_rfl rfl
  | _peer_disconnected id =>
    cases hs
    exact h._peer_disconnected hm
  | _peer_evicted id =>
    cases hs
    exact h.of_keeps (_peer_evicted_keeps h.ready) subset_rfl rfl
  | _allocate n picks =>
    simp only [allocation.step, Option.ite_none_right_eq_some, Option.some.injEq] at hs
    obtain ⟨hp, rfl⟩ := hs
    refine ⟨h.ready, h.connected, ?_⟩
    intro a ha
    rcases List.mem_append.mp ha with hmem | hmem
    · exact h.sound a hmem
    · rw [List.mem_singleton.mp hmem]
      exact (picked h hp).next
  | resume i =>
    obtain ⟨a, ha, rfl⟩ := Option.map_eq_some_iff.mp hs
    refine ⟨h.ready, h.connected, ?_⟩
    intro b hb
    rcases List.mem_or_eq_of_mem_set hb with hmem | heq
    · exact h.sound b hmem
    · rw [heq]
      exact (h.sound a (List.mem_of_getElem? ha)).next

/-- A node that starts, alone or with a storage. -/
def Starts (w : World A E) : Prop :=
  (∃ id, w = client id) ∨ ∃ id endpoints stamp storing, w = server id endpoints stamp storing

omit [DecidableEq E] in
theorem Starts.invariant (h : Starts w) : Invariant w := by
  rcases h with ⟨id, rfl⟩ | ⟨id, endpoints, stamp, storing, rfl⟩
  · exact ⟨fun p hp _ => absurd hp List.not_mem_nil, by simp [client],
      fun a ha => absurd ha List.not_mem_nil⟩
  · refine ⟨?_, by simp [server], fun a ha => absurd ha List.not_mem_nil⟩
    intro p hp _
    rw [List.mem_singleton.mp hp]
    exact Finset.mem_singleton_self id

/-- A peer at some endpoint. -/
def peer (id endpoint : Nat) : NodeLocation Nat Nat := ⟨id, {endpoint}⟩

end memo.overlay.kouncil.allocation
