-- The calls on a node in progress together. A call runs until it waits for the
-- storage, the network, or the check of a block, and the others run meanwhile.
-- The cache refers to the acceptors, and a call keeps its own reference across
-- a wait: a counted one, as `_load_paxos` gives it, or a plain one, as `_load`.
import Memo.LocalPeer
import Memo.Runs

open athena.paxos

namespace memo

variable {B A R : Type} [LinearOrder A] [Inhabited A]

/-! ## The data -/

/-- A block that took a place on the node, and the block that was there. -/
structure Put (B A : Type) where
  address : A
  block : B
  replaced : Option B

/-- The node, with the acceptors that its cache refers to, and the blocks that were put on it,
which no function reads. An acceptor that left the cache keeps its place. -/
structure Node (B A : Type) where
  peer : LocalPeer B A Nat
  heap : List (A × Server B A)
  log : List (Put B A)

/-- A call on the node. `evict` has the blocks that are left to treat. -/
inductive Call (B A R : Type) where
  | load (a : A)
  | propose (peers : Finset A) (a : A) (p : Proposal A) (insert : Bool)
  | accept (peers : Finset A) (a : A) (p : Proposal A) (value : Value B A)
  | confirm (peers : Finset A) (a : A) (p : Proposal A)
  | get (peers : Finset A) (a : A)
  | propagate (q : Finset A) (b : B) (p : Proposal A)
  | evict (lost_id : A) (blocks : List A)
  | store (b : B) (mode : StoreMode)
  | remove (a : A) (rs : R)
  | reconcile (a : A)
  | inspect (a : A)

/-- What a call in progress waits for. -/
inductive Task (B A R : Type) where
  /-- The check of the block of an `accept` or of a `store`. -/
  | validating (c : Call B A R)
  /-- The storage, in `_load`. -/
  | fetching (a : A) (c : Call B A R)
  /-- The overlay, in `_load` of an immutable block. -/
  | expanding (a : A) (b : B) (c : Call B A R)
  /-- The check of the block of an `accept` by the block that it follows. -/
  | comparing (peers : Finset A) (a : A) (p : Proposal A) (b : B) (o : Nat) (previous : B)
  /-- The storage of an acceptor. A `confirm` goes on after it, with whether there was a value. -/
  | saving (a : A) (o : Nat) (data : Server B A) (confirm : Option Bool)
  /-- The election of a quorum without the node that is lost, from the quorum `q`. -/
  | electing (lost_id : A) (blocks : List A) (a : A) (o : Nat) (q : Finset A)
  /-- The answers of the members, in `reconcile`. -/
  | gathering (a : A) (o : Nat)
  /-- The check of a removal. -/
  | allowing (a : A) (b : B) (rs : R)
  /-- The storage, in `_remove`. -/
  | erasing (a : A)
  /-- The storage of the block before, the check by it, and the storage, in `store`. -/
  | reading (b : B) (mode : StoreMode)
  | replacing (b : B) (mode : StoreMode) (previous : B)
  | writing (b : B) (mode : StoreMode) (previous : Option B)
  /-- The call returned or failed. -/
  | done

/-- What a call learns when it goes on. -/
inductive News (A : Type) where
  | proceed
  | owners (q : Finset A)
  | conflict
  | wrong_quorum (expected : Finset A)
  | missing
  | failed

/-- The acceptor that a call refers to across its wait, and whether the reference is counted. -/
def Task.uses : Task B A R → Option (A × Nat × Bool)
  | .comparing _ a _ _ o _ => some (a, o, true)
  | .saving a o _ none => some (a, o, true)
  | .saving a o _ (some _) => some (a, o, false)
  | .electing _ _ a o _ => some (a, o, false)
  | .gathering a o => some (a, o, true)
  | _ => none

/-! ## The blocks of an acceptor -/

/-- The block that an acceptor serves. -/
def current_block (d : Server B A) : Option B := LocalPeer.last_block (.paxos d)

/-- The block that is accepted and not confirmed. -/
def unconfirmed (d : Server B A) : Option B :=
  match d.state with
  | some ⟨_, some ⟨_, .value b, false⟩⟩ => some b
  | _ => none

/-- The committed and the accepted block. -/
def blocks (d : Server B A) : List B :=
  d.value.toList ++
    match d.state with
    | some ⟨_, some ⟨_, .value b, _⟩⟩ => [b]
    | _ => []

/-- The acceptor takes the value: the proposal is the one it promised. -/
def takes (d : Server B A) (peers : Finset A) (p : Proposal A) : Bool :=
  (match d.check_quorum_unless_partial peers p with
    | .ok _ => true
    | .error _ => false) && d.state.any (·.proposal = p)

namespace Node

/-! ## The cache -/

/-- An acceptor enters the cache, unless another call brought one in meanwhile. `counted` tells
the acceptors that a call has a counted reference to. -/
def _load_decision (counted : Nat → Bool) (node : Node B A) (a : A) (d : Server B A) :
    Node B A × Nat :=
  let peer := LocalPeer._cache a false d.current_quorum node.peer
  match peer.cached a with
  | some o =>
    ({ node with peer := { peer with
        addresses := LocalPeer.unload peer.max_addresses_size
          (fun e => e.2 = o || counted e.2) 0 peer.addresses } }, o)
  | none =>
    let o := node.heap.length
    ({ node with
      heap := node.heap ++ [(a, d)]
      peer := { peer with
        addresses := LocalPeer.unload peer.max_addresses_size
          (fun e => e.2 = o || counted e.2) 0 (peer.addresses ++ [(a, o)]) } }, o)

/-- The acceptor changes, for the cache and for all that refer to it. -/
def write (node : Node B A) (a : A) (o : Nat) (d : Server B A) : Node B A :=
  { node with heap := node.heap.set o (a, d) }

/-- `_addresses.erase` of the inspector of the rebalancing. -/
def drop (node : Node B A) (a : A) : Node B A :=
  { node with peer := { node.peer with addresses := node.peer.addresses.filter (·.1 ≠ a) } }

/-- `_cache`. -/
def index (node : Node B A) (a : A) (immutable : Bool) (quorum : Finset A) : Node B A :=
  { node with peer := LocalPeer._cache a immutable quorum node.peer }

def put (node : Node B A) (a : A) (b : B) (replaced : Option B) : Node B A :=
  { node with log := node.log ++ [⟨a, b, replaced⟩] }

/-- A call on the acceptor, and then its storage when the call did not fail. -/
def save {α : Type} (node : Node B A) (a : A) (o : Nat) (confirm : Option Bool)
    (result : Except (Error A) α × Server B A) : Node B A × Task B A R :=
  match result with
  | (.ok _, d) => (node.write a o d, .saving a o d confirm)
  | (.error _, d) => (node.write a o d, .done)

/-! ## The calls, from one wait to the next -/

/-- The end of `accept`. -/
def accept (node : Node B A) (peers : Finset A) (a : A) (p : Proposal A) (value : Value B A)
    (o : Nat) (d : Server B A) : Node B A × Task B A R :=
  let node := match value with
    | .value b => if takes d peers p then node.put a b (current_block d) else node
    | .quorum _ => node
  node.save a o none (d.accept peers p value)

/-- The first part of `confirm`. -/
def confirm (node : Node B A) (peers : Finset A) (a : A) (p : Proposal A) (o : Nat)
    (d : Server B A) : Node B A × Task B A R :=
  let node := match unconfirmed d, unconfirmed (d.confirm peers p).2 with
    | some b, none => node.put a b (current_block d)
    | _, _ => node
  node.save a o (some d.current_value.isSome) (d.confirm peers p)

/-- The call goes on with the acceptor that it asked for. -/
def loaded (node : Node B A) (a : A) (o : Nat) (c : Call B A R) : Node B A × Task B A R :=
  match node.heap[o]? with
  | none => (node, .done)
  | some (_, d) =>
    match c with
    | .load _ => (node, .done)
    | .propose peers _ p _ => node.save a o none (d.propose peers p)
    | .accept peers _ p value =>
      match value, current_block d with
      | .value b, some previous => (node, .comparing peers a p b o previous)
      | _, _ => node.accept peers a p value o d
    | .confirm peers _ p => node.confirm peers a p o d
    | .get _ _ => (node, .done)
    | .propagate q _ p => node.save a o none (LocalPeer.elect d q p)
    | .evict lost_id blocks => (node, .electing lost_id blocks a o d.current_quorum)
    | .store _ _ => (node, .done)
    | .remove _ rs =>
      match current_block d with
      | some b => (node, .allowing a b rs)
      | none => (node, .erasing a)
    | .reconcile _ => (node, .gathering a o)
    | .inspect _ =>
      match node.peer.quorums a with
      | none => (node, .done)
      | some r => if node.peer.factor ≤ r.quorum.card then (node.drop a, .done) else (node, .done)

/-- The begin of `_load` and of `_load_paxos`: the acceptor of the cache, or the storage. -/
def load (node : Node B A) (a : A) (c : Call B A R) : Node B A × Task B A R :=
  match node.peer.cached a with
  | some o => loaded { node with peer := node.peer.use a o } a o c
  | none => (node, .fetching a c)

/-- The next block of an eviction. -/
def evict_next (node : Node B A) (lost_id : A) : List A → Node B A × Task B A R
  | [] => (node, .done)
  | a :: blocks => node.load a (.evict lost_id blocks)

/-- The call goes on with an immutable block. -/
def loaded_block (model : Model B A R) (node : Node B A) (a : A) (b : B) (c : Call B A R) :
    Node B A × Task B A R :=
  match c with
  | .confirm peers _ _ => (node.index a true peers, .done)
  | .evict lost_id blocks =>
    match node.peer.quorums (model.address b) with
    | none => (node, .done)
    | some r =>
      if lost_id ∈ r.quorum then
        (node.index (model.address b) true (r.quorum.erase lost_id)).evict_next lost_id blocks
      else node.evict_next lost_id blocks
  | .remove _ rs => (node, .allowing a b rs)
  | _ => (node, .done)

/-- The call goes on without a block: a new acceptor, or an exception. -/
def missing (counted : Nat → Bool) (node : Node B A) (a : A) (c : Call B A R) :
    Node B A × Task B A R :=
  match c with
  | .propose peers _ _ true =>
    let (node, o) := node._load_decision counted a
      (Server.new node.peer.id peers none node.peer.version)
    node.loaded a o c
  | .propagate q b _ =>
    let (node', o) := node._load_decision counted a
      (Server.new node.peer.id q (some b) node.peer.version)
    -- the block is put on the node, unless another call brought in an acceptor meanwhile
    let node' := if (node.peer.cached a).isNone then node'.put a b none else node'
    node'.loaded a o c
  | .reconcile _ => (node, .erasing a)
  | _ => (node, .done)

/-- The call goes on with what is stored. -/
def fetched (model : Model B A R) (counted : Nat → Bool) (node : Node B A) (a : A)
    (c : Call B A R) : Node B A × Task B A R :=
  match node.peer.storage a with
  | none => node.missing counted a c
  | some (.block b) =>
    if node.peer.rebalance_auto_expand && (node.peer.quorums a).isNone then
      (node, .expanding a b c)
    else node.loaded_block model a b c
  | some (.paxos d) =>
    let (node, o) := node._load_decision counted a d
    node.loaded a o c

/-- The begin of a call. -/
def start (model : Model B A R) (node : Node B A) (c : Call B A R) : Node B A × Task B A R :=
  match c with
  | .load a => node.load a c
  | .propose _ a _ _ => node.load a c
  | .accept _ _ _ (.value _) => (node, .validating c)
  | .accept _ a _ (.quorum _) => node.load a c
  | .confirm _ a _ => node.load a c
  | .get _ a => node.load a c
  | .propagate _ b _ =>
    if (node.peer.cached (model.address b)).isSome then (node, .done)
    else node.load (model.address b) c
  | .evict lost_id blocks => node.evict_next lost_id blocks
  | .store _ _ => (node, .validating c)
  | .remove a _ => node.load a c
  | .reconcile a => if model.mutable_block a then node.load a c else (node, .done)
  | .inspect a => node.load a c

/-- `storage()->set` of an acceptor. -/
def set_acceptor (node : Node B A) (a : A) (data : Server B A) : Node B A :=
  let log := match node.peer.storage a with
    | some (.block c) => (blocks data).map (⟨a, ·, some c⟩)
    | _ => []
  { node with
    log := node.log ++ log
    peer := { node.peer with
      storage := Function.update node.peer.storage a (some (.paxos data)) } }

/-- `storage()->set` of an immutable block. -/
def set_block (model : Model B A R) (node : Node B A) (b : B) (mode : StoreMode) : Node B A :=
  let a := model.address b
  let set := { node.put a b ((node.peer.storage a).bind LocalPeer.last_block) with
    peer := { node.peer with
      storage := Function.update node.peer.storage a (some (.block b)) } }
  match mode, node.peer.storage a with
  | .insert, none => set
  | .update, some _ => set
  | _, _ => node

/-- A call goes on after its wait. -/
def resume (model : Model B A R) (counted : Nat → Bool) (node : Node B A) (task : Task B A R)
    (news : News A) : Option (Node B A × Task B A R) :=
  match task, news with
  | .validating (.accept peers a p (.value b)), .proceed =>
    some (if model.validate b = .success then node.load a (.accept peers a p (.value b))
      else (node, .done))
  | .validating (.store b mode), .proceed =>
    some (if model.validate b = .success && model.immutable b then (node, .reading b mode)
      else (node, .done))
  | .fetching a c, .proceed => some (node.fetched model counted a c)
  | .expanding a b c, .owners q => some ((node.index a true q).loaded_block model a b c)
  | .comparing peers a p b o previous, .proceed =>
    some (if model.validate_next previous b = .success then
      match node.heap[o]? with
      | some (_, d) => node.accept peers a p (.value b) o d
      | none => (node, .done)
    else (node, .done))
  | .saving a _ data none, .proceed => some (node.set_acceptor a data, .done)
  | .saving a o data (some had_value), .proceed =>
    let node := node.set_acceptor a data
    -- the acceptor is read again after the wait
    match node.heap[o]? with
    | none => some (node, .done)
    | some (_, d) =>
      match LocalPeer.new_quorum had_value d with
      | none => some (node, .done)
      | some q =>
        if node.peer.id ∈ q then some (node.index a false q, .done) else some (node, .erasing a)
  | .electing lost_id blocks _ _ _, .proceed => some (node.evict_next lost_id blocks)
  | .electing lost_id blocks a o q, .conflict =>
    -- there is no election when the quorum does not have the lost node
    if lost_id ∈ q then
      match node.heap[o]? with
      | none => some (node, .done)
      | some (_, d) => some (node, .electing lost_id blocks a o d.current_quorum)
    else none
  | .electing lost_id blocks a o q, .wrong_quorum expected =>
    if lost_id ∈ q then some (node, .electing lost_id blocks a o expected) else none
  | .electing lost_id blocks _ _ _, .failed => some (node.evict_next lost_id blocks)
  | .gathering _ _, .proceed => some (node, .done)
  | .gathering a _, .missing => some (node, .erasing a)
  | .gathering _ _, .failed => some (node, .done)
  | .allowing a b rs, .proceed =>
    some (node, if model.validate_remove b rs = .success then .erasing a else .done)
  | .erasing a, .proceed =>
    some (match node.peer.storage a with
      | none => (node, .done)
      | some _ => ({ node with peer := LocalPeer.erase a node.peer }, .done))
  | .reading b mode, .proceed =>
    some (node, match node.peer.storage (model.address b) with
      | none => .writing b mode none
      | some (.paxos _) => .done
      | some (.block previous) => .replacing b mode previous)
  | .replacing b mode previous, .proceed =>
    some (node, if model.validate_next previous b = .success then .writing b mode (some previous)
      else .done)
  | .writing b mode _, .proceed => some (node.set_block model b mode, .done)
  | _, _ => none

/-! ## What a call can do when it goes on

The relation lists the outcomes of `resume`, with what the code checked on the
way. The laws of the node go through these cases and do not open the code
again. -/

inductive Resumed (model : Model B A R) (counted : Nat → Bool) (node : Node B A) :
    Task B A R → Node B A × Task B A R → Prop
  | ended (task : Task B A R) : Resumed model counted node task (node, .done)
  | admitted {peers : Finset A} {a : A} {p : Proposal A} {b : B}
      (hv : model.validate b = .success) :
      Resumed model counted node (.validating (.accept peers a p (.value b)))
        (node.load a (.accept peers a p (.value b)))
  | valid {b : B} {mode : StoreMode} (hv : model.validate b = .success) :
      Resumed model counted node (.validating (.store b mode)) (node, .reading b mode)
  | fetched {a : A} {c : Call B A R} :
      Resumed model counted node (.fetching a c) (node.fetched model counted a c)
  | expanded {a : A} {b : B} {c : Call B A R} (q : Finset A) :
      Resumed model counted node (.expanding a b c) ((node.index a true q).loaded_block model a b c)
  | compared {peers : Finset A} {a : A} {p : Proposal A} {b : B} {o : Nat} {previous : B}
      {e : A × Server B A} (hn : model.validate_next previous b = .success)
      (hd : node.heap[o]? = some e) :
      Resumed model counted node (.comparing peers a p b o previous)
        (node.accept peers a p (.value b) o e.2)
  | saved {a : A} {o : Nat} {data : Server B A} {confirm : Option Bool} :
      Resumed model counted node (.saving a o data confirm) (node.set_acceptor a data, .done)
  | stays {a : A} {o : Nat} {data : Server B A} {confirm : Option Bool} (q : Finset A) :
      Resumed model counted node (.saving a o data confirm)
        ((node.set_acceptor a data).index a false q, .done)
  | leaves {a : A} {o : Nat} {data : Server B A} {confirm : Option Bool} :
      Resumed model counted node (.saving a o data confirm) (node.set_acceptor a data, .erasing a)
  | elected {lost_id a : A} {blocks : List A} {o : Nat} {q : Finset A} :
      Resumed model counted node (.electing lost_id blocks a o q) (node.evict_next lost_id blocks)
  | again {lost_id a : A} {blocks : List A} {o : Nat} {q : Finset A} (q' : Finset A) :
      Resumed model counted node (.electing lost_id blocks a o q)
        (node, .electing lost_id blocks a o q')
  | lost {a : A} {o : Nat} : Resumed model counted node (.gathering a o) (node, .erasing a)
  | allowed {a : A} {b : B} {rs : R} :
      Resumed model counted node (.allowing a b rs) (node, .erasing a)
  | erased {a : A} (hs : node.peer.storage a ≠ none) :
      Resumed model counted node (.erasing a)
        ({ node with peer := LocalPeer.erase a node.peer }, .done)
  | nothing {b : B} {mode : StoreMode} :
      Resumed model counted node (.reading b mode) (node, .writing b mode none)
  | previous {b : B} {mode : StoreMode} (c : B) :
      Resumed model counted node (.reading b mode) (node, .replacing b mode c)
  | replaced {b : B} {mode : StoreMode} {c : B} (hn : model.validate_next c b = .success) :
      Resumed model counted node (.replacing b mode c) (node, .writing b mode (some c))
  | written {b : B} {mode : StoreMode} {previous : Option B} :
      Resumed model counted node (.writing b mode previous) (node.set_block model b mode, .done)

theorem resume_cases {model : Model B A R} {counted : Nat → Bool} {node : Node B A}
    {task : Task B A R} {news : News A} {r : Node B A × Task B A R}
    (h : node.resume model counted task news = some r) : Resumed model counted node task r := by
  unfold resume at h
  split at h
  · -- the block of an `accept`
    cases h
    split_ifs with hv
    · exact .admitted hv
    · exact .ended _
  · -- the block of a `store`
    cases h
    split_ifs with hv
    · simp only [Bool.and_eq_true, decide_eq_true_eq] at hv
      exact .valid hv.1
    · exact .ended _
  · cases h
    exact .fetched
  · cases h
    exact .expanded _
  · -- the check by the block before
    cases h
    split_ifs with hn
    · split
      · rename_i hd
        exact .compared hn hd
      · exact .ended _
    · exact .ended _
  · cases h
    exact .saved
  · -- the end of `confirm`
    simp only at h
    split at h
    · cases h
      exact .saved
    · split at h
      · cases h
        exact .saved
      · split_ifs at h
        · cases h
          exact .stays _
        · cases h
          exact .leaves
  · cases h
    exact .elected
  · split_ifs at h
    split at h
    · cases h
      exact .ended _
    · cases h
      exact .again _
  · split_ifs at h
    cases h
    exact .again _
  · cases h
    exact .elected
  · cases h
    exact .ended _
  · cases h
    exact .lost
  · cases h
    exact .ended _
  · -- the check of a removal
    cases h
    split_ifs
    · exact .allowed
    · exact .ended _
  · cases h
    split
    · exact .ended _
    · rename_i hs
      exact .erased (by simp [hs])
  · -- what a `store` finds
    cases h
    split
    · exact .nothing
    · exact .ended _
    · exact .previous _
  · cases h
    split_ifs with hn
    · exact .replaced hn
    · exact .ended _
  · cases h
    exact .written
  · cases h

end Node

/-! ## The calls together -/

/-- The node and the calls in progress. A call keeps its number. -/
structure Peer (B A R : Type) where
  node : Node B A
  tasks : List (Task B A R)

inductive Action (B A R : Type) where
  | call (c : Call B A R)
  | resume (t : Nat) (news : News A)

namespace Peer

/-- The acceptors that a call has a counted reference to. -/
def counted (s : Peer B A R) (o : Nat) : Bool :=
  s.tasks.any fun task => task.uses.any fun u => u.2.1 = o && u.2.2

/-- The blocks of an eviction are those that the index has for the node that is lost. -/
def called (s : Peer B A R) : Call B A R → Bool
  | .evict lost_id blocks =>
    blocks.Nodup ∧ blocks.toFinset = (s.node.peer.node_blocks.filter (·.1 = lost_id)).image (·.2)
  | _ => true

def step (model : Model B A R) (s : Peer B A R) : Action B A R → Option (Peer B A R)
  | .call c =>
    if s.called c then
      let (node, task) := s.node.start model c
      some ⟨node, s.tasks ++ [task]⟩
    else none
  | .resume t news =>
    match s.tasks[t]? with
    | none => none
    | some task =>
      (s.node.resume model s.counted task news).map fun (node, task) =>
        ⟨node, s.tasks.set t task⟩

end Peer

end memo
