-- The node of memo that keeps blocks and acceptors, as `Paxos.cc` computes it:
-- its storage, its cache of acceptors, its index of quorums, and the calls on
-- it, one after the other. The checks of the blocks themselves are those of
-- the model and are taken as given.
import Memo.Ops
import Memo.PaxosClient

open ops athena.paxos

namespace memo

/-! ## The data of a node -/

/-- The result of a check of a block. -/
inductive ValidationResult where
  | success
  | conflict (reason : String)
  | failure (reason : String)
deriving DecidableEq

/-- What the node asks of the blocks: `validate(model, writing)`, `validate(model, new_block)`
of the block that is replaced, `validate_remove`, and the version of a mutable block. -/
structure Model (B A R : Type) where
  address : B → A
  immutable : B → Bool
  mutable_block : A → Bool
  validate : B → ValidationResult
  validate_next : B → B → ValidationResult
  validate_remove : B → R → ValidationResult
  version : B → Option Int := fun _ => none

/-- `BlockOrPaxos`: an immutable block, or the acceptor of a mutable one. -/
inductive BlockOrPaxos (B A : Type) where
  | block (b : B)
  | paxos (d : Server B A)

/-- `BlockRepartition`. -/
structure BlockRepartition (A : Type) where
  immutable : Bool
  quorum : Finset A
deriving DecidableEq

/-- The exceptions of the node. -/
inductive Fault (B A : Type) where
  | missing_key (a : A)
  | collision (a : A)
  | missing_block (a : A)
  | validation_failed (reason : String)
  | conflict (reason : String) (current : B)
  | paxos (e : Error A)
  | error (what : String)

/-- The node. `addresses` is the cache of acceptors, the least recently used first, and `D` is
what it keeps of each: the acceptor itself, or where to find it. -/
structure LocalPeer (B A : Type) (D : Type := Server B A) where
  id : A
  version : elle.Version
  factor : Nat
  rebalance_auto_expand : Bool
  max_addresses_size : Nat
  storage : A → Option (BlockOrPaxos B A)
  addresses : List (A × D)
  quorums : A → Option (BlockRepartition A)
  node_blocks : Finset (A × A)

inductive StoreMode where
  | insert
  | update
deriving DecidableEq

namespace LocalPeer

variable {B A D R : Type}

/-! ## The cache of acceptors -/

def cached [LinearOrder A] (self : LocalPeer B A D) (a : A) : Option D :=
  (self.addresses.find? (·.1 = a)).map (·.2)

/-- The acceptor in the cache is used, or changes. -/
def use [LinearOrder A] (self : LocalPeer B A D) (a : A) (d : D) : LocalPeer B A D :=
  { self with addresses := self.addresses.filter (·.1 ≠ a) ++ [(a, d)] }

/-- Drops the acceptors that were not used for the longest time, but for those whose use count
shows another user. The number of entries is read again after each one, and an entry that is in
use stops the loop: it goes on to the end without a step forward. -/
def unload (max : Nat) (used : A × D → Bool) (i : Nat) : List (A × D) → List (A × D)
  | [] => []
  | e :: l =>
    if i < (l.length + 1) - max then
      if used e then e :: l else unload max used (i + 1) l
    else e :: l

theorem mem_of_cached [LinearOrder A] {self : LocalPeer B A D} {a : A} {d : D}
    (h : self.cached a = some d) : (a, d) ∈ self.addresses := by
  unfold cached at h
  obtain ⟨e, he, hd⟩ := Option.map_eq_some_iff.mp h
  have ha : e.1 = a := by simpa using List.find?_some he
  rw [← ha, ← hd]
  exact List.mem_of_find?_eq_some he

theorem unload_suffix {max : Nat} {used : A × D → Bool} {i : Nat} (l : List (A × D)) :
    unload max used i l <:+ l := by
  induction l generalizing i with
  | nil => exact List.suffix_refl _
  | cons e l ih =>
    unfold unload
    split_ifs
    · exact List.suffix_refl _
    · exact ih.trans (List.suffix_cons e l)
    · exact List.suffix_refl _

theorem mem_unload_of_used {max : Nat} {used : A × D → Bool} {i : Nat} {e : A × D}
    {l : List (A × D)} (he : e ∈ l) (hu : used e = true) : e ∈ unload max used i l := by
  induction l generalizing i with
  | nil => exact he
  | cons x l ih =>
    unfold unload
    split_ifs with _ hx
    · exact he
    · rcases List.mem_cons.mp he with rfl | he
      · exact absurd hu hx
      · exact ih he
    · exact he

theorem unload_of_room {max : Nat} {used : A × D → Bool} {l : List (A × D)}
    (h : l.length ≤ max) : unload max used 0 l = l := by
  cases l with
  | nil => rfl
  | cons e l =>
    unfold unload
    rw [if_neg]
    simp only [List.length_cons] at h
    omega

/-! ## The index of quorums -/

variable [LinearOrder A] [Inhabited A]

/-- `_cache`: the quorum of a block, in both indices. -/
def _cache (a : A) (immutable : Bool) (quorum : Finset A) (self : LocalPeer B A D) :
    LocalPeer B A D :=
  let kept := match self.quorums a with
    | some r => self.node_blocks \ r.quorum.image (·, a)
    | none => self.node_blocks
  { self with
    quorums := Function.update self.quorums a (some ⟨immutable, quorum⟩)
    node_blocks := kept ∪ quorum.image (·, a) }

/-! ## Loading -/

/-- The other `_load_paxos`: an acceptor enters the cache. Between the calls no other one is in
use. -/
def _load_decision (a : A) (d : Server B A) (self : LocalPeer B A) : LocalPeer B A :=
  let self := _cache a false d.current_quorum self
  { self with addresses := unload self.max_addresses_size (·.1 = a) 0 (self.addresses ++ [(a, d)]) }

omit [Inhabited A] in
theorem load_decision_of_room {self : LocalPeer B A} {a : A} {d : Server B A}
    (h : self.addresses.length < self.max_addresses_size) :
    (_load_decision a d self).addresses = self.addresses ++ [(a, d)] := by
  apply unload_of_room
  rw [List.length_append]
  exact h

/-- `_load`. `owners` are the nodes that the overlay finds for the block. -/
def _load (a : A) (owners : Finset A) :
    Op (LocalPeer B A) (Fault B A) (BlockOrPaxos B A) := do
  let self ← Op.get
  match self.cached a with
  | some d =>
    Op.modify fun self => self.use a d
    return .paxos d
  | none =>
    match self.storage a with
    | none => Op.throw (.missing_key a)
    | some (.block b) =>
      if self.rebalance_auto_expand && (self.quorums a).isNone then
        Op.modify (_cache a true owners)
      return .block b
    | some (.paxos d) =>
      Op.modify (_load_decision a d)
      return .paxos d

/-- `_load_paxos`: the acceptor of a block, a new one when there is none and a quorum is given. -/
def _load_paxos (a : A) (peers : Option (Finset A)) (value : Option B) (owners : Finset A) :
    Op (LocalPeer B A) (Fault B A) (Server B A) :=
  Op.tryCatch
    (do
      match ← _load a owners with
      | .block _ => Op.throw (.error "immutable block found when paxos was expected")
      | .paxos d => return d)
    fun e =>
      match e, peers with
      | .missing_key _, some quorum => do
        let self ← Op.get
        let d := Server.new self.id quorum value self.version
        Op.modify (_load_decision a d)
        return d
      | .missing_key a, none => Op.throw (.missing_block a)
      | e, _ => Op.throw e

/-- `storage()->set`. -/
def set_storage (a : A) (data : BlockOrPaxos B A) (insert update : Bool) :
    Op (LocalPeer B A) (Fault B A) Unit := do
  let self ← Op.get
  match self.storage a with
  | some _ => if !update then Op.throw (.collision a)
  | none => if !insert then Op.throw (.missing_key a)
  Op.modify fun self => { self with storage := Function.update self.storage a (some data) }

/-- The result of a call on the acceptor, which changed, and its storage when the call did not
fail. The storage has the acceptor as it will be read back. -/
def save {α : Type} (a : A) (result : Except (Error A) α × Server B A) :
    Op (LocalPeer B A) (Fault B A) α := do
  Op.modify fun self => self.use a result.2
  let res ← Op.ofExcept (result.1.mapError .paxos)
  let self ← Op.get
  set_storage a (.paxos (result.2.stored self.version)) true true
  return res

/-- The node without the block. The index by address keeps its quorum. -/
def erase (a : A) (self : LocalPeer B A D) : LocalPeer B A D :=
  { self with
    storage := Function.update self.storage a none
    node_blocks := self.node_blocks.filter (·.2 ≠ a)
    addresses := self.addresses.filter (·.1 ≠ a) }

/-- `_remove`. -/
def _remove (a : A) : Op (LocalPeer B A) (Fault B A) Unit := do
  let self ← Op.get
  match self.storage a with
  | none => Op.throw (.missing_block a)
  | some _ => Op.modify (erase a)

/-! ## The calls of the consensus -/

def propose (peers : Finset A) (a : A) (p : Proposal A) (insert : Bool) (owners : Finset A) :
    Op (LocalPeer B A) (Fault B A) (Response B A) := do
  let d ← _load_paxos a (if insert then some peers else none) none owners
  save a (d.propose peers p)

/-- The check of a block before it is written. -/
def validate (model : Model B A R) (b : B) : Op (LocalPeer B A) (Fault B A) Unit :=
  match model.validate b with
  | .success => pure ()
  | .conflict reason => Op.throw (.validation_failed reason)
  | .failure reason => Op.throw (.validation_failed reason)

def accept (model : Model B A R) (peers : Finset A) (a : A) (p : Proposal A) (value : Value B A)
    (owners : Finset A) : Op (LocalPeer B A) (Fault B A) (Proposal A) := do
  match value with
  | .value b => validate model b
  | .quorum _ => pure ()
  let d ← _load_paxos a none none owners
  match value, d.current_value with
  | .value b, some ⟨_, .value previous, _⟩ =>
    if model.validate_next previous b ≠ .success then
      Op.throw (.conflict "peer validation failed" b)
  | _, _ => pure ()
  save a (d.accept peers p value)

/-- The quorum that the block comes to by a confirmation, if it may have changed. -/
def new_quorum (had_value : Bool) (d : Server B A) : Option (Finset A) :=
  if !had_value then some d.current_quorum
  else match d.state with
    | some ⟨_, some ⟨_, .quorum q, _⟩⟩ => some q
    | _ => none

/-- The new quorum enters the indices, or the node leaves the block. -/
def change_quorum (a : A) : Option (Finset A) → Op (LocalPeer B A) (Fault B A) Unit
  | none => pure ()
  | some quorum => do
    let self ← Op.get
    if self.id ∈ quorum then Op.modify (_cache a false quorum) else _remove a

def confirm (peers : Finset A) (a : A) (p : Proposal A) (owners : Finset A) :
    Op (LocalPeer B A) (Fault B A) Unit := do
  let loaded ← Op.tryCatch (_load a owners) fun e =>
    match e with
    | .missing_key a => Op.throw (.missing_block a)
    | e => Op.throw e
  match loaded with
  | .paxos d =>
    save a (d.confirm peers p)
    change_quorum a (new_quorum d.current_value.isSome (d.confirm peers p).2)
  | .block _ => Op.modify (_cache a true peers)

/-- `get`, without the omission of a block that the caller already has. -/
def get (peers : Finset A) (a : A) (owners : Finset A) :
    Op (LocalPeer B A) (Fault B A) (Option (Accepted B A)) := do
  let d ← _load_paxos a none none owners
  Op.ofExcept ((d.get peers).mapError .paxos)

/-- The end of `get`: a block of the version that the caller already has is left out. -/
def honor_local_version (model : Model B A R) (local_version : Option Int) :
    Option (Accepted B A) → Except (Fault B A) (Option (Accepted (Option B) A))
  | none => .ok none
  | some ⟨p, .quorum q, confirmed⟩ => .ok (some ⟨p, .quorum q, confirmed⟩)
  | some ⟨p, .value b, confirmed⟩ =>
    match local_version with
    | none => .ok (some ⟨p, .value (some b), confirmed⟩)
    | some v =>
      match model.version b with
      | none => .error (.error "mb")
      | some version =>
        .ok (some ⟨p, .value (if version = v then none else some b), confirmed⟩)

/-- A whole consensus on this node alone, on the quorum itself. -/
def elect (d : Server B A) (q : Finset A) (p : Proposal A) :
    Except (Error A) Unit × Server B A :=
  match d.propose q p with
  | (.error e, d) => (.error e, d)
  | (.ok _, d) =>
    match d.accept q p (.quorum q) with
    | (.error e, d) => (.error e, d)
    | (.ok _, d) => d.confirm q p

def propagate (model : Model B A R) (q : Finset A) (b : B) (p : Proposal A) (owners : Finset A) :
    Op (LocalPeer B A) (Fault B A) Unit := do
  let self ← Op.get
  if (self.cached (model.address b)).isSome then pure ()
  else do
    let d ← _load_paxos (model.address b) (some q) (some b) owners
    save (model.address b) (elect d q p)

/-! ## The other calls -/

/-- One block of `_disappeared_evict`. The election of a new quorum for a mutable block goes
through calls on all its nodes, this one among them. -/
def _disappeared_evict (model : Model B A R) (lost_id : A) (a : A) (owners : Finset A) :
    Op (LocalPeer B A) (Fault B A) Unit := do
  match ← _load a owners with
  | .paxos _ => pure ()
  | .block b =>
    let self ← Op.get
    match self.quorums (model.address b) with
    | none => Op.throw (.error "it != this->_quorums.end()")
    | some r =>
      if lost_id ∈ r.quorum then
        Op.modify (_cache (model.address b) true (r.quorum.erase lost_id))

def store (model : Model B A R) (b : B) (mode : StoreMode) :
    Op (LocalPeer B A) (Fault B A) Unit := do
  validate model b
  if !model.immutable b then
    Op.throw (.validation_failed "bypassing Paxos for a mutable block")
  let self ← Op.get
  match self.storage (model.address b) with
  | none => pure ()
  | some (.paxos _) => Op.throw (.validation_failed "storing immutable block on mutable block")
  | some (.block previous) =>
    match model.validate_next previous b with
    | .success => pure ()
    | .conflict reason => Op.throw (.conflict reason previous)
    | .failure reason => Op.throw (.validation_failed reason)
  set_storage (model.address b) (.block b) (mode == .insert) (mode == .update)

/-- The block that a removal is checked against. -/
def last_block : BlockOrPaxos B A → Option B
  | .block b => some b
  | .paxos d =>
    match d.current_value with
    | some ⟨_, .value b, _⟩ => some b
    | _ => none

/-- The check of a removal. There is nothing to check when no value was confirmed. -/
def validate_remove (model : Model B A R) (held : BlockOrPaxos B A) (rs : R) :
    Op (LocalPeer B A) (Fault B A) Unit :=
  match last_block held with
  | none => pure ()
  | some b =>
    match model.validate_remove b rs with
    | .success => pure ()
    | .conflict reason => Op.throw (.conflict reason b)
    | .failure reason => Op.throw (.validation_failed reason)

def remove (model : Model B A R) (a : A) (rs : R) (owners : Finset A) :
    Op (LocalPeer B A) (Fault B A) Unit := do
  let held ← Op.tryCatch (_load a owners) fun e =>
    match e with
    | .missing_key a => Op.throw (.missing_block a)
    | e => Op.throw e
  validate_remove model held rs
  _remove a

/-! ## Reconciliation -/

/-- What comes back from the `get` of a member, the local one or a remote one. -/
inductive Fetched (B A : Type) where
  | value (a : Option (Accepted B A))
  | missing
  | unreachable

/-- `translate_exceptions`, and what `state` does with each answer: a network error is an
`Unavailable`, and a missing block a `WeakError`. -/
def gather (a : A) (g : Gathered B A) (s : A) : Fetched B A → Except (Error A) (Gathered B A)
  | .value v => g.answered s (.ok v)
  | .missing => .ok (g.weakened (.missing_block a))
  | .unreachable => .ok g

/-- `client.state()` on the peers, in the order in which their answers come. -/
def client_state (a : A) (answer : A → Fetched B A) (peers : List A) :
    Except (Error A) (State B A) := do
  let g ← peers.foldlM (fun g s => gather a g s (answer s)) Gathered.empty
  g.finish peers.toFinset

/-- An exception of the client, in the node. The weak error is rethrown as it was. -/
def rethrow : Error A → Fault B A
  | .missing_block a => .missing_block a
  | e => .paxos e

/-- `reconcile`. The peers are those of the quorum of the acceptor. -/
def reconcile (model : Model B A R) (a : A) (answer : A → Fetched B A)
    (lookup_nodes : Finset A → List A) (owners : Finset A) :
    Op (LocalPeer B A) (Fault B A) Bool :=
  if model.mutable_block a then
    Op.tryCatch
      (do
        let d ← _load_paxos a none none owners
        let _ ← Op.ofExcept
          ((client_state a answer (lookup_nodes d.current_quorum)).mapError rethrow)
        return false)
      fun e =>
        match e with
        | .missing_block _ =>
          Op.tryCatch
            (do
              _remove a
              return true)
            fun e =>
              match e with
              | .missing_block _ => return true
              | e => Op.throw e
        | e => Op.throw e
  else return false

end LocalPeer

end memo
