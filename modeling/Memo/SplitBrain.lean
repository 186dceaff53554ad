-- When the calls in progress on one block share its acceptor. The cache must
-- not drop an acceptor that a call refers to. A counted reference protects it
-- from the arrival of another one, a plain reference does not, and neither
-- protects it from a removal or from the inspector.
import Memo.MultiIndex
import Memo.PeerTasks
import Memo.Reconcile

open athena.paxos runs

namespace memo

variable {B A R : Type} [LinearOrder A]

/-! ## What the calls share -/

/-- A call in progress uses the acceptor. -/
def Used (s : Peer B A R) (a : A) (o : Nat) : Prop :=
  ∃ task ∈ s.tasks, ∃ c, task.uses = some (a, o, c)

/-- The acceptor that a load brings into the cache, from the storage or a new one. -/
def Node.brings (node : Node B A) (a : A) (c : Call B A R) : Option (Server B A) :=
  match node.peer.storage a, c with
  | some (.paxos d), _ => some d
  | none, .propose peers _ _ true => some (Server.new node.peer.id peers none node.peer.version)
  | none, .propagate q b _ => some (Server.new node.peer.id q (some b) node.peer.version)
  | _, _ => none

/-- The acceptor that a step brings into the cache. -/
def brings (s : Peer B A R) : Action B A R → Option (A × Server B A)
  | .resume t .proceed =>
    match s.tasks[t]? with
    | some (.fetching a c) => (s.node.brings a c).map (a, ·)
    | _ => none
  | _ => none

/-- The block whose removal ends, or that the inspector meets when it is replicated enough. -/
def erases (s : Peer B A R) : Action B A R → Option A
  | .call (.inspect a) =>
    match s.node.peer.cached a, s.node.peer.quorums a with
    | some _, some r => if s.node.peer.factor ≤ r.quorum.card then some a else none
    | _, _ => none
  | .resume t .proceed =>
    match s.tasks[t]? with
    | some (.erasing a) => if (s.node.peer.storage a).isSome then some a else none
    | some (.fetching a (.inspect _)) =>
      match s.node.peer.storage a with
      | some (.paxos d) => if s.node.peer.factor ≤ d.current_quorum.card then some a else none
      | _ => none
    | _ => none
  | _ => none

/-- The entries of the cache that were not used for longer than this one. -/
def Peer.older (s : Peer B A R) (e : A × Nat) : List (A × Nat) :=
  s.node.peer.addresses.takeWhile (· ≠ e)

/-- The cache has room for the acceptor of `a` without this entry: it is full by less than twice
the older entries, or one that is not younger has a counted reference, as that of `a` has. -/
def Spares (s : Peer B A R) (a : A) (e : A × Nat) : Prop :=
  s.node.peer.addresses.length + (if (s.node.peer.cached a).isNone then 1 else 0) ≤
      s.node.peer.max_addresses_size + 2 * (s.older e).length ∨
    ∃ x ∈ s.older e ++ [e], s.node.peer.cached a = some x.2 ∨ s.counted x.2 = true

instance (s : Peer B A R) (a : A) (e : A × Nat) : Decidable (Spares s a e) :=
  inferInstanceAs (Decidable (_ ∨ ∃ x ∈ _, _))

/-- An acceptor enters the cache while there is room without those that calls have plain
references to. A removal ends, and the inspector meets a block that is replicated enough, while
no call refers to its acceptor. -/
structure Careful (s : Peer B A R) (act : Action B A R) : Prop where
  room : ∀ a d, brings s act = some (a, d) → ∀ task ∈ s.tasks, ∀ a' o,
    task.uses = some (a', o, false) → Spares s a (a', o)
  alone : ∀ a, erases s act = some a → ∀ task ∈ s.tasks, ∀ o c, task.uses ≠ some (a, o, c)

instance (s : Peer B A R) (act : Action B A R) : Decidable (Careful s act) :=
  decidable_of_iff
    ((∀ e ∈ brings s act, ∀ task ∈ s.tasks, ∀ u ∈ task.uses, u.2.2 = false →
        Spares s e.1 (u.1, u.2.1)) ∧
      ∀ a ∈ erases s act, ∀ task ∈ s.tasks, ∀ u ∈ task.uses, u.1 ≠ a)
    (by
      constructor
      · rintro ⟨hroom, halone⟩
        refine ⟨?_, ?_⟩
        · exact fun a d hb task ht a' o hu => hroom (a, d) hb task ht (a', o, false) hu rfl
        · exact fun a he task ht o c hu => halone a he task ht (a, o, c) hu rfl
      · rintro ⟨hroom, halone⟩
        refine ⟨?_, ?_⟩
        · rintro ⟨a, d⟩ hb task ht ⟨a', o, c⟩ hu hc
          cases hc
          exact hroom a d hb task ht a' o hu
        · rintro a he task ht ⟨a', o, c⟩ hu rfl
          exact halone _ he task ht o c hu)

/-! ## The cache from one wait to the next -/

/-- The cache has one acceptor for an address, and all of those that are to stay. -/
structure Cached (safe : A → Nat → Prop) (node : Node B A) : Prop where
  nodup : (node.peer.addresses.map (·.1)).Nodup
  valid : ∀ e ∈ node.peer.addresses, e.2 < node.heap.length
  kept : ∀ a o, safe a o → (a, o) ∈ node.peer.addresses

/-- After a part of a call its own acceptor is in the cache as well. -/
structure Leaves (safe : A → Nat → Prop) (r : Node B A × Task B A R) : Prop where
  cached : Cached safe r.1
  uses : ∀ a o c, r.2.uses = some (a, o, c) → (a, o) ∈ r.1.peer.addresses

variable {safe : A → Nat → Prop} {node node' : Node B A} {a : A} {o : Nat}

theorem cached_iff_mem (hn : (node.peer.addresses.map (·.1)).Nodup) :
    node.peer.cached a = some o ↔ (a, o) ∈ node.peer.addresses := by
  constructor
  · exact LocalPeer.mem_of_cached
  · intro hm
    unfold LocalPeer.cached
    rw [(multi_index.find_iff hn).mpr ⟨hm, rfl⟩]
    rfl

omit [LinearOrder A] in
theorem Cached.of_peer (h : Cached safe node)
    (hp : node'.peer.addresses = node.peer.addresses)
    (hl : node'.heap.length = node.heap.length) : Cached safe node' := by
  refine ⟨?_, ?_, ?_⟩
  · rw [hp]
    exact h.nodup
  · rw [hp, hl]
    exact h.valid
  · rw [hp]
    exact h.kept

variable {counted : Nat → Bool} {d : Server B A} {c : Call B A R} {r : Node B A × Task B A R}
  {task : Task B A R} {peers : Finset A} {p : Proposal A} {news : News A}

omit [LinearOrder A] in
theorem Cached.write {a' : A} (h : Cached safe node) :
    Cached safe (node.write a' o d) :=
  h.of_peer rfl (List.length_set ..)

omit [LinearOrder A] in
theorem Cached.put {b : B} {replaced : Option B} (h : Cached safe node) :
    Cached safe (node.put a b replaced) :=
  h.of_peer rfl rfl

theorem Cached.index {immutable : Bool} {quorum : Finset A} (h : Cached safe node) :
    Cached safe (node.index a immutable quorum) :=
  h.of_peer rfl rfl

theorem Cached.set_acceptor {data : Server B A} (h : Cached safe node) :
    Cached safe (node.set_acceptor a data) :=
  h.of_peer rfl rfl

theorem Cached.set_block [Inhabited A] {model : Model B A R} {b : B} {mode : StoreMode}
    (h : Cached safe node) :
    Cached safe (node.set_block model b mode) := by
  unfold Node.set_block
  simp only
  split
  · exact h.of_peer rfl rfl
  · exact h.of_peer rfl rfl
  · exact h

omit [LinearOrder A] in
theorem Cached.leaves (h : Cached safe node) (hu : task.uses = none) :
    Leaves safe (node, task) :=
  ⟨h, fun a o c hu' => by simp [hu] at hu'⟩

omit [LinearOrder A] in
theorem Cached.leaves_using {c : Bool} (h : Cached safe node) (hm : (a, o) ∈ node.peer.addresses)
    (hu : task.uses = some (a, o, c)) :
    Leaves safe (node, task) := by
  refine ⟨h, fun a' o' c' hu' => ?_⟩
  simp only [hu, Option.some.injEq, Prod.mk.injEq] at hu'
  obtain ⟨rfl, rfl, -⟩ := hu'
  exact hm

theorem Cached.use (h : Cached safe node) (hm : (a, o) ∈ node.peer.addresses) :
    Cached safe { node with peer := node.peer.use a o } ∧
      (a, o) ∈ (node.peer.use a o).addresses := by
  have hmem : ∀ e, e ∈ (node.peer.use a o).addresses ↔ e ∈ node.peer.addresses := by
    intro e
    simp only [LocalPeer.use, List.mem_append, List.mem_filter, List.mem_singleton,
      decide_eq_true_eq]
    constructor
    · rintro (⟨he, -⟩ | rfl)
      · exact he
      · exact hm
    · intro he
      by_cases ha : e.1 = a
      · exact Or.inr (List.inj_on_of_nodup_map h.nodup he hm ha)
      · exact Or.inl ⟨he, ha⟩
  refine ⟨⟨?_, ?_, ?_⟩, (hmem _).mpr hm⟩
  · simp only [LocalPeer.use, List.map_append, List.map_cons, List.map_nil]
    refine List.Nodup.append (h.nodup.sublist (List.filter_sublist.map _))
      (List.nodup_singleton a) ?_
    rw [List.disjoint_singleton]
    intro hmap
    obtain ⟨e, he, hea⟩ := List.mem_map.mp hmap
    simp [hea] at he
  · intro e he
    exact h.valid e ((hmem e).mp he)
  · intro a' o' hs
    exact (hmem _).mpr (h.kept a' o' hs)

theorem Cached.drop (h : Cached safe node) (hs : ∀ o, ¬ safe a o) : Cached safe (node.drop a) := by
  refine ⟨h.nodup.sublist (List.filter_sublist.map _), ?_, ?_⟩
  · intro e he
    exact h.valid e (List.mem_filter.mp he).1
  · intro a' o' hsafe
    refine List.mem_filter.mpr ⟨h.kept a' o' hsafe, ?_⟩
    rw [decide_eq_true_eq]
    rintro rfl
    exact hs o' hsafe

theorem Cached.erase (h : Cached safe node) (hs : ∀ o, ¬ safe a o) :
    Cached safe { node with peer := LocalPeer.erase a node.peer } :=
  (h.drop hs).of_peer rfl rfl

theorem Cached.load_decision (h : Cached safe node)
    (hroom : ∀ a' o, safe a' o → (a', o) ∈ (node._load_decision counted a d).1.peer.addresses) :
    Cached safe (node._load_decision counted a d).1 ∧
      (a, (node._load_decision counted a d).2) ∈
        (node._load_decision counted a d).1.peer.addresses := by
  have hcached : (LocalPeer._cache a false d.current_quorum node.peer).cached a =
      node.peer.cached a := rfl
  unfold Node._load_decision at hroom ⊢
  simp only [hcached] at hroom ⊢
  cases hc : node.peer.cached a with
  | some o =>
    simp only [hc] at hroom
    refine ⟨⟨h.nodup.sublist ((LocalPeer.unload_suffix _).sublist.map _), ?_, hroom⟩, ?_⟩
    · exact fun e he => h.valid e ((LocalPeer.unload_suffix _).subset he)
    · exact LocalPeer.mem_unload_of_used (LocalPeer.mem_of_cached hc) (by simp)
  | none =>
    simp only [hc] at hroom
    have hnodup : ((node.peer.addresses ++ [(a, node.heap.length)]).map (·.1)).Nodup := by
      rw [List.map_append, List.map_singleton]
      apply List.Nodup.append h.nodup (List.nodup_singleton a)
      rw [List.disjoint_singleton]
      intro hmap
      obtain ⟨⟨a', o⟩, he, rfl⟩ := List.mem_map.mp hmap
      rw [(cached_iff_mem h.nodup).mpr he] at hc
      cases hc
    refine ⟨⟨hnodup.sublist ((LocalPeer.unload_suffix _).sublist.map _), ?_, hroom⟩, ?_⟩
    · intro e he
      rw [List.length_append, List.length_singleton]
      rcases List.mem_append.mp ((LocalPeer.unload_suffix _).subset he) with he | he
      · exact Nat.lt_succ_of_lt (h.valid e he)
      · rw [List.mem_singleton.mp he]
        exact Nat.lt_succ_self _
    · exact LocalPeer.mem_unload_of_used (by simp) (by simp)

omit [LinearOrder A] in
theorem Cached.save {α : Type} {confirm : Option Bool}
    {result : Except (Error A) α × Server B A} (h : Cached safe node)
    (hm : (a, o) ∈ node.peer.addresses) :
    Leaves safe (node.save a o confirm result : Node B A × Task B A R) := by
  unfold Node.save
  split
  · cases confirm with
    | none => exact h.write.leaves_using hm rfl
    | some had_value => exact h.write.leaves_using hm rfl
  · exact h.write.leaves rfl

variable [Inhabited A]

theorem Cached.accept {value : Value B A} (h : Cached safe node)
    (hm : (a, o) ∈ node.peer.addresses) :
    Leaves safe (node.accept peers a p value o d : Node B A × Task B A R) := by
  unfold Node.accept
  cases value with
  | quorum q => exact h.save hm
  | value b =>
    simp only
    split_ifs
    · exact h.put.save hm
    · exact h.save hm

theorem Cached.confirm (h : Cached safe node) (hm : (a, o) ∈ node.peer.addresses) :
    Leaves safe (node.confirm peers a p o d : Node B A × Task B A R) := by
  unfold Node.confirm
  simp only
  split
  · exact h.put.save hm
  · exact h.save hm

theorem Cached.loaded (h : Cached safe node) (hm : (a, o) ∈ node.peer.addresses)
    (hins : ∀ a' r, c = .inspect a' → node.peer.quorums a = some r →
      node.peer.factor ≤ r.quorum.card → ∀ o, ¬ safe a o) :
    Leaves safe (node.loaded a o c) := by
  unfold Node.loaded
  cases hd : node.heap[o]? with
  | none => exact h.leaves rfl
  | some e =>
    obtain ⟨_, d⟩ := e
    cases c with
    | propose peers a' p insert => exact h.save hm
    | accept peers a' p value =>
      simp only
      split
      · exact h.leaves_using hm rfl
      · exact h.accept hm
    | confirm peers a' p => exact h.confirm hm
    | propagate q b p => exact h.save hm
    | evict lost_id blocks => exact h.leaves_using hm rfl
    | reconcile a' => exact h.leaves_using hm rfl
    | remove a' rs =>
      simp only
      split
      · exact h.leaves rfl
      · exact h.leaves rfl
    | inspect a' =>
      simp only
      split
      · exact h.leaves rfl
      · rename_i r hr
        split_ifs with hf
        · exact (h.drop (hins a' r rfl hr hf)).leaves rfl
        · exact h.leaves rfl
    | _ => exact h.leaves rfl

theorem Cached.load (h : Cached safe node)
    (hins : ∀ a' r, c = .inspect a' → (node.peer.cached a).isSome → node.peer.quorums a = some r →
      node.peer.factor ≤ r.quorum.card → ∀ o, ¬ safe a o) :
    Leaves safe (node.load a c) := by
  unfold Node.load
  split
  · rename_i o hc
    have hu := h.use (LocalPeer.mem_of_cached hc)
    exact hu.1.loaded hu.2 fun a' r hi => hins a' r hi (by simp [hc])
  · exact h.leaves rfl

theorem Cached.evict_next {lost_id : A} {blocks : List A} (h : Cached safe node) :
    Leaves safe (node.evict_next lost_id blocks : Node B A × Task B A R) := by
  cases blocks with
  | nil => exact h.leaves rfl
  | cons a blocks => exact h.load fun a' r hi => by cases hi

theorem Cached.loaded_block {model : Model B A R} {b : B} (h : Cached safe node) :
    Leaves safe (node.loaded_block model a b c) := by
  cases c with
  | confirm peers a' p => exact h.index.leaves rfl
  | evict lost_id blocks =>
    simp only [Node.loaded_block]
    split
    · exact h.leaves rfl
    · split_ifs
      · exact h.index.evict_next
      · exact h.evict_next
  | remove a' rs => exact h.leaves rfl
  | _ => exact h.leaves rfl

omit [Inhabited A] in
theorem load_decision_quorums (node : Node B A) (a : A) (counted : Nat → Bool) (d : Server B A) :
    (node._load_decision counted a d).1.peer.quorums a = some ⟨false, d.current_quorum⟩ ∧
      (node._load_decision counted a d).1.peer.factor = node.peer.factor := by
  unfold Node._load_decision
  simp only
  split
  · exact ⟨Function.update_self .., rfl⟩
  · exact ⟨Function.update_self .., rfl⟩

theorem Cached.missing (h : Cached safe node) (hs : node.peer.storage a = none)
    (hroom : ∀ d, node.brings a c = some d →
      ∀ a' o, safe a' o → (a', o) ∈ (node._load_decision counted a d).1.peer.addresses) :
    Leaves safe (node.missing counted a c) := by
  cases c with
  | propose peers a' p insert =>
    cases insert with
    | false => exact h.leaves rfl
    | true =>
      have hl := h.load_decision (hroom _ (by simp only [Node.brings, hs]; rfl))
      exact hl.1.loaded (c := .propose peers a' p true) hl.2 fun _ _ hi => by cases hi
  | propagate q b p =>
    have hl := h.load_decision (hroom _ (by simp only [Node.brings, hs]; rfl))
    simp only [Node.missing]
    split_ifs
    · exact hl.1.put.loaded hl.2 fun _ _ hi => by cases hi
    · exact hl.1.loaded hl.2 fun _ _ hi => by cases hi
  | _ => exact h.leaves rfl

theorem Cached.fetched {model : Model B A R} (h : Cached safe node)
    (hroom : ∀ d, node.brings a c = some d →
      ∀ a' o, safe a' o → (a', o) ∈ (node._load_decision counted a d).1.peer.addresses)
    (hins : ∀ a' d, c = .inspect a' → node.peer.storage a = some (.paxos d) →
      node.peer.factor ≤ d.current_quorum.card → ∀ o, ¬ safe a o) :
    Leaves safe (node.fetched model counted a c) := by
  unfold Node.fetched
  cases hs : node.peer.storage a with
  | none => exact h.missing hs hroom
  | some x =>
    cases x with
    | block b =>
      simp only
      split_ifs
      · exact h.leaves rfl
      · exact h.loaded_block
    | paxos d =>
      have hl := h.load_decision (hroom d (by simp only [Node.brings, hs]))
      refine hl.1.loaded hl.2 fun a' r hi hr hf => hins a' d hi hs ?_
      obtain ⟨hq, hfactor⟩ := load_decision_quorums node a counted d
      rw [hq, Option.some.injEq] at hr
      rw [hfactor, ← hr] at hf
      exact hf

theorem Cached.start {model : Model B A R} (h : Cached safe node)
    (hins : ∀ a r, c = .inspect a → (node.peer.cached a).isSome → node.peer.quorums a = some r →
      node.peer.factor ≤ r.quorum.card → ∀ o, ¬ safe a o) :
    Leaves safe (node.start model c) := by
  cases c with
  | load a => exact h.load fun _ _ hi => by cases hi
  | propose peers a p insert => exact h.load fun _ _ hi => by cases hi
  | accept peers a p value =>
    cases value with
    | value b => exact h.leaves rfl
    | quorum q => exact h.load fun _ _ hi => by cases hi
  | confirm peers a p => exact h.load fun _ _ hi => by cases hi
  | get peers a => exact h.load fun _ _ hi => by cases hi
  | propagate q b p =>
    simp only [Node.start]
    split_ifs
    · exact h.leaves rfl
    · exact h.load fun _ _ hi => by cases hi
  | evict lost_id blocks => exact h.evict_next
  | store b mode => exact h.leaves rfl
  | remove a rs => exact h.load fun _ _ hi => by cases hi
  | reconcile a =>
    simp only [Node.start]
    split_ifs
    · exact h.load fun _ _ hi => by cases hi
    · exact h.leaves rfl
  | inspect a =>
    refine h.load fun a' r hi => hins a r ?_
    rfl

/-- What a wait needs to leave the acceptors in use in the cache. -/
structure Guarded (safe : A → Nat → Prop) (counted : Nat → Bool) (node : Node B A)
    (task : Task B A R) : Prop where
  uses : ∀ a o c, task.uses = some (a, o, c) → (a, o) ∈ node.peer.addresses
  room : ∀ a c, task = .fetching a c → ∀ d, node.brings a c = some d →
    ∀ a' o, safe a' o → (a', o) ∈ (node._load_decision counted a d).1.peer.addresses
  inspected : ∀ a a' d, task = .fetching a (.inspect a') → node.peer.storage a = some (.paxos d) →
    node.peer.factor ≤ d.current_quorum.card → ∀ o, ¬ safe a o
  erased : ∀ a, task = .erasing a → node.peer.storage a ≠ none → ∀ o, ¬ safe a o

theorem Cached.resume {model : Model B A R} (h : Cached safe node)
    (hg : Guarded safe counted node task) (hr : node.resume model counted task news = some r) :
    Leaves safe r := by
  cases Node.resume_cases hr with
  | admitted hv => exact h.load fun _ _ hi => by cases hi
  | fetched =>
    rename_i a c
    apply h.fetched (hg.room a c rfl)
    rintro a' d rfl
    exact hg.inspected a a' d rfl
  | expanded q => exact h.index.loaded_block
  | compared hn hd => exact h.accept (hg.uses _ _ true rfl)
  | saved => exact h.set_acceptor.leaves rfl
  | stays q => exact h.set_acceptor.index.leaves rfl
  | leaves => exact h.set_acceptor.leaves rfl
  | elected => exact h.evict_next
  | again q' => exact h.leaves_using (hg.uses _ _ false rfl) rfl
  | erased hs => exact (h.erase (hg.erased _ rfl hs)).leaves rfl
  | written => exact h.set_block.leaves rfl
  | _ => exact h.leaves rfl

/-! ## One step -/

variable {model : Model B A R} {s s' : Peer B A R} {act : Action B A R}

/-- The cache has one acceptor for an address, and all of those in use. -/
def Shared (s : Peer B A R) : Prop := Cached (Used s) s.node

omit [Inhabited A] in
theorem Careful.unused (hc : Careful s act) (he : erases s act = some a) (o : Nat) :
    ¬ Used s a o := by
  rintro ⟨task, ht, c, hu⟩
  exact hc.alone a he task ht o c hu

/-- A node that starts: nothing is cached and no call is in progress, whatever is stored. -/
structure Idle (s : Peer B A R) : Prop where
  tasks : s.tasks = []
  addresses : s.node.peer.addresses = []

omit [LinearOrder A] [Inhabited A] in
theorem Idle.shared (h : Idle s) : Shared s := by
  refine ⟨?_, ?_, ?_⟩
  · simp [h.addresses]
  · simp [h.addresses]
  · rintro a o ⟨task, ht, -⟩
    simp [h.tasks] at ht

end memo
