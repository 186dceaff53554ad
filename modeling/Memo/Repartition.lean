-- The two indices of the quorums: which nodes keep a block, and which blocks a
-- node keeps. The removal of a block takes it out of the second one only, so
-- they agree as long as no block is removed whose quorum is known.
import Memo.Reconcile
import Memo.Runs

open ops athena.paxos runs

namespace memo.LocalPeer

variable {B A R : Type} [LinearOrder A]
variable {self : LocalPeer B A} {a : A}

/-! ## Sequences of calls -/

/-- A call on the node. `evict` is the part of an eviction that is about one block. -/
inductive Operation (B A R : Type) where
  | load (a : A) (owners : Finset A)
  | propose (peers : Finset A) (a : A) (p : Proposal A) (insert : Bool) (owners : Finset A)
  | accept (peers : Finset A) (a : A) (p : Proposal A) (value : Value B A) (owners : Finset A)
  | confirm (peers : Finset A) (a : A) (p : Proposal A) (owners : Finset A)
  | get (peers : Finset A) (a : A) (owners : Finset A)
  | propagate (q : Finset A) (b : B) (p : Proposal A) (owners : Finset A)
  | evict (lost_id a : A) (owners : Finset A)
  | store (b : B) (mode : StoreMode)
  | remove (a : A) (rs : R) (owners : Finset A)
  | reconcile (a : A) (answer : A → Fetched B A) (lookup_nodes : Finset A → List A)
      (owners : Finset A)

/-- The node after a call, whether it failed or not. -/
def perform [Inhabited A] (model : Model B A R) (self : LocalPeer B A) :
    Operation B A R → LocalPeer B A
  | .load a owners => (_load a owners self).2
  | .propose peers a p insert owners => (LocalPeer.propose peers a p insert owners self).2
  | .accept peers a p value owners => (LocalPeer.accept model peers a p value owners self).2
  | .confirm peers a p owners => (LocalPeer.confirm peers a p owners self).2
  | .get peers a owners => (LocalPeer.get peers a owners self).2
  | .propagate q b p owners => (LocalPeer.propagate model q b p owners self).2
  | .evict lost_id a owners => (_disappeared_evict model lost_id a owners self).2
  | .store b mode => (LocalPeer.store model b mode self).2
  | .remove a rs owners => (LocalPeer.remove model a rs owners self).2
  | .reconcile a answer lookup_nodes owners =>
    (LocalPeer.reconcile model a answer lookup_nodes owners self).2

def performs [Inhabited A] (model : Model B A R) (self : LocalPeer B A)
    (calls : List (Operation B A R)) :
    LocalPeer B A :=
  calls.foldl (perform model) self

/-! ## What the indices say -/

/-- The indices describe the same relation, and what is not stored appears in neither. -/
structure Indexed (node : LocalPeer B A) : Prop where
  same : ∀ n a, (n, a) ∈ node.node_blocks ↔ ∃ r, node.quorums a = some r ∧ n ∈ r.quorum
  absent : ∀ a, node.storage a = none →
    node.quorums a = none ∧ ∀ n, (n, a) ∉ node.node_blocks

/-- The indices between the calls: they agree, and they have the quorums of all the acceptors of
the cache and of no block that is not stored. -/
structure Kept (node : LocalPeer B A) : Prop where
  same : ∀ n a, (n, a) ∈ node.node_blocks ↔ ∃ r, node.quorums a = some r ∧ n ∈ r.quorum
  tracked : ∀ e ∈ node.addresses, node.quorums e.1 ≠ none
  stored : ∀ a, node.quorums a ≠ none → node.storage a ≠ none

/-- The indices while the block `a` may not be stored yet. -/
structure Loading (a : A) (node : LocalPeer B A) : Prop where
  same : ∀ n a, (n, a) ∈ node.node_blocks ↔ ∃ r, node.quorums a = some r ∧ n ∈ r.quorum
  tracked : ∀ e ∈ node.addresses, node.quorums e.1 ≠ none
  stored : ∀ a', a' ≠ a → node.quorums a' ≠ none → node.storage a' ≠ none

omit [LinearOrder A] in
theorem Kept.loading (h : Kept self) : Loading a self :=
  ⟨h.same, h.tracked, fun a' _ => h.stored a'⟩

theorem Loading.kept (h : Loading a self) (hs : self.storage a ≠ none) : Kept self := by
  refine ⟨h.same, h.tracked, fun a' hq => ?_⟩
  by_cases ha : a' = a
  · rw [ha]
    exact hs
  · exact h.stored a' ha hq

omit [LinearOrder A] in
theorem Kept.indexed (h : Kept self) : Indexed self := by
  refine ⟨h.same, fun a hs => ?_⟩
  have hq : self.quorums a = none := by
    by_contra hne
    exact h.stored a hne hs
  refine ⟨hq, fun n hn => ?_⟩
  obtain ⟨r, hr, -⟩ := (h.same n a).mp hn
  rw [hq] at hr
  cases hr

/-! ## The steps of the calls -/

variable {x : BlockOrPaxos B A} {model : Model B A R} {d : Server B A} {α : Type}

theorem Loading.use (h : Loading a self) (hq : self.quorums a ≠ none) :
    Loading a (self.use a d) := by
  refine ⟨h.same, ?_, h.stored⟩
  intro e he
  simp only [LocalPeer.use, List.mem_append, List.mem_filter, List.mem_singleton] at he
  rcases he with he | he
  · exact h.tracked e he.1
  · rw [he]
    exact hq

theorem mem_cache_node_blocks {immutable : Bool} {quorum : Finset A}
    (h : ∀ n a, (n, a) ∈ self.node_blocks ↔ ∃ r, self.quorums a = some r ∧ n ∈ r.quorum)
    (n a' : A) :
    (n, a') ∈ (_cache a immutable quorum self).node_blocks ↔
      if a' = a then n ∈ quorum else (n, a') ∈ self.node_blocks := by
  unfold _cache
  by_cases ha : a' = a
  · subst ha
    cases hq : self.quorums a' with
    | none =>
      have hn : (n, a') ∉ self.node_blocks := by
        rw [h, hq]
        simp
      simp [hn]
    | some r =>
      have hn : (n, a') ∈ self.node_blocks ↔ n ∈ r.quorum := by
        rw [h, hq]
        simp
      simp [hn]
  · have hn : ∀ q : Finset A, (n, a') ∉ q.image (·, a) := by
      intro q hmem
      obtain ⟨x, -, hx⟩ := Finset.mem_image.mp hmem
      exact ha (Prod.mk.inj hx).2.symm
    cases hq : self.quorums a with
    | none => simp only [Finset.mem_union, hn, or_false, ha, if_false]
    | some r => simp only [Finset.mem_union, Finset.mem_sdiff, hn, not_false_eq_true, and_true,
        or_false, ha, if_false]

@[simp] theorem cache_quorums (immutable : Bool) (quorum : Finset A) :
    (_cache a immutable quorum self).quorums a = some ⟨immutable, quorum⟩ := by
  simp [_cache]

theorem cache_quorums_ne {a' : A} (immutable : Bool) (quorum : Finset A) (h : a' ≠ a) :
    (_cache a immutable quorum self).quorums a' = self.quorums a' := by
  simp [_cache, h]

theorem Loading.cache {immutable : Bool} {quorum : Finset A} (h : Loading a self) :
    Loading a (_cache a immutable quorum self) := by
  refine ⟨?_, ?_, ?_⟩
  · intro n a'
    rw [mem_cache_node_blocks h.same]
    by_cases ha : a' = a
    · subst ha
      simp
    · rw [if_neg ha, cache_quorums_ne _ _ ha]
      exact h.same n a'
  · intro e he
    by_cases ha : e.1 = a
    · rw [ha, cache_quorums]
      exact Option.some_ne_none _
    · rw [cache_quorums_ne _ _ ha]
      exact h.tracked e he
  · intro a' ha hq
    rw [cache_quorums_ne _ _ ha] at hq
    exact h.stored a' ha hq

theorem Loading.load_decision (h : Loading a self) :
    Loading a (_load_decision a d self) := by
  have hc : Loading a (_cache a false d.current_quorum self) := h.cache
  refine ⟨hc.same, ?_, hc.stored⟩
  intro e he
  have he' := (unload_suffix _).subset he
  rw [List.mem_append, List.mem_singleton] at he'
  rcases he' with he' | he'
  · exact hc.tracked e he'
  · rw [he']
    simp [_load_decision]

theorem load_decision_quorums (d : Server B A) :
    (_load_decision a d self).quorums a ≠ none := by
  simp [_load_decision]

theorem Kept.cached (h : Kept self) (hc : self.cached a = some d) :
    self.quorums a ≠ none :=
  h.tracked (a, d) (mem_of_cached hc)

theorem Kept.held_stored (h : Kept self) (hx : self.held a = some x) :
    self.storage a ≠ none := by
  unfold held at hx
  cases hc : self.cached a with
  | some d => exact h.stored a (h.cached hc)
  | none =>
    simp only [hc] at hx
    rw [hx]
    exact Option.some_ne_none x

/-- The quorum of the block is not known, and a load does not ask for it. -/
def Unindexed (self : LocalPeer B A) (a : A) : Prop :=
  (∃ b, self.held a = some (.block b)) ∧ self.rebalance_auto_expand = false ∧
    self.quorums a = none

theorem load_missing (owners : Finset A) (h : self.held a = none) :
    _load a owners self = (.error (.missing_key a), self) := by
  unfold held at h
  unfold _load
  rw [Op.bind_of_ok (Op.get_apply self)]
  cases hc : self.cached a with
  | some d => simp [hc] at h
  | none =>
    simp only [hc] at h
    rw [h]
    rfl

theorem load_found (owners : Finset A) (h : Kept self) (hx : self.held a = some x) :
    ∃ self', _load a owners self = (.ok x, self') ∧ Kept self' ∧ self'.id = self.id ∧
      self'.storage a ≠ none ∧ (self'.quorums a = none ↔ self.Unindexed a) := by
  have hne : self.storage a ≠ none := h.held_stored hx
  unfold Unindexed
  rw [hx]
  unfold held at hx
  unfold _load
  rw [Op.bind_of_ok (Op.get_apply self)]
  cases hc : self.cached a with
  | some d =>
    simp only [hc, Option.some.injEq] at hx
    subst hx
    have hq := h.cached hc
    exact ⟨self.use a d, rfl, (h.loading.use hq).kept hne, rfl, hne, by simp [LocalPeer.use, hq]⟩
  | none =>
    simp only [hc] at hx
    rw [hx]
    cases x with
    | paxos d =>
      exact ⟨_load_decision a d self, rfl, h.loading.load_decision.kept hne, rfl, hne, by
        simp [load_decision_quorums]⟩
    | block b =>
      simp only
      split_ifs with hload
      · exact ⟨_cache a true owners self, rfl, h.loading.cache.kept hne, rfl, hne, by
          simp_all⟩
      · refine ⟨self, rfl, h, rfl, hne, ?_⟩
        simp only [Bool.and_eq_true, not_and, Option.isNone_iff_eq_none] at hload
        constructor
        · intro hq
          exact ⟨⟨b, rfl⟩, by simpa using fun hauto => hload hauto hq, hq⟩
        · exact fun hq => hq.2.2

theorem load_spec (owners : Finset A) :
    Op.Spec Kept (_load a owners)
      (fun x s => Kept s ∧ s.storage a ≠ none ∧ ∀ d : Server B A, x = .paxos d → s.quorums a ≠ none)
      (fun _ => Kept) := by
  intro s hs
  cases hx : s.held a with
  | none =>
    rw [load_missing owners hx]
    exact hs
  | some x =>
    obtain ⟨s', heq, hk, -, hst, hq⟩ := load_found owners hs hx
    rw [heq]
    refine ⟨hk, hst, ?_⟩
    rintro d rfl hnone
    obtain ⟨⟨b, hb⟩, -⟩ := hq.mp hnone
    rw [hx] at hb
    cases hb

theorem load_paxos_spec (peers : Option (Finset A)) (value : Option B) (owners : Finset A) :
    Op.Spec Kept (_load_paxos a peers value owners)
      (fun d s => Loading a s ∧ s.quorums a ≠ none ∧
        (s.storage a ≠ none ∨ ∃ q, peers = some q ∧ d = Server.new s.id q value s.version))
      (fun _ => Kept) := by
  refine Op.Spec.tryCatch (?_ : Op.Spec Kept _ _ fun _ => Kept) ?_
  · apply Op.Spec.bind (load_spec owners)
    intro x
    cases x with
    | block b => exact Op.Spec.throw fun s hs => hs.1
    | paxos d =>
      exact Op.Spec.pure fun s hs => ⟨hs.1.loading, hs.2.2 d rfl, Or.inl hs.2.1⟩
  · intro e
    cases e with
    | missing_key a' =>
      cases peers with
      | none => exact Op.Spec.throw fun s hs => hs
      | some q =>
        apply Op.Spec.get_bind
        intro s hs
        exact Op.Spec.of_ok rfl ⟨hs.loading.load_decision, load_decision_quorums _,
          Or.inr ⟨q, rfl, rfl⟩⟩
    | _ => exact Op.Spec.throw fun s hs => hs

theorem save_ok {result : Except (Error A) α × Server B A} {x : α} (h : result.1 = .ok x) :
    save a result self = (.ok x, { self.use a result.2 with
      storage := Function.update self.storage a
        (some (.paxos (result.2.stored self.version))) }) := by
  unfold save set_storage
  rw [Op.bind_of_ok (Op.modify_apply _ self), h]
  cases hst : self.storage a <;>
    simp [Bind.bind, Op.bind, Except.mapError, Op.ofExcept, Op.pure, LocalPeer.use, hst, Op.get,
      Pure.pure]

theorem save_error {result : Except (Error A) α × Server B A} {e : Error A}
    (h : result.1 = .error e) :
    save a result self = (.error (.paxos e), self.use a result.2) := by
  unfold save
  rw [Op.bind_of_ok (Op.modify_apply _ self), h]
  rfl

theorem save_spec (result : Except (Error A) α × Server B A) :
    Op.Spec (fun s => Loading a s ∧ s.quorums a ≠ none ∧
        (s.storage a ≠ none ∨ ∃ x, result.1 = .ok x))
      (save a result) (fun _ s => Kept s ∧ s.storage a ≠ none ∧ s.quorums a ≠ none)
      (fun _ => Kept) := by
  rintro s ⟨hl, hq, hor⟩
  have hu : Loading a (s.use a result.2) := hl.use hq
  cases hr : result.1 with
  | ok x =>
    rw [save_ok hr]
    refine ⟨?_, by simp, hq⟩
    refine Loading.kept (a := a) ⟨hu.same, hu.tracked, ?_⟩ (by simp)
    intro a' ha hq'
    simp only [Function.update_of_ne ha]
    exact hu.stored a' ha hq'
  | error e =>
    rw [save_error hr]
    apply hu.kept
    rcases hor with hor | ⟨x, hx⟩
    · exact hor
    · rw [hr] at hx
      cases hx

/-! ## The calls that remove nothing -/

theorem propose_new [Inhabited A] (id : A) (q : Finset A) (value : Option B)
    (version : elle.Version) (p : Proposal A) : ∃ r,
    ((Server.new id q value version).propose q p).1 = .ok r := by
  unfold Server.propose
  simp only [Server.newer, Server.new, Server.check_confirmed, Server.check_quorum,
    Server.expected_quorum, Server.promise, ne_eq, not_true_eq_false, if_false]
  split_ifs <;> exact ⟨_, rfl⟩

theorem elect_new [Inhabited A] (id : A) (q : Finset A) (value : Option B) (version : elle.Version)
    (p : Proposal A) : ∃ r, (elect (Server.new id q value version) q p).1 = .ok r := by
  unfold elect Server.propose
  simp [Server.newer, Server.new, Server.check_confirmed, Server.check_quorum,
    Server.expected_quorum, Server.promise, Server.accept, Server.check_quorum_unless_partial,
    Server.confirm]

theorem propose_kept [Inhabited A] (peers : Finset A) (p : Proposal A) (insert : Bool)
    (owners : Finset A) :
    Op.Spec Kept (LocalPeer.propose (B := B) peers a p insert owners) (fun _ => Kept)
      (fun _ => Kept) := by
  apply Op.Spec.bind (load_paxos_spec _ _ _)
  intro d
  refine (save_spec _).weaken ?_ (fun _ _ h => h.1) (fun _ _ h => h)
  rintro s ⟨hl, hq, hst | ⟨q, hp, rfl⟩⟩
  · exact ⟨hl, hq, Or.inl hst⟩
  · cases insert with
    | false => cases hp
    | true =>
      simp only [if_true, Option.some.injEq] at hp
      subst hp
      exact ⟨hl, hq, Or.inr (propose_new _ _ _ _ _)⟩

omit [LinearOrder A] in
theorem validate_kept (model : Model B A R) (b : B) :
    Op.Spec Kept (validate model b) (fun _ => Kept) (fun _ => Kept) := by
  unfold validate
  split
  · exact Op.Spec.pure fun _ h => h
  · exact Op.Spec.throw fun _ h => h
  · exact Op.Spec.throw fun _ h => h

theorem load_paxos_stored (owners : Finset A) :
    Op.Spec Kept (_load_paxos a none none owners)
      (fun (_ : Server B A) s => Kept s ∧ s.storage a ≠ none ∧ s.quorums a ≠ none)
      (fun _ => Kept) := by
  refine (load_paxos_spec none none owners).weaken (fun _ h => h) ?_ (fun _ _ h => h)
  rintro d s ⟨hl, hq, hst | ⟨q, hp, -⟩⟩
  · exact ⟨hl.kept hst, hst, hq⟩
  · cases hp

theorem save_stored (result : Except (Error A) α × Server B A) :
    Op.Spec (fun s => Kept s ∧ s.storage a ≠ none ∧ s.quorums a ≠ none) (save a result)
      (fun _ => Kept) (fun _ => Kept) :=
  (save_spec result).weaken (fun _ h => ⟨h.1.loading, h.2.2, Or.inl h.2.1⟩) (fun _ _ h => h.1)
    (fun _ _ h => h)

theorem accept_kept [Inhabited A] (model : Model B A R) (peers : Finset A) (p : Proposal A)
    (value : Value B A) (owners : Finset A) :
    Op.Spec Kept (LocalPeer.accept model peers a p value owners) (fun _ => Kept)
      (fun _ => Kept) := by
  cases value with
  | quorum q => exact Op.Spec.bind (load_paxos_stored owners) fun d => save_stored _
  | value b =>
    apply Op.Spec.bind (validate_kept model b)
    intro _
    apply Op.Spec.bind (load_paxos_stored owners)
    intro d
    split
    · split_ifs
      · exact Op.Spec.bind (M := fun _ _ => False) (Op.Spec.throw fun _ h => h.1)
          fun _ _ h => h.elim
      · exact save_stored _
    · exact save_stored _

theorem get_kept [Inhabited A] (peers : Finset A) (owners : Finset A) :
    Op.Spec Kept (LocalPeer.get (B := B) peers a owners) (fun _ => Kept) (fun _ => Kept) := by
  apply Op.Spec.bind (load_paxos_stored owners)
  intro d
  exact Op.Spec.ofExcept (fun _ _ _ h => h.1) (fun _ _ _ h => h.1)

theorem propagate_kept [Inhabited A] (model : Model B A R) (q : Finset A) (b : B) (p : Proposal A)
    (owners : Finset A) :
    Op.Spec Kept (LocalPeer.propagate model q b p owners) (fun _ => Kept) (fun _ => Kept) := by
  apply Op.Spec.get_bind
  intro s hs
  split_ifs
  · exact Op.Spec.of_ok rfl hs
  · refine Op.Spec.bind ((load_paxos_spec _ _ _).weaken ?_ (fun _ _ h => h) (fun _ _ h => h))
      fun d => ?_
    · rintro _ rfl
      exact hs
    · refine (save_spec _).weaken ?_ (fun _ _ h => h.1) (fun _ _ h => h)
      rintro s' ⟨hl, hq, hst | ⟨q', hp, rfl⟩⟩
      · exact ⟨hl, hq, Or.inl hst⟩
      · simp only [Option.some.injEq] at hp
        subst hp
        exact ⟨hl, hq, Or.inr (elect_new _ _ _ _ _)⟩

theorem evict_kept (model : Model B A R) (lost_id : A) (owners : Finset A) :
    Op.Spec Kept (_disappeared_evict model lost_id a owners) (fun _ => Kept) (fun _ => Kept) := by
  apply Op.Spec.bind (load_spec owners)
  intro x
  cases x with
  | paxos d => exact Op.Spec.pure fun _ h => h.1
  | block b =>
    apply Op.Spec.get_bind
    intro s hs
    cases hr : s.quorums (model.address b) with
    | none => exact Op.Spec.of_error rfl hs.1
    | some r =>
      have hst : s.storage (model.address b) ≠ none :=
        hs.1.stored _ (by rw [hr]; exact Option.some_ne_none r)
      simp only
      split_ifs
      · exact Op.Spec.of_ok rfl (hs.1.loading.cache.kept hst)
      · exact Op.Spec.of_ok rfl hs.1

theorem Kept.set_storage (h : Kept self) (data : BlockOrPaxos B A) :
    Kept { self with storage := Function.update self.storage a (some data) } := by
  refine Loading.kept (a := a) ⟨h.same, h.tracked, ?_⟩ (by simp)
  intro a' ha hq
  simp only [Function.update_of_ne ha]
  exact h.stored a' hq

theorem set_storage_kept (data : BlockOrPaxos B A) (insert update : Bool) :
    Op.Spec Kept (LocalPeer.set_storage a data insert update) (fun _ => Kept)
      (fun _ => Kept) := by
  apply Op.Spec.get_bind
  intro s hs
  have hset := hs.set_storage (a := a) data
  cases hst : s.storage a <;> simp only <;> split_ifs
  · exact Op.Spec.of_error rfl hs
  · exact Op.Spec.of_ok rfl hset
  · exact Op.Spec.of_error rfl hs
  · exact Op.Spec.of_ok rfl hset

theorem store_kept (model : Model B A R) (b : B) (mode : StoreMode) :
    Op.Spec Kept (LocalPeer.store model b mode) (fun _ => Kept) (fun _ => Kept) := by
  unfold LocalPeer.store
  apply Op.Spec.bind (validate_kept model b)
  intro _
  split_ifs
  · exact Op.Spec.throw fun _ h => h
  · apply Op.Spec.get_bind
    intro s hs
    have hset : Op.Spec (fun t => t = s) (LocalPeer.set_storage (model.address b) (.block b)
        (mode == .insert) (mode == .update)) (fun _ => Kept) (fun _ => Kept) :=
      (set_storage_kept _ _ _).weaken (by rintro _ rfl; exact hs) (fun _ _ h => h) (fun _ _ h => h)
    split
    · exact hset
    · exact Op.Spec.of_error rfl hs
    · split
      · exact hset
      · exact Op.Spec.of_error rfl hs
      · exact Op.Spec.of_error rfl hs

/-! ## The calls that may remove a block -/

variable [Inhabited A]

/-- The removal of the block passes its check. -/
def removable (model : Model B A R) (x : BlockOrPaxos B A) (rs : R) : Bool :=
  (last_block x).all fun b => model.validate_remove b rs = .success

/-- The block that a call removes, as the state before it tells. -/
def removes (model : Model B A R) (self : LocalPeer B A) : Operation B A R → Option A
  | .remove a rs _ =>
    match self.held a with
    | some x => if removable model x rs then some a else none
    | none => none
  | .confirm peers a p _ =>
    match self.held a with
    | some (.paxos d) =>
      match d.confirm peers p with
      | (.ok _, d') =>
        match new_quorum d.current_value.isSome d' with
        | some q => if self.id ∈ q then none else some a
        | none => none
      | (.error _, _) => none
    | _ => none
  | .reconcile a answer lookup_nodes _ =>
    match model.mutable_block a, self.held a with
    | true, some (.paxos d) =>
      match client_state a answer (lookup_nodes d.current_quorum) with
      | .error (.missing_block _) => some a
      | _ => none
    | _, _ => none
  | _ => none

/-- The call removes no block, or one whose quorum is not known. -/
def KeepsIndex (model : Model B A R) (self : LocalPeer B A) (op : Operation B A R) : Prop :=
  ∀ a, removes model self op = some a → self.Unindexed a

/-- What a call does to the indices: it keeps them, or it removes a block, after it loaded it. -/
def Effect (model : Model B A R) (self : LocalPeer B A) (op : Operation B A R)
    (self' : LocalPeer B A) : Prop :=
  (removes model self op = none ∧ Kept self') ∨
  ∃ a s, removes model self op = some a ∧ Kept s ∧ s.storage a ≠ none ∧
    (s.quorums a = none ↔ self.Unindexed a) ∧ self' = erase a s

omit [LinearOrder A] in
theorem validate_remove_removable {rs : R} (h : removable model x rs = true) :
    validate_remove model x rs self = (.ok (), self) := by
  unfold removable at h
  unfold validate_remove
  cases hb : last_block x with
  | none => rfl
  | some b =>
    simp only [hb, Option.all_some, decide_eq_true_eq] at h
    simp only [h]
    rfl

omit [LinearOrder A] in
theorem validate_remove_refused {rs : R} (self : LocalPeer B A) (h : removable model x rs ≠ true) :
    ∃ e, validate_remove model x rs self = (.error e, self) := by
  unfold removable at h
  unfold validate_remove
  cases hb : last_block x with
  | none => simp [hb] at h
  | some b =>
    simp only [hb, Option.all_some, ne_eq, decide_eq_true_eq] at h
    cases hv : model.validate_remove b rs with
    | success => exact absurd hv h
    | conflict reason => exact ⟨.conflict reason b, by simp [hv]⟩
    | failure reason => exact ⟨.validation_failed reason, by simp [hv]⟩

theorem remove_effect (model : Model B A R) (rs : R) (owners : Finset A) (h : Kept self) :
    Effect model self (.remove a rs owners) (LocalPeer.remove model a rs owners self).2 := by
  unfold LocalPeer.remove
  cases hx : self.held a with
  | none =>
    rw [Op.bind_of_error (Op.tryCatch_of_error (load_missing owners hx))]
    exact Or.inl ⟨by simp [removes, hx], h⟩
  | some x =>
    obtain ⟨s, hload, hk, -, hst, hq⟩ := load_found owners h hx
    rw [Op.bind_of_ok (Op.tryCatch_of_ok hload)]
    by_cases hr : removable model x rs = true
    · rw [Op.bind_of_ok (validate_remove_removable hr), remove_stored hst]
      exact Or.inr ⟨a, s, by simp [removes, hx, hr], hk, hst, hq, rfl⟩
    · obtain ⟨e, he⟩ := validate_remove_refused s hr
      rw [Op.bind_of_error he]
      exact Or.inl ⟨by simp [removes, hx, hr], hk⟩

omit [Inhabited A] in
theorem change_quorum_stays {q : Finset A} (h : Kept self) (hst : self.storage a ≠ none)
    (hq : self.id ∈ q) : Kept (change_quorum a (some q) self).2 := by
  simp only [change_quorum]
  rw [Op.bind_of_ok (Op.get_apply self), if_pos hq]
  exact h.loading.cache.kept hst

omit [Inhabited A] in
theorem change_quorum_leaves {q : Finset A} (hst : self.storage a ≠ none) (hq : self.id ∉ q) :
    (change_quorum a (some q) self).2 = erase a self := by
  simp only [change_quorum]
  rw [Op.bind_of_ok (Op.get_apply self), if_neg hq, remove_stored hst]

theorem confirm_effect (model : Model B A R) (peers : Finset A) (p : Proposal A)
    (owners : Finset A) (h : Kept self) :
    Effect model self (.confirm peers a p owners) (LocalPeer.confirm peers a p owners self).2 := by
  unfold LocalPeer.confirm
  cases hx : self.held a with
  | none =>
    rw [Op.bind_of_error (Op.tryCatch_of_error (load_missing owners hx))]
    exact Or.inl ⟨by simp [removes, hx], h⟩
  | some x =>
    obtain ⟨s, hload, hk, hid, hst, hq⟩ := load_found owners h hx
    rw [Op.bind_of_ok (Op.tryCatch_of_ok hload)]
    cases x with
    | block b => exact Or.inl ⟨by simp [removes, hx], hk.loading.cache.kept hst⟩
    | paxos d =>
      have hq' : s.quorums a ≠ none := by
        intro hnone
        obtain ⟨⟨b, hb⟩, -⟩ := hq.mp hnone
        rw [hx] at hb
        cases hb
      have hsave := save_stored (d.confirm peers p) s ⟨hk, hst, hq'⟩
      cases hc : d.confirm peers p with
      | mk res d' =>
        rw [hc] at hsave
        simp only [hc]
        cases res with
        | error e =>
          rw [save_error rfl] at hsave
          rw [Op.bind_of_error (save_error rfl)]
          exact Or.inl ⟨by simp [removes, hx, hc], hsave⟩
        | ok r =>
          rw [save_ok rfl] at hsave
          rw [Op.bind_of_ok (save_ok rfl)]
          cases hn : new_quorum d.current_value.isSome d' with
          | none => exact Or.inl ⟨by simp [removes, hx, hc, hn], hsave⟩
          | some q =>
            by_cases hmem : s.id ∈ q
            · exact Or.inl ⟨by simp [removes, hx, hc, hn, ← hid, hmem],
                change_quorum_stays hsave (by simp) hmem⟩
            · exact Or.inr ⟨a, _, by simp [removes, hx, hc, hn, ← hid, hmem], hsave, by simp, hq,
                change_quorum_leaves (by simp) hmem⟩

theorem reconcile_effect (model : Model B A R) (answer : A → Fetched B A)
    (lookup_nodes : Finset A → List A) (owners : Finset A) (h : Kept self) :
    Effect model self (.reconcile a answer lookup_nodes owners)
      (LocalPeer.reconcile model a answer lookup_nodes owners self).2 := by
  unfold LocalPeer.reconcile
  by_cases hm : model.mutable_block a = true
  · rw [if_pos hm]
    cases hx : self.held a with
    | none =>
      have hst : self.storage a = none := by
        unfold held at hx
        split at hx
        · cases hx
        · exact hx
      have hload : _load_paxos a none none owners self = (.error (.missing_block a), self) := by
        unfold _load_paxos
        rw [Op.tryCatch_of_error (Op.bind_of_error (load_missing owners hx))]
        rfl
      have hrem : _remove a self = (.error (.missing_block a), self) := by
        unfold _remove
        rw [Op.bind_of_ok (Op.get_apply self), hst]
        rfl
      rw [Op.tryCatch_of_error (Op.bind_of_error hload)]
      simp only
      rw [Op.tryCatch_of_error (Op.bind_of_error hrem)]
      exact Or.inl ⟨by simp [removes, hm, hx], h⟩
    | some x =>
      obtain ⟨s, hfound, hk, -, hst, hq⟩ := load_found owners h hx
      cases x with
      | block b =>
        have hload : _load_paxos a none none owners self =
            (.error (.error "immutable block found when paxos was expected"), s) := by
          unfold _load_paxos
          rw [Op.tryCatch_of_error (by rw [Op.bind_of_ok hfound]; rfl)]
          rfl
        rw [Op.tryCatch_of_error (Op.bind_of_error hload)]
        exact Or.inl ⟨by simp [removes, hm, hx], hk⟩
      | paxos d =>
        have hload : _load_paxos a none none owners self = (.ok d, s) := load_paxos_of_load hfound
        cases hc : client_state a answer (lookup_nodes d.current_quorum) with
        | ok st =>
          rw [Op.tryCatch_of_ok (by rw [Op.bind_of_ok hload]; simp only [hc]; rfl)]
          exact Or.inl ⟨by simp [removes, hm, hx, hc], hk⟩
        | error e =>
          rw [Op.tryCatch_of_error (by rw [Op.bind_of_ok hload]; simp only [hc]; rfl)]
          cases e with
          | missing_block a' =>
            simp only [rethrow]
            rw [Op.tryCatch_of_ok (by rw [Op.bind_of_ok (remove_stored hst)]; rfl)]
            exact Or.inr ⟨a, s, by simp [removes, hm, hx, hc], hk, hst, hq, rfl⟩
          | _ => exact Or.inl ⟨by simp [removes, hm, hx, hc], hk⟩
  · rw [if_neg hm]
    exact Or.inl ⟨by simp [removes, hm], h⟩

theorem perform_effect (model : Model B A R) (op : Operation B A R) (h : Kept self) :
    Effect model self op (perform model self op) := by
  cases op with
  | load a owners =>
    exact Or.inl ⟨rfl, ((load_spec owners).weaken (fun _ h => h) (fun _ _ h => h.1)
      (fun _ _ h => h)).state h⟩
  | propose peers a p insert owners =>
    exact Or.inl ⟨rfl, (propose_kept peers p insert owners).state h⟩
  | accept peers a p value owners =>
    exact Or.inl ⟨rfl, (accept_kept model peers p value owners).state h⟩
  | confirm peers a p owners => exact confirm_effect model peers p owners h
  | get peers a owners => exact Or.inl ⟨rfl, (get_kept peers owners).state h⟩
  | propagate q b p owners => exact Or.inl ⟨rfl, (propagate_kept model q b p owners).state h⟩
  | evict lost_id a owners => exact Or.inl ⟨rfl, (evict_kept model lost_id owners).state h⟩
  | store b mode => exact Or.inl ⟨rfl, (store_kept model b mode).state h⟩
  | remove a rs owners => exact remove_effect model rs owners h
  | reconcile a answer lookup_nodes owners =>
    exact reconcile_effect model answer lookup_nodes owners h

/-! ## Whole sequences -/

omit [Inhabited A] in
theorem Kept.erase (h : Kept self) (hq : self.quorums a = none) : Kept (erase a self) := by
  have hne : ∀ a', self.quorums a' ≠ none → a' ≠ a := by
    rintro a' hq' rfl
    exact hq' hq
  refine ⟨?_, ?_, ?_⟩
  · intro n a'
    simp only [LocalPeer.erase, Finset.mem_filter]
    rw [h.same]
    constructor
    · exact fun h => h.1
    · rintro ⟨r, hr, hn⟩
      exact ⟨⟨r, hr, hn⟩, by simpa using hne a' (by rw [hr]; exact Option.some_ne_none r)⟩
  · intro e he
    exact h.tracked e (List.mem_filter.mp he).1
  · intro a' hq'
    simp only [LocalPeer.erase, Function.update_of_ne (hne a' hq')]
    exact h.stored a' hq'

theorem perform_kept {op : Operation B A R} (h : Kept self) (hok : KeepsIndex model self op) :
    Kept (perform model self op) := by
  obtain ⟨-, hk⟩ | ⟨a, s, hr, hk, -, hq, heq⟩ := perform_effect model op h
  · exact hk
  · rw [heq]
    exact hk.erase (hq.mpr (hok a hr))

theorem perform_lost {op : Operation B A R} (h : Kept self) (hok : ¬ KeepsIndex model self op) :
    ¬ Indexed (perform model self op) := by
  unfold KeepsIndex at hok
  obtain ⟨hr, -⟩ | ⟨a, s, hr, hk, -, hq, heq⟩ := perform_effect model op h
  · simp [hr] at hok
  · intro hi
    have hnone : s.quorums a = none := by
      rw [heq] at hi
      exact (hi.absent a (by simp [LocalPeer.erase])).1
    simp only [hr, Option.some.injEq, forall_eq'] at hok
    exact hok (hq.mp hnone)

/-- A node that starts: the cache and the indices are empty, whatever is stored. -/
structure Started (node : LocalPeer B A) : Prop where
  addresses : node.addresses = []
  quorums : ∀ a, node.quorums a = none
  node_blocks : node.node_blocks = ∅

omit [LinearOrder A] [Inhabited A] in
theorem Started.kept (h : Started self) : Kept self := by
  refine ⟨?_, ?_, ?_⟩
  · intro n a
    simp [h.node_blocks, h.quorums]
  · simp [h.addresses]
  · intro a hq
    exact absurd (h.quorums a) hq

/-- The indices agree after each call of a sequence, when and only when each call removes no
block, or a block whose quorum is not known. -/
theorem indices_agree_while_no_block_with_a_quorum_is_removed (model : Model B A R)
    (self : LocalPeer B A) (h : Started self) (calls : List (Operation B A R)) :
    (∀ done, done <+: calls → Indexed (performs model self done)) ↔
      ∀ done op, done ++ [op] <+: calls → KeepsIndex model (performs model self done) op := by
  unfold performs
  exact foldl_always_iff h.kept (fun _ => Kept.indexed) (fun _ _ hk hok => perform_kept hk hok)
    (fun _ _ hk hok => perform_lost hk hok)

/-- A node without expansion that keeps the immutable block 4. -/
def archive : LocalPeer Nat Nat where
  id := 1
  version := ⟨0, 4, 0⟩
  factor := 3
  rebalance_auto_expand := false
  max_addresses_size := 100
  storage a := if a = 4 then some (.block 4) else none
  addresses := []
  quorums _ := none
  node_blocks := ∅

/-- A block is created, and the immutable one is removed: its quorum was never known. -/
theorem a_removal_without_a_quorum_keeps_the_indices :
    Indexed (performs plain archive [.propose {1, 2} 7 ⟨1, 0, 1⟩ true ∅, .remove 4 () ∅]) ∧
    (performs plain archive [.propose {1, 2} 7 ⟨1, 0, 1⟩ true ∅, .remove 4 () ∅]).storage 4 = none ∧
    (2, 7) ∈ (performs plain archive
      [.propose {1, 2} 7 ⟨1, 0, 1⟩ true ∅, .remove 4 () ∅]).node_blocks := by
  have hall := (indices_agree_while_no_block_with_a_quorum_is_removed plain archive
    ⟨rfl, fun _ => rfl, rfl⟩ [.propose {1, 2} 7 ⟨1, 0, 1⟩ true ∅, .remove 4 () ∅]).mpr
  refine ⟨hall ?_ _ List.prefix_rfl, rfl, by decide⟩
  intro done op hp
  have hcases : (done = [] ∧ op = .propose {1, 2} 7 ⟨1, 0, 1⟩ true ∅) ∨
      (done = [.propose {1, 2} 7 ⟨1, 0, 1⟩ true ∅] ∧ op = .remove 4 () ∅) := by
    match done, hp with
    | [], hp => simp_all
    | [x], hp => simp_all
    | x :: y :: l, hp => simp at hp
  rcases hcases with ⟨rfl, rfl⟩ | ⟨rfl, rfl⟩
  · intro a ha
    cases ha
  · intro a ha
    cases ha
    exact ⟨⟨4, rfl⟩, rfl, rfl⟩

/-- The removal of a mutable block leaves its quorum in the index by address, and its nodes not
in the index by node. -/
theorem a_removed_block_stays_in_the_index_of_quorums :
    Started keeper ∧
    (performs plain keeper [.remove 5 () ∅]).storage 5 = none ∧
    (performs plain keeper [.remove 5 () ∅]).quorums 5 = some ⟨false, {1, 2, 3}⟩ ∧
    (1, 5) ∉ (performs plain keeper [.remove 5 () ∅]).node_blocks ∧
    ¬ Indexed (performs plain keeper [.remove 5 () ∅]) := by
  have hq : (performs plain keeper [.remove 5 () ∅]).quorums 5 = some ⟨false, {1, 2, 3}⟩ := rfl
  refine ⟨⟨rfl, fun _ => rfl, rfl⟩, rfl, hq, by decide, fun hi => ?_⟩
  have hnone := (hi.absent 5 rfl).1
  rw [hq] at hnone
  cases hnone

end memo.LocalPeer
