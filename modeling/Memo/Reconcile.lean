-- When a reconciliation drops the local copy. The reading headcount counts the
-- members that were reached, and one report of a missing block turns a failed
-- headcount into a missing block, however many members are only unreachable.
import Memo.LocalPeer

open ops athena.paxos

namespace memo.LocalPeer

variable {B A R : Type} [LinearOrder A]
variable {self : LocalPeer B A} {a : A}

/-! ## Loading what is there -/

/-- What the node holds for the address: the acceptor of the cache, else what is stored. -/
def held (self : LocalPeer B A) (a : A) : Option (BlockOrPaxos B A) :=
  match self.cached a with
  | some d => some (.paxos d)
  | none => self.storage a

theorem load_held {x : BlockOrPaxos B A} (owners : Finset A) (h : self.held a = some x) :
    ∃ self', _load a owners self = (.ok x, self') ∧ self'.storage = self.storage := by
  unfold held at h
  unfold _load
  rw [Op.bind_of_ok (Op.get_apply self)]
  cases hc : self.cached a with
  | some d =>
    simp only [hc, Option.some.injEq] at h
    subst h
    exact ⟨self.use a d, rfl, rfl⟩
  | none =>
    simp only [hc] at h
    rw [h]
    cases x with
    | paxos d => exact ⟨_load_decision a d self, rfl, rfl⟩
    | block b =>
      simp only
      split_ifs
      · exact ⟨_cache a true owners self, rfl, rfl⟩
      · exact ⟨self, rfl, rfl⟩

theorem load_paxos_of_load {self' : LocalPeer B A} {d : Server B A} {peers : Option (Finset A)}
    {value : Option B} {owners : Finset A} (h : _load a owners self = (.ok (.paxos d), self')) :
    _load_paxos a peers value owners self = (.ok d, self') := by
  unfold _load_paxos
  apply Op.tryCatch_of_ok
  rw [Op.bind_of_ok h]
  rfl

/-! ## What the client finds -/

def Fetched.isValue : Fetched B A → Bool
  | .value _ => true
  | _ => false

def Fetched.isMissing : Fetched B A → Bool
  | .missing => true
  | _ => false

theorem gather_spec (a : A) (answer : A → Fetched B A) (peers : List A) (g : Gathered B A) :
    ∃ g', peers.foldlM (fun g s => gather a g s (answer s)) g = .ok g' ∧
      g'.reached.length = g.reached.length + (peers.filter (answer · |>.isValue)).length ∧
      g'.wrong_quorum = g.wrong_quorum ∧
      g'.weak_error = g.weak_error.or
        (if peers.any (answer · |>.isMissing) then some (.missing_block a) else none) := by
  induction peers generalizing g with
  | nil => exact ⟨g, rfl, by simp, rfl, by simp⟩
  | cons s peers ih =>
    rw [List.foldlM_cons]
    cases hs : answer s with
    | value v =>
      have hg : ∃ g₁, gather a g s (.value v) = .ok g₁ ∧
          g₁.reached = g.reached ++ [s] ∧ g₁.wrong_quorum = g.wrong_quorum ∧
          g₁.weak_error = g.weak_error := by
        cases v <;> exact ⟨_, rfl, rfl, rfl, rfl⟩
      obtain ⟨g₁, hg₁, hr₁, hq₁, hw₁⟩ := hg
      obtain ⟨g', hg', hr', hq', hw'⟩ := ih g₁
      refine ⟨g', by rw [hg₁]; exact hg', ?_, hq'.trans hq₁, ?_⟩
      · rw [hr', hr₁]
        simp [hs, Fetched.isValue]
        omega
      · rw [hw', hw₁]
        simp [hs, Fetched.isMissing]
    | missing =>
      obtain ⟨g', hg', hr', hq', hw'⟩ := ih (g.weakened (.missing_block a))
      refine ⟨g', hg', ?_, hq', ?_⟩
      · rw [hr']
        simp [hs, Fetched.isValue, Gathered.weakened]
      · rw [hw']
        cases hw : g.weak_error <;> simp [hs, hw, Fetched.isMissing, Gathered.weakened]
    | unreachable =>
      obtain ⟨g', hg', hr', hq', hw'⟩ := ih g
      refine ⟨g', hg', ?_, hq', ?_⟩
      · rw [hr']
        simp [hs, Fetched.isValue]
      · rw [hw']
        simp [hs, Fetched.isMissing]

/-- The members that miss the block, and those that have it. -/
def missing (Q : Finset A) (answer : A → Fetched B A) : Nat :=
  (Q.filter fun s => (answer s).isMissing).card

def found (Q : Finset A) (answer : A → Fetched B A) : Nat :=
  (Q.filter fun s => (answer s).isValue).card

theorem client_state_missing {Q : Finset A} {peers : List A} (answer : A → Fetched B A)
    (hn : peers.Nodup) (hQ : peers.toFinset = Q) :
    (∃ a', client_state a answer peers = .error (.missing_block a')) ↔
      0 < missing Q answer ∧ found Q answer ≤ (Q.card - 1) / 2 := by
  obtain ⟨g, hg, hreached, hquorum, hweak⟩ := gather_spec a answer peers Gathered.empty
  have hfound : g.reached.length = found Q answer := by
    rw [hreached, found, ← hQ, List.filter_toFinset,
      List.toFinset_card_of_nodup (hn.filter _)]
    simp [Gathered.empty]
  have hmissing : peers.any (answer · |>.isMissing) = true ↔ 0 < missing Q answer := by
    rw [missing, Finset.card_pos, List.any_eq_true]
    constructor
    · rintro ⟨s, hs, hm⟩
      exact ⟨s, by rw [Finset.mem_filter, ← hQ, List.mem_toFinset]; exact ⟨hs, hm⟩⟩
    · rintro ⟨s, hs⟩
      rw [Finset.mem_filter, ← hQ, List.mem_toFinset] at hs
      exact ⟨s, hs⟩
  have hstate : client_state a answer peers = g.finish Q := by
    unfold client_state
    rw [hg, hQ]
    rfl
  rw [hstate]
  simp only [Gathered.empty, Option.none_or] at hquorum hweak
  unfold Gathered.finish check_headcount
  simp only [if_true, hfound, hquorum, hweak]
  by_cases hle : found Q answer ≤ (Q.card - 1) / 2
  · rw [if_pos hle]
    by_cases hm : peers.any (answer · |>.isMissing) = true
    · simp [hm, hmissing.mp hm, hle]
    · have : ¬ 0 < missing Q answer := fun h => hm (hmissing.mpr h)
      simp [hm, this]
  · rw [if_neg hle]
    simp only [hle, and_false, iff_false, not_exists]
    intro a'
    unfold Gathered.value
    split <;> simp

/-! ## When the copy is dropped -/

theorem remove_stored (h : self.storage a ≠ none) : _remove a self = (.ok (), erase a self) := by
  unfold _remove
  rw [Op.bind_of_ok (Op.get_apply self)]
  cases hs : self.storage a with
  | none => exact absurd hs h
  | some x => rfl

theorem reconcile_storage (model : Model B A R) (answer : A → Fetched B A)
    (lookup_nodes : Finset A → List A) (owners : Finset A) {d : Server B A}
    (hm : model.mutable_block a = true) (hd : self.held a = some (.paxos d))
    (hs : self.storage a ≠ none) :
    (reconcile model a answer lookup_nodes owners self).2.storage a = none ↔
      ∃ a', client_state a answer (lookup_nodes d.current_quorum) = .error (.missing_block a') := by
  obtain ⟨self', hheld, hstorage⟩ := load_held owners hd
  have hload : _load_paxos a none none owners self = (.ok d, self') := load_paxos_of_load hheld
  have hs' : self'.storage a ≠ none := by rwa [hstorage]
  unfold reconcile
  rw [if_pos hm]
  cases hc : client_state a answer (lookup_nodes d.current_quorum) with
  | ok st =>
    rw [Op.tryCatch_of_ok (by rw [Op.bind_of_ok hload]; simp only [hc]; rfl)]
    simp [hs']
  | error e =>
    rw [Op.tryCatch_of_error (by rw [Op.bind_of_ok hload]; simp only [hc]; rfl)]
    cases e with
    | missing_block a' =>
      simp only [rethrow]
      rw [Op.tryCatch_of_ok (by rw [Op.bind_of_ok (remove_stored hs')]; rfl)]
      simp [erase]
    | _ => simp [rethrow, hs']

/-- A reconciliation that drops the copy only on the report of a strict majority: this is so when
no member misses the block, when a strict majority does, or when enough members have it. -/
theorem reconciliation_needs_a_majority_unless_members_are_unreachable (model : Model B A R)
    (self : LocalPeer B A) (a : A) (answer : A → Fetched B A)
    (lookup_nodes : Finset A → List A) (owners : Finset A) (d : Server B A)
    (hm : model.mutable_block a = true) (hd : self.held a = some (.paxos d))
    (hs : self.storage a ≠ none) (hn : (lookup_nodes d.current_quorum).Nodup)
    (hQ : (lookup_nodes d.current_quorum).toFinset = d.current_quorum) :
    ((reconcile model a answer lookup_nodes owners self).2.storage a = none →
        d.current_quorum.card / 2 < missing d.current_quorum answer) ↔
      (missing d.current_quorum answer = 0 ∨
        d.current_quorum.card / 2 < missing d.current_quorum answer ∨
        (d.current_quorum.card - 1) / 2 < found d.current_quorum answer) := by
  rw [reconcile_storage model answer lookup_nodes owners hm hd hs,
    client_state_missing answer hn hQ]
  constructor
  · intro h
    by_cases hpos : 0 < missing d.current_quorum answer
    · by_cases hle : found d.current_quorum answer ≤ (d.current_quorum.card - 1) / 2
      · exact Or.inr (Or.inl (h ⟨hpos, hle⟩))
      · exact Or.inr (Or.inr (not_le.mp hle))
    · exact Or.inl (by omega)
  · rintro h ⟨hpos, hle⟩
    rcases h with h | h | h
    · omega
    · exact h
    · omega

/-- Blocks that are numbers, without any check. -/
def plain : Model Nat Nat Unit where
  address b := b
  immutable _ := false
  mutable_block _ := true
  validate _ := .success
  validate_next _ _ := .success
  validate_remove _ _ := .success

/-- An acceptor of the quorum 1, 2, 3 with the block 5, elected by the first proposal. -/
def elected : Server Nat Nat :=
  (elect (Server.new 1 {1, 2, 3} (some 5) ⟨0, 4, 0⟩) {1, 2, 3} ⟨1, 0, 1⟩).2

/-- A node that holds the block 5. -/
def keeper : LocalPeer Nat Nat where
  id := 1
  version := ⟨0, 4, 0⟩
  factor := 3
  rebalance_auto_expand := true
  max_addresses_size := 100
  storage a := if a = 5 then some (.paxos elected) else none
  addresses := []
  quorums _ := none
  node_blocks := ∅

/-- Two of three members miss the block: a majority. -/
theorem two_of_three_members_drop_the_copy :
    (reconcile plain 5 (fun s => if s = 1 then .value elected.current_value else .missing)
      (fun _ => [1, 2, 3]) ∅ keeper).2.storage 5 = none ∧
    3 / 2 < missing {1, 2, 3}
      (fun s : Nat => if s = 1 then .value elected.current_value else .missing) := by
  have hnone : (reconcile plain 5
      (fun s => if s = 1 then .value elected.current_value else .missing) (fun _ => [1, 2, 3]) ∅
      keeper).2.storage 5 = none := rfl
  refine ⟨hnone, ?_⟩
  exact (reconciliation_needs_a_majority_unless_members_are_unreachable plain keeper 5
    (fun s => if s = 1 then .value elected.current_value else .missing) (fun _ => [1, 2, 3]) ∅
    elected rfl rfl (by decide) (by decide) (by decide)).mpr
      (Or.inr (Or.inl (by decide))) hnone

/-- The node has the block, one member misses it and one is unreachable: the node drops its copy
on the report of one member of three. -/
theorem one_of_three_members_drops_the_copy :
    ∃ answer : Nat → Fetched Nat Nat,
      answer 1 = .value (some ⟨⟨1, 0, 1⟩, .value 5, true⟩) ∧
      elected.current_value = some ⟨⟨1, 0, 1⟩, .value 5, true⟩ ∧
      keeper.storage 5 ≠ none ∧
      (reconcile plain 5 answer (fun _ => [1, 2, 3]) ∅ keeper).2.storage 5 = none ∧
      ¬ 3 / 2 < missing {1, 2, 3} answer :=
  ⟨fun s => if s = 1 then .value elected.current_value else if s = 2 then .missing else
    .unreachable, rfl, rfl, by decide, rfl, by decide⟩

end memo.LocalPeer
