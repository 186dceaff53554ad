-- The version that a store chooses after a conflict. It goes through the version that a block is to
-- be sealed at, which a clone copies, a seal takes, and a seal at a version of its own leaves.
import Memo.BlockEquality
import Memo.ValidationCache

open ops runs

namespace memo

section

variable {K S H : Type} [DecidableEq K] {dht : Dht K S H}

namespace MutableBlock

/-! ## Blocks -/

/-- `version()`, of an ACB that of its data. -/
def version : MutableBlock K H → Int
  | .okb b => b.version
  | .acb b => b.data_version

/-- The version that the block is to be sealed at. -/
def next_seal_version : MutableBlock K H → Option Int
  | .okb b => b.next_seal_version
  | .acb b => b.next_seal_version

/-- `seal_version(version)`. -/
def set_seal_version (version : Int) : MutableBlock K H → MutableBlock K H
  | .okb b => .okb { b with next_seal_version := some version }
  | .acb b => .acb (b.set_seal_version version)

/-- `_seal(version)`. The secret is the one that is generated for new data. -/
def _seal (dht : Dht K S H) (version : Option Int) (secret : S) :
    Op (MutableBlock K H) Failure Unit :=
  on_both (OKB._seal dht version) (ACB._seal dht version secret)

/-- `operator ==`. -/
def equal [DecidableEq H] : MutableBlock K H → MutableBlock K H → Bool
  | .okb b, .okb that => decide (b.salt = that.salt) && decide (b.owner_key = that.owner_key) &&
      decide (b.address = that.address) && decide (b.data = that.data)
  | .acb b, .acb that => b.equal that
  | _, _ => false

/-- `clone`: the copy constructors copy every field. -/
def clone (b : MutableBlock K H) : MutableBlock K H := b

/-! ## Resolvers -/

/-- A call of the public interface: one of a mutable block, the permissions of another block that
are copied to it, or an edit of a group. Each finds the network as it is then. -/
inductive Change (K S H : Type) where
  | call (dht : Dht K S H) (c : Call K S)
  | copy_permissions (dht : Dht K S H) (source : ACB K H)
  | group (dht : Dht K S H) (pairs : KeyPairs K) (new_key : K) (action : GroupAction K)

def Change.run [DecidableEq H] : Change K S H → Op (MutableBlock K H) Failure Unit
  | .call dht c => c.run dht
  | .copy_permissions dht source => on_acb (ACB._copy_permissions dht source)
  | .group dht pairs new_key action => on_acb (action.run dht pairs new_key)

/-- The version of a seal, if the change is one. -/
def Change.seals : Change K S H → Option (Option Int)
  | .call _ (.seal version _) => some version
  | _ => none

/-- A change of a block. A call may throw, and the block is then as it left it, but a seal that
throws makes no block that is sealed. -/
def change [DecidableEq H] (b : MutableBlock K H) (c : Change K S H) : Option (MutableBlock K H) :=
  if c.seals.isSome ∧ (c.run b).1 ≠ .ok () then none else some (c.run b).2

/-- A seal at a version of its own raises the version. -/
def Rises (b : MutableBlock K H) (c : Change K S H) : Prop :=
  ∀ w, c.seals = some (some w) → b.version < w

/-- The block comes from another one by changes that meet a condition. -/
def Made [DecidableEq H] (ok : MutableBlock K H → Change K S H → Prop)
    (b b' : MutableBlock K H) : Prop :=
  ∃ changes, Run change ok b changes b'

/-- `ConflictResolver::operator()`, on the block and on the current one, which it may change in
place. -/
abbrev Resolver (K H : Type) : Type :=
  Op (MutableBlock K H × MutableBlock K H) Failure (Option (MutableBlock K H))

/-- What the resolver returns is made of a clone of one of the two blocks, and it leaves the first
one as changes make it. -/
structure Resolver.Public [DecidableEq H] (ok : MutableBlock K H → Change K S H → Prop)
    (f : Resolver K H) : Prop where
  block : ∀ s r s', f s = (.ok r, s') → Made ok s.1 s'.1
  resolved : ∀ s r s', f s = (.ok (some r), s') → Made ok s.1 r ∨ Made ok s.2 r

/-- `DummyConflictResolver`. -/
def DummyConflictResolver (dht : Dht K S H) (secret : S) : Resolver K H := fun s =>
  match _seal dht (some (s.2.version + 1)) secret s.2 with
  | (.ok (), current) =>
    if s.2.version < current.version then (.ok (some current.clone), s.1, current)
    else (.error (.assert_error "mb->version() > v"), s.1, current)
  | (.error e, current) => (.error e, s.1, current)

/-- `GroupConflictResolver`. -/
def GroupConflictResolver (dht : Dht K S H) (pairs : KeyPairs K) (new_key : K)
    (action : GroupAction K) : Resolver K H := fun s =>
  match s.2.clone with
  | .okb _ => (.error (.error "GroupConflictResolver failed to access current block"), s)
  | .acb res =>
    if res.group_part.isSome then
      match action.run dht pairs new_key res with
      | (.ok (), res) => (.ok (some (.acb res)), s)
      | (.error e, _) => (.error e, s)
    else (.error (.error "GroupConflictResolver failed to access current block"), s)

/-- The loop of `MergeConflictResolver`, over the resolvers but the first. -/
def merge_rest : List (Resolver K H) → Option (MutableBlock K H) → Resolver K H
  | [], res, s => (.ok res, s)
  | _ :: _, none, s => (.error .null_pointer, s)
  | f :: resolvers, some res, (block, current) =>
    match f (block, res) with
    | (.ok res, (block, _)) => merge_rest resolvers res (block, current)
    | (.error e, (block, _)) => (.error e, block, current)

/-- `MergeConflictResolver`. It is never empty. -/
def MergeConflictResolver : List (Resolver K H) → Resolver K H
  | [], s => (.error .out_of_bounds, s)
  | f :: resolvers, s =>
    match f s with
    | (.ok res, s) => merge_rest resolvers res s
    | (.error e, s) => (.error e, s)

/-! ## The store -/

/-- `resolve`. -/
def resolve [DecidableEq H] (b newest : MutableBlock K H) (resolver : Option (Resolver K H)) :
    Except Failure (Option (MutableBlock K H)) :=
  if newest.equal b then .ok none
  else
    match resolver with
    | some f =>
      match (f (b, newest)).1 with
      | .ok (some resolved) => .ok (some resolved)
      | .ok none => .error (.error "Paxos chose a different value")
      | .error e => .error e
    | none => .error (.error "Paxos chose a different value")

/-- What Paxos chose instead of the block: another quorum, or another block. -/
inductive Chosen (K H : Type) where
  | quorum
  | block (b : MutableBlock K H)

/-- What `_store` does when Paxos chose something at a version: the block that it runs Paxos for
next, or none when the chosen one is ours. -/
def next_block [DecidableEq H] (dht : Dht K S H) (secret : S) (b : MutableBlock K H) (version : Int)
    (resolver : Option (Resolver K H)) :
    Chosen K H → Except Failure (Option (MutableBlock K H))
  | .quorum =>
    match _seal dht (some (version + 1)) secret b with
    | (.ok (), b) => .ok (some b)
    | (.error e, _) => .error e
  | .block block =>
    match resolve (b.set_seal_version (version + 1)) (block.set_seal_version (version + 1))
        resolver with
    | .error e => .error e
    | .ok none => .ok none
    | .ok (some b) =>
      match _seal dht none secret b with
      | (.ok (), b) => .ok (some b)
      | (.error e, _) => .error e

/-! ## What a call changes -/

variable {b b' m : MutableBlock K H} {secret : S} {v w : Int}

/-- The version of the block, and the one that it is to be sealed at. -/
def versions (b : MutableBlock K H) : Int × Option Int := (b.version, b.next_seal_version)

omit [DecidableEq K] in
theorem acb_versions {b b' : ACB K H} (h : b'.steady = b.steady) :
    (acb b').versions = (acb b).versions := by
  simp only [ACB.steady, Prod.mk.injEq] at h
  simp [versions, version, next_seal_version, h]

omit [DecidableEq K] in
theorem okb_transform_versions (plain : Except Failure Buffer) (f : Buffer → Buffer) (b : OKB K H) :
    (OKB.transform_data plain f b).2.version = b.version ∧
      (OKB.transform_data plain f b).2.next_seal_version = b.next_seal_version := by
  unfold OKB.transform_data
  rw [Op.bind_of_ok (Op.get_apply b)]
  unfold OKB.decrypted
  split_ifs
  · exact ⟨rfl, rfl⟩
  · cases plain <;> exact ⟨rfl, rfl⟩

theorem copy_permissions_versions (dht : Dht K S H) (source : ACB K H) (t : Int × Option Int) :
    Op.Keeps (fun m => (acb m).versions = t) (ACB._copy_permissions dht source) := by
  have hset : ∀ key read write, Op.Keeps (fun m => (acb m).versions = t)
      (ACB.set_permissions dht key read write) := fun key read write m hm =>
    (acb_versions (ACB.steady_of_frame (ACB.set_permissions_frame dht key read write m))).trans hm
  unfold ACB._copy_permissions
  refine Op.Keeps.bind (ACB.each_keeps fun e _ => ?_) fun _ => ?_
  · exact Op.Keeps.get_bind fun _ _ => Op.Keeps.ite (hset _ _ _) (Op.Keeps.pure ())
  refine Op.Keeps.bind (ACB.each_keeps fun e _ m hm => ?_) fun _ => ?_
  · have hframe := ACB.set_group_permissions_frame dht e.key e.read e.write m
    exact (acb_versions (ACB.steady_of_frame hframe)).trans hm
  refine Op.Keeps.get_bind fun _ _ => Op.Keeps.bind ?_ fun _ => Op.Keeps.modify fun _ hm => hm
  exact Op.Keeps.ite (hset _ _ _) (Op.Keeps.pure ())

theorem Change.run_versions [DecidableEq H] {c : Change K S H} (hc : c.seals = none)
    (b : MutableBlock K H) : (c.run b).2.versions = b.versions := by
  cases c with
  | group dht pairs new_key action =>
    cases b with
    | okb b => rfl
    | acb b => exact acb_versions (GroupAction.run_keeps dht pairs new_key action b.steady b rfl)
  | copy_permissions dht source =>
    cases b with
    | okb b => rfl
    | acb b => exact copy_permissions_versions dht source _ b rfl
  | call dht c =>
    cases c with
    | validate writing =>
      have hrun : ((Call.validate writing : Call K S).run dht b).2 =
          (MutableBlock.validate dht writing b).2 := by
        simp only [Call.run, Bind.bind, Op.bind]
        split <;> simp_all
      refine (congrArg versions hrun).trans ?_
      unfold MutableBlock.validate
      split_ifs
      · rfl
      · cases b._validate dht writing <;> cases b <;> rfl
    | data d => cases b <;> rfl
    | transform f =>
      cases b with
      | okb b =>
        obtain ⟨hversion, hnext⟩ := okb_transform_versions (b._decrypt_data dht) f b
        exact Prod.ext hversion hnext
      | acb b =>
        exact Prod.ext rfl (okb_transform_versions (b._decrypt_data dht) f b.toOKB).2
    | set_permissions k r w =>
      cases b with
      | okb b => rfl
      | acb b => exact acb_versions (ACB.steady_of_frame (ACB.set_permissions_frame dht k r w b))
    | set_group_permissions k r w =>
      cases b with
      | okb b => rfl
      | acb b =>
        exact acb_versions (ACB.steady_of_frame (ACB.set_group_permissions_frame dht k r w b))
    | set_world_permissions r w =>
      cases b with
      | okb b => rfl
      | acb b =>
        change (acb (ACB._set_world_permissions r w b)).versions = _
        unfold ACB._set_world_permissions
        split_ifs <;> rfl
    | clone => rfl
    | «seal» version secret => cases hc

/-! ## What a seal changes -/

omit [DecidableEq K] in
theorem okb_sealed {version : Option Int} {b b' : OKB K H}
    (h : OKB._seal dht version b = (.ok (), b')) :
    b'.next_seal_version = (b.taken version).next_seal_version ∧
      (∀ w, b.asked version = some w → b'.version = w) ∧
      (b.asked version = none → b.version ≤ b'.version) := by
  have hokb : ∀ (v : Option Int) (m m' : OKB K H),
      OKB._seal_okb dht OKB._sign v true m = (.ok (), m') →
        m'.next_seal_version = m.next_seal_version ∧ m'.version = v.getD (m.version + 1) := by
    intro v m m' hm
    simp only [OKB._seal_okb, Op.bind_of_ok (Op.modify_apply _ m), Op.bind_of_ok (Op.get_apply _),
      if_true] at hm
    split_ifs at hm
    · cases hm
    · cases hm
      exact ⟨rfl, rfl⟩
    · cases hm
      exact ⟨rfl, rfl⟩
  obtain ⟨-, hversion, -, -⟩ := OKB.taken_fields version b
  unfold OKB._seal at h
  rw [Op.bind_of_ok (OKB.take_eq version b), Op.bind_of_ok (Op.get_apply _)] at h
  split_ifs at h with hdata hasked
  · rw [Op.bind_of_ok (Op.modify_apply _ _)] at h
    obtain ⟨_, m, hm, h⟩ := Op.bind_eq_ok h
    obtain ⟨hnext, hv⟩ := hokb _ _ _ hm
    cases h
    refine ⟨hnext, fun w hw => ?_, fun hnone => ?_⟩
    · simp [hv, hw]
    · simp only [hv, hnone, Option.getD_none, hversion]
      omega
  · obtain ⟨hnext, hv⟩ := hokb _ _ _ h
    refine ⟨hnext, fun w hw => ?_, fun hnone => ?_⟩
    · simp [hv, hw]
    · simp [hnone] at hasked
  · cases h
    refine ⟨rfl, fun w hw => ?_, fun _ => ?_⟩
    · simp [hw] at hasked
    · omega

theorem acb_sealed {version : Option Int} {b b' : ACB K H}
    (h : ACB._seal dht version secret b = (.ok (), b')) :
    b'.next_seal_version = (b.taken version).next_seal_version ∧
      (∀ w, b.asked version = some w → b'.data_version = w) ∧
      (b.asked version = none → b.data_version ≤ b'.data_version) := by
  have htake : ACB.on_okb (OKB.take_seal_version version) b =
      (.ok (b.asked version), b.taken version) := by
    simp only [ACB.on_okb, OKB.take_eq]
    rfl
  have hnext : b'.next_seal_version = (b.taken version).next_seal_version := by
    have haside := ACB.seal_aside dht secret htake
    rw [h] at haside
    exact congrArg (·.next_seal_version) haside
  obtain ⟨m₁, k₂, m₂, k₃, m₃, m₄, h₁, h₂, h₃, h₄, h₅⟩ := ACB.seal_steps htake h
  have hversion₁ : m₁.data_version = b.data_version := by
    have hframe := ACB.enforce_frame dht (b.taken version)
    rw [h₁] at hframe
    exact congrArg (·.data_version) hframe
  have hversion₂ : m₁.data_version ≤ m₂.data_version := by
    unfold ACB.rights_step at h₂
    split_ifs at h₂
    · obtain ⟨-, -, sig, hm, -⟩ := ACB.seal_acl_ok h₂
      rw [hm]
      dsimp only
      split_ifs <;> omega
    · cases h₂
      omega
  have hversion₃ : m₂.data_version ≤ m₃.data_version := by
    unfold ACB.data_step at h₃
    split_ifs at h₃
    · obtain ⟨users, author, groups, gv, author', -, -, hm, -⟩ := ACB.seal_data_ok h₃
      rw [hm]
      simp only [ACB.with_data]
      omega
    · cases h₃
      omega
  have hversion₄ : (∀ w, b.asked version = some w → m₄.data_version = w) ∧
      (b.asked version = none → m₄.data_version = m₃.data_version) := by
    unfold ACB.author_step at h₄
    split_ifs at h₄ with hany
    · obtain ⟨author, k, sig, -, -, hm, -⟩ := ACB.seal_author_ok h₄
      rw [hm]
      constructor
      · intro w hw
        simp [hw]
      · intro hnone
        simp [hnone]
    · cases h₄
      refine ⟨fun w hw => ?_, fun _ => rfl⟩
      simp [hw] at hany
  have hversion₅ := ACB.restart_version dht m₄
  rw [h₅] at hversion₅
  dsimp only at hversion₅
  refine ⟨hnext, fun w hw => ?_, fun hnone => ?_⟩
  · rw [hversion₅]
    exact hversion₄.1 w hw
  · have heq := hversion₄.2 hnone
    omega

theorem sealed_base {version : Option Int} (h : _seal dht version secret b = (.ok (), b')) :
    ∃ o : OKB K H, o.next_seal_version = b.next_seal_version ∧
      b'.next_seal_version = (o.taken version).next_seal_version ∧
      (∀ w, o.asked version = some w → b'.version = w) ∧
      (o.asked version = none → b.version ≤ b'.version) := by
  cases b with
  | okb b =>
    simp only [_seal, on_both, Prod.mk.injEq] at h
    obtain ⟨hok, rfl⟩ := h
    exact ⟨b, rfl, okb_sealed (Prod.ext hok rfl)⟩
  | acb b =>
    simp only [_seal, on_both, Prod.mk.injEq] at h
    obtain ⟨hok, rfl⟩ := h
    exact ⟨b.toOKB, rfl, acb_sealed (Prod.ext hok rfl)⟩

theorem sealed_at (h : _seal dht (some w) secret b = (.ok (), b')) :
    b'.version = w ∧ b'.next_seal_version = b.next_seal_version := by
  obtain ⟨o, hb, hnext, hversion, -⟩ := sealed_base h
  rw [OKB.taken_of_some, hb] at hnext
  exact ⟨hversion w rfl, hnext⟩

omit [DecidableEq K] in
theorem taken_pending {b : OKB K H} (hb : b.next_seal_version = some v) (hv : v ≠ 0) :
    b.asked none = some v ∧ (b.taken none).next_seal_version = none := by
  simp [OKB.taken, OKB.asked, hb, hv]

omit [DecidableEq K] in
theorem taken_none {b : OKB K H} (hb : b.next_seal_version = none) :
    b.asked none = none ∧ (b.taken none).next_seal_version = none := by
  simp [OKB.taken, OKB.asked, hb]

theorem sealed_pending (hb : b.next_seal_version = some v) (hv : v ≠ 0)
    (h : _seal dht none secret b = (.ok (), b')) :
    b'.version = v ∧ b'.next_seal_version = none := by
  obtain ⟨o, ho, hnext, hversion, -⟩ := sealed_base h
  obtain ⟨hasked, htaken⟩ := taken_pending (ho.trans hb) hv
  exact ⟨hversion v hasked, hnext.trans htaken⟩

theorem sealed_none (hb : b.next_seal_version = none)
    (h : _seal dht none secret b = (.ok (), b')) :
    b.version ≤ b'.version ∧ b'.next_seal_version = none := by
  obtain ⟨o, ho, hnext, -, hversion⟩ := sealed_base h
  obtain ⟨hasked, htaken⟩ := taken_none (ho.trans hb)
  exact ⟨hversion hasked, hnext.trans htaken⟩

/-! ## The block that is resolved -/

variable {p : Int} {c : Change K S H}

/-- A block is on its way beyond a version: it is to be sealed at the next one, or it was sealed
above it. -/
def Fresh (p : Int) (b : MutableBlock K H) : Prop :=
  b.next_seal_version = some (p + 1) ∨ b.next_seal_version = none ∧ p < b.version

omit [DecidableEq K] in
theorem fresh_set (p : Int) (b : MutableBlock K H) : Fresh p (b.set_seal_version (p + 1)) := by
  left
  cases b <;> simp [set_seal_version, next_seal_version, ACB.set_seal_version]

theorem Fresh.sealed (h : Fresh p b) (hp : p ≠ -1)
    (hs : _seal dht none secret b = (.ok (), b')) :
    b'.next_seal_version = none ∧ p < b'.version := by
  rcases h with hnext | ⟨hnext, hlt⟩
  · obtain ⟨hversion, hnext'⟩ := sealed_pending hnext (by omega) hs
    exact ⟨hnext', by omega⟩
  · obtain ⟨hversion, hnext'⟩ := sealed_none hnext hs
    exact ⟨hnext', by omega⟩

omit [DecidableEq K] in
theorem seals_some {version : Option Int} (h : c.seals = some version) :
    ∃ dht secret, c = .call dht (.seal version secret) := by
  cases c with
  | group dht pairs new_key action => cases h
  | copy_permissions dht source => cases h
  | call dht call =>
    cases call with
    | «seal» version' secret =>
      obtain rfl : version' = version := Option.some.inj h
      exact ⟨dht, secret, rfl⟩
    | _ => cases h

theorem Fresh.change [DecidableEq H] (h : Fresh p b) (hp : p ≠ -1) (hc : Rises b c)
    (hs : change b c = some b') : Fresh p b' := by
  unfold MutableBlock.change at hs
  split_ifs at hs with hok
  rw [not_and, not_not] at hok
  obtain rfl := Option.some.inj hs
  cases hseals : c.seals with
  | none =>
    have hversions := c.run_versions hseals b
    rw [versions, versions, Prod.mk.injEq] at hversions
    rw [Fresh, hversions.1, hversions.2]
    exact h
  | some version =>
    have hrun : c.run b = (.ok (), (c.run b).2) := Prod.ext (hok (by simp [hseals])) rfl
    obtain ⟨dht, secret, rfl⟩ := seals_some hseals
    cases version with
    | none => exact Or.inr (h.sealed hp hrun)
    | some w =>
      obtain ⟨hversion, hnext⟩ := sealed_at hrun
      have hlt := hc w hseals
      rcases h with hset | ⟨hset, hlt'⟩
      · exact Or.inl (hnext.trans hset)
      · exact Or.inr ⟨hnext.trans hset, by omega⟩

theorem Fresh.made [DecidableEq H] (h : Fresh p b) (hp : p ≠ -1)
    (hm : Made (S := S) Rises b b') : Fresh p b' := by
  obtain ⟨changes, hrun⟩ := hm
  exact hrun.invariant h fun _ _ _ h hc hs => h.change hp hc hs

/-! ## The resolvers -/

variable {ok : MutableBlock K H → Change K S H → Prop}

theorem Made.refl [DecidableEq H] (b : MutableBlock K H) : Made ok b b := ⟨[], Run.nil⟩

theorem Made.single [DecidableEq H] (hok : ok b c) (hs : MutableBlock.change b c = some b') :
    Made ok b b' :=
  ⟨[c], Run.snoc Run.nil hok hs⟩

theorem Made.trans [DecidableEq H] (h : Made ok b m) (h' : Made ok m b') : Made ok b b' := by
  obtain ⟨changes, hrun⟩ := h
  obtain ⟨changes', hrun'⟩ := h'
  exact ⟨changes ++ changes', hrun.append hrun'⟩

theorem dummy_public [DecidableEq H] (dht : Dht K S H) (secret : S) :
    (DummyConflictResolver dht secret).Public (Rises (S := S)) := by
  constructor
  · intro s r s' h
    simp only [DummyConflictResolver] at h
    split at h
    · split_ifs at h
      · cases h
        exact Made.refl _
      · cases h
    · cases h
  · intro s r s' h
    simp only [DummyConflictResolver] at h
    split at h
    · rename_i sealed hsealed
      split_ifs at h
      · cases h
        right
        apply Made.single (c := .call dht (.seal (some (s.2.version + 1)) secret))
        · intro w hw
          obtain rfl : s.2.version + 1 = w := Option.some.inj (Option.some.inj hw)
          omega
        · have hrun : (Change.call dht (.seal (some (s.2.version + 1)) secret)).run s.2 =
              (.ok (), sealed) := hsealed
          simp [MutableBlock.change, hrun, clone]
      · cases h
    · cases h

theorem group_public [DecidableEq H] (dht : Dht K S H) (pairs : KeyPairs K) (new_key : K)
    (action : GroupAction K) :
    (GroupConflictResolver dht pairs new_key action).Public (Rises (S := S)) := by
  constructor <;> intro s r s' h <;> simp only [GroupConflictResolver, clone] at h <;> split at h
  · cases h
  · split at h
    · split at h
      · cases h
        exact Made.refl _
      · cases h
    · cases h
  · cases h
  · rename_i acb hacb
    split at h
    · split at h
      · rename_i res hres
        cases h
        right
        apply Made.single (c := .group dht pairs new_key action)
        · exact nofun
        · have hrun : (Change.group dht pairs new_key action).run s.2 = (.ok (), .acb res) := by
            rw [hacb]
            simp only [Change.run, on_acb, hres]
          simp [MutableBlock.change, hrun]
      · cases h
    · cases h

theorem merge_rest_public [DecidableEq H] {resolvers : List (Resolver K H)}
    (hall : ∀ f ∈ resolvers, f.Public ok)
    {res r : Option (MutableBlock K H)} {s s' : MutableBlock K H × MutableBlock K H}
    (h : merge_rest resolvers res s = (.ok r, s')) :
    Made ok s.1 s'.1 ∧ ∀ b, r = some b → Made ok s.1 b ∨ ∃ q, res = some q ∧ Made ok q b := by
  induction resolvers generalizing res s with
  | nil =>
    cases h
    exact ⟨Made.refl _, fun b hb => Or.inr ⟨b, hb, Made.refl b⟩⟩
  | cons f resolvers ih =>
    cases res with
    | none => cases h
    | some q =>
      simp only [merge_rest] at h
      split at h
      · rename_i res' block' current' hf
        obtain ⟨hblock, hresolved⟩ := hall f (by simp)
        obtain ⟨hrest, hmade⟩ := ih (fun f hf => hall f (by simp [hf])) h
        have hfirst := hblock _ _ _ hf
        refine ⟨hfirst.trans hrest, fun b hb => ?_⟩
        rcases hmade b hb with hb | ⟨q', rfl, hb⟩
        · exact Or.inl (hfirst.trans hb)
        · rcases hresolved _ _ _ hf with hq | hq
          · exact Or.inl (hq.trans hb)
          · exact Or.inr ⟨q, rfl, hq.trans hb⟩
      · cases h

theorem merge_public [DecidableEq H] {resolvers : List (Resolver K H)}
    (hall : ∀ f ∈ resolvers, f.Public ok) : (MergeConflictResolver resolvers).Public ok := by
  have hmerge : ∀ s r s', MergeConflictResolver resolvers s = (.ok r, s') →
      Made ok s.1 s'.1 ∧ ∀ b, r = some b → Made ok s.1 b ∨ Made ok s.2 b := by
    intro s r s' h
    cases resolvers with
    | nil => cases h
    | cons f resolvers =>
      simp only [MergeConflictResolver] at h
      split at h
      · rename_i res t hf
        obtain ⟨hblock, hresolved⟩ := hall f (by simp)
        obtain ⟨hrest, hmade⟩ := merge_rest_public (fun f hf => hall f (by simp [hf])) h
        have hfirst := hblock _ _ _ hf
        refine ⟨hfirst.trans hrest, fun b hb => ?_⟩
        rcases hmade b hb with hb | ⟨q, rfl, hb⟩
        · exact Or.inl (hfirst.trans hb)
        · exact (hresolved _ _ _ hf).imp (·.trans hb) (·.trans hb)
      · cases h
  exact ⟨fun s r s' h => (hmerge s r s' h).1, fun s r s' h => (hmerge s _ s' h).2 r rfl⟩

/-! ## The next version -/

theorem Resolver.Public.fresh [DecidableEq H] {f : Resolver K H} (hf : f.Public (Rises (S := S)))
    (hp : p ≠ -1)
    {newest : MutableBlock K H} (hb : Fresh p b) (hnewest : Fresh p newest)
    (h : resolve b newest (some f) = .ok (some b')) : Fresh p b' := by
  unfold resolve at h
  split_ifs at h
  · cases h
  simp only at h
  split at h
  · rename_i resolved hresolved
    obtain rfl : resolved = b' := Option.some.inj (Except.ok.inj h)
    rcases hf.resolved (b, newest) resolved _ (Prod.ext hresolved rfl) with hmade | hmade
    · exact hb.made hp hmade
    · exact hnewest.made hp hmade
  · cases h
  · cases h

/-- After a conflict a store runs Paxos for a version above the one that was decided, whatever the
version that is written in the blocks, if the resolver seals at no version that is not above that
of its block. -/
theorem next_version_is_fresh [DecidableEq H] (dht : Dht K S H) (secret : S) (b : MutableBlock K H)
    {p : Int}
    (hp : p ≠ -1) {resolver : Option (Resolver K H)}
    (hr : ∀ f, resolver = some f → f.Public (Rises (S := S))) (chosen : Chosen K H)
    (h : next_block dht secret b p resolver chosen = .ok (some b')) : p < b'.version := by
  cases chosen with
  | quorum =>
    simp only [next_block] at h
    split at h
    · rename_i sealed hsealed
      obtain rfl : sealed = b' := Option.some.inj (Except.ok.inj h)
      obtain ⟨hversion, -⟩ := sealed_at hsealed
      omega
    · cases h
  | block block =>
    simp only [next_block] at h
    split at h
    · cases h
    · cases h
    · rename_i resolved hresolved
      split at h
      · rename_i sealed hsealed
        obtain rfl : sealed = b' := Option.some.inj (Except.ok.inj h)
        have hfresh : Fresh p resolved := by
          cases resolver with
          | none =>
            simp only [resolve] at hresolved
            split_ifs at hresolved
            cases hresolved
          | some f => exact (hr f rfl).fresh hp (fresh_set p b) (fresh_set p block) hresolved
        exact (hfresh.sealed hp hsealed).2
      · cases h

/-! ## Runs of a resolver -/

/-- The version of the next block. -/
def next_version (r : Except Failure (Option (MutableBlock K H))) : Option Int :=
  r.toOption.join.map version

omit [DecidableEq K] in
theorem next_version_some {r : Except Failure (Option (MutableBlock K H))}
    (h : next_version r = some v) : ∃ b, r = .ok (some b) ∧ b.version = v := by
  obtain ⟨b, hb, hv⟩ := Option.map_eq_some_iff.mp h
  refine ⟨b, ?_, hv⟩
  cases r with
  | error e => cases hb
  | ok r => exact congrArg Except.ok hb

end MutableBlock

end

namespace MutableBlock

/-- A stored block of the user 1. -/
def owned (version : Int) (data : Buffer) : MutableBlock UInt8 UInt8 :=
  .okb { (edited []).toOKB with data, version, data_changed := false, owner_private_key := true }

/-- A decision at the version 5 on a block of the version 2, after some on quorums. The merged
resolvers take the current block. -/
theorem a_merge_moves_on : (5 : Int) ≠ -1 ∧
    ∃ b', next_block (member 1) 0 (owned 2 [7]) 5 (some (MergeConflictResolver
      [DummyConflictResolver (member 1) 0, DummyConflictResolver (member 1) 0]))
        (.block (owned 2 [8])) = .ok (some b') ∧ b'.version = 6 ∧ 5 < b'.version := by
  obtain ⟨b', hb', hversion⟩ := next_version_some (r := next_block (member 1) (0 : UInt8)
    (owned 2 [7]) 5 (some (MergeConflictResolver
      [DummyConflictResolver (member 1) 0, DummyConflictResolver (member 1) 0]))
        (.block (owned 2 [8]))) (v := 6) (by decide +kernel)
  refine ⟨by decide, b', hb', hversion,
    next_version_is_fresh (member 1) 0 (owned 2 [7]) (by decide) ?_ _ hb'⟩
  intro f hf
  rw [← Option.some.inj hf]
  apply merge_public
  intro f hf
  simp only [List.mem_cons, List.not_mem_nil, or_false, or_self] at hf
  exact hf ▸ dummy_public (member 1) 0

/-- A resolver that seals the current block, and then again at a version of its own. -/
def lowers : Resolver UInt8 UInt8 := fun s =>
  match _seal (member 1) none 0 s.2 with
  | (.ok (), current) =>
    match _seal (member 1) (some 1) 0 current with
    | (.ok (), current) => (.ok (some current.clone), s.1, current)
    | (.error e, current) => (.error e, s.1, current)
  | (.error e, current) => (.error e, s.1, current)

theorem lowers_public : lowers.Public (anyStep (S := MutableBlock UInt8 UInt8)
    (A := Change UInt8 UInt8 UInt8)) := by
  constructor
  · intro s r s' h
    simp only [lowers] at h
    split at h
    · split at h
      · cases h
        exact Made.refl _
      · cases h
    · cases h
  · intro s r s' h
    simp only [lowers] at h
    split at h
    · rename_i first hfirst
      split at h
      · rename_i second hsecond
        cases h
        right
        have hmade : Made (S := UInt8) anyStep s.2 first := by
          apply Made.single (c := .call (member 1) (.seal none 0)) trivial
          have hrun : (Change.call (member 1) (.seal none 0)).run s.2 = (.ok (), first) := hfirst
          simp [MutableBlock.change, hrun]
        apply hmade.trans
        apply Made.single (c := .call (member 1) (.seal (some 1) 0)) trivial
        have hrun : (Change.call (member 1) (.seal (some 1) 0)).run first = (.ok (), second) :=
          hsecond
        simp [MutableBlock.change, hrun, clone]
      · cases h
    · cases h

/-- A resolver that returns a clone of the current block. -/
def takes_current : Resolver UInt8 UInt8 := fun s => (.ok (some s.2.clone), s)

theorem takes_current_public : takes_current.Public (Rises (S := UInt8)) := by
  constructor
  · intro s r s' h
    cases h
    exact Made.refl _
  · intro s r s' h
    cases h
    exact Or.inr (Made.refl _)

/-- A resolver that seals twice may go back to the version 1 after a decision at 3; and after a
decision at -1 the version to seal at is 0, which stands for none. -/
theorem a_resolver_may_go_back :
    (¬∀ (dht : Dht UInt8 UInt8 UInt8) (secret : UInt8) (b b' : MutableBlock UInt8 UInt8) (p : Int)
        (resolver : Option (Resolver UInt8 UInt8)) (chosen : Chosen UInt8 UInt8), 0 ≤ p →
          (∀ f, resolver = some f → f.Public (anyStep (A := Change UInt8 UInt8 UInt8))) →
            next_block dht secret b p resolver chosen = .ok (some b') → p < b'.version) ∧
      ¬∀ (dht : Dht UInt8 UInt8 UInt8) (secret : UInt8) (b b' : MutableBlock UInt8 UInt8) (p : Int)
        (resolver : Option (Resolver UInt8 UInt8)) (chosen : Chosen UInt8 UInt8),
          (∀ f, resolver = some f → f.Public (Rises (S := UInt8))) →
            next_block dht secret b p resolver chosen = .ok (some b') → p < b'.version := by
  constructor
  · intro h
    obtain ⟨b', hb', hversion⟩ := next_version_some (r := next_block (member 1) (0 : UInt8)
      (owned 2 [7]) 3 (some lowers) (.block (owned 2 [8]))) (v := 1) (by decide +kernel)
    have hlt := h (member 1) 0 (owned 2 [7]) b' 3 (some lowers) (.block (owned 2 [8])) (by omega)
      (fun f hf => Option.some.inj hf ▸ lowers_public) hb'
    omega
  · intro h
    obtain ⟨b', hb', hversion⟩ := next_version_some (r := next_block (member 1) (0 : UInt8)
      (owned (-1) [7]) (-1) (some takes_current) (.block (owned (-1) [8]))) (v := -1)
        (by decide +kernel)
    have hlt := h (member 1) 0 (owned (-1) [7]) b' (-1) (some takes_current)
      (.block (owned (-1) [8])) (fun f hf => Option.some.inj hf ▸ takes_current_public) hb'
    omega

end MutableBlock

end memo
