-- The check of a named block or a user block against the one that is stored. Both were read from
-- their binary form, each with its own copy of the key of its owner.
import Memo.BlockFormat

open ops codec elle.binary

namespace memo.overwrites

/-! ## The blocks -/

/-- A `std::shared_ptr`: the address of an object, and the object. -/
structure Shared (K : Type) where
  address : Nat
  value : K
deriving DecidableEq

/-- `operator ==` of pointers. -/
def Shared.same {K : Type} (p q : Shared K) : Bool := p.address = q.address

structure NB (K : Type) where
  address : Address Digest
  data : Buffer
  owner : Address Digest
  _owner : Shared K
  _name : Buffer
  _signature : Buffer
deriving DecidableEq

structure UB (K P : Type) where
  address : Address Digest
  data : Buffer
  owner : Address Digest
  _name : Buffer
  _key : K
  _reverse : Bool
  _passport : Option P
deriving DecidableEq

/-- A block. Of the other kinds there is the address. -/
inductive AnyBlock (K P : Type) where
  | nb (b : NB K)
  | ub (b : UB K P)
  | other (address : Address Digest)
deriving DecidableEq

variable {K P : Type}

namespace AnyBlock

def address : AnyBlock K P → Address Digest
  | nb b => b.address
  | ub b => b.address
  | other a => a

/-- `_validate` of a stored block, by the block that is to replace it. -/
def _validate [DecidableEq K] : AnyBlock K P → AnyBlock K P → ValidationResult
  | nb b, new_block =>
    match new_block with
    | nb new =>
      if b._name = new._name ∧ b._owner.same new._owner ∧ b.data = new.data then .success
      else .failure "NB overwrite denied"
    | _ => .failure "NB overwrite denied"
  | ub b, new_block =>
    match new_block with
    | ub new =>
      if b._name = new._name ∧ b._key = new._key ∧ b._reverse = new._reverse then .success
      else .failure "UB overwrite denied"
    | _ => .failure "UB overwrite denied"
  | other a, new_block =>
    if a = new_block.address then .success else .failure "Addresses do not match"

end AnyBlock

/-! ## The binary form -/

section

variable (der : Der K) (f : Format K) (passport : Codec Error P)

/-- `NB::_serialize`, after `Block::serialize`. -/
def NB.serialize (b : NB K) : Bytes :=
  f.put_tag f.version ++ Block.serialize.put (b.address, b.data, b.owner) ++
    (f.public_key der).put b._owner.value ++ buffer.put b._name ++ buffer.put b._signature

/-- The constructor that reads a block. `make_shared` puts the key at an address of its own, the
next one of those that were not used. -/
def NB.deserialize (next : Nat) : Op Bytes Error (NB K × Nat) := do
  let _ ← f.get_tag f.version
  let base ← Block.serialize.get
  let owner_key ← (f.public_key der).get
  let _name ← buffer.get
  let _signature ← buffer.get
  pure (⟨base.1, base.2.1, base.2.2, ⟨next, owner_key⟩, _name, _signature⟩, next + 1)

/-- `UB::_serialize`, after `Block::serialize`. -/
def UB.serialize (b : UB K P) : Bytes :=
  f.put_tag f.version ++ Block.serialize.put (b.address, b.data, b.owner) ++
    buffer.put b._name ++ (f.public_key der).put b._key ++ bool.put b._reverse ++
    if (⟨0, 5, 0⟩ : elle.Version) ≤ f.version then (option passport).put b._passport else []

def UB.deserialize : Op Bytes Error (UB K P) := do
  let version ← f.get_tag f.version
  let base ← Block.serialize.get
  let _name ← buffer.get
  let _key ← (f.public_key der).get
  let _reverse ← bool.get
  let _passport ← (if (⟨0, 5, 0⟩ : elle.Version) ≤ version then (option passport).get
    else pure none : Op Bytes Error (Option P))
  pure ⟨base.1, base.2.1, base.2.2, _name, _key, _reverse, _passport⟩

/-- The names of the kinds of blocks. -/
def NB.type : Buffer := [78, 66]

def UB.type : Buffer := [85, 66]

/-- A block behind the name of its kind. -/
def AnyBlock.serialize (other : AnyBlock K P → Bytes) : AnyBlock K P → Bytes
  | nb b => buffer.put NB.type ++ b.serialize der f
  | ub b => buffer.put UB.type ++ b.serialize der f passport
  | b => other b

/-- A block, by the name of its kind. `other` reads the address of one of another kind, and throws
where there is no such kind. -/
def AnyBlock.deserialize (other : Buffer → Op Bytes Error (Address Digest)) (next : Nat) :
    Op Bytes Error (AnyBlock K P × Nat) := do
  let type ← buffer.get
  if type = NB.type then do
    let b ← NB.deserialize der f next
    pure (nb b.1, b.2)
  else if type = UB.type then do
    let b ← UB.deserialize der f passport
    pure (ub b, next)
  else do
    let a ← other type
    pure (AnyBlock.other a, next)

end

/-! ## Reading -/

section

variable {der : Der K} {f : Format K} {passport : Codec Error P}
  {others : Buffer → Op Bytes Error (Address Digest)} {next next' : Nat} {s r : Bytes}

theorem NB.deserialize_owner {b : NB K}
    (h : NB.deserialize der f next s = (.ok (b, next'), r)) :
    b._owner.address = next ∧ next' = next + 1 := by
  unfold NB.deserialize at h
  obtain ⟨_, _, -, h⟩ := Op.bind_eq_ok h
  obtain ⟨_, _, -, h⟩ := Op.bind_eq_ok h
  obtain ⟨_, _, -, h⟩ := Op.bind_eq_ok h
  obtain ⟨_, _, -, h⟩ := Op.bind_eq_ok h
  obtain ⟨_, _, -, h⟩ := Op.bind_eq_ok h
  cases h
  exact ⟨rfl, rfl⟩

theorem AnyBlock.deserialize_owner {b : AnyBlock K P}
    (h : AnyBlock.deserialize der f passport others next s = (.ok (b, next'), r)) :
    next ≤ next' ∧ ∀ x, b = nb x → next ≤ x._owner.address ∧ x._owner.address < next' := by
  unfold AnyBlock.deserialize at h
  obtain ⟨type, _, -, h⟩ := Op.bind_eq_ok h
  split_ifs at h
  · obtain ⟨⟨x, n⟩, _, hread, h⟩ := Op.bind_eq_ok h
    cases h
    obtain ⟨howner, rfl⟩ := NB.deserialize_owner hread
    refine ⟨Nat.le_succ _, fun y hy => ?_⟩
    cases hy
    exact ⟨howner.ge, howner.trans_lt (Nat.lt_succ_self _)⟩
  · obtain ⟨x, _, -, h⟩ := Op.bind_eq_ok h
    cases h
    exact ⟨Nat.le_refl _, nofun⟩
  · obtain ⟨a, _, -, h⟩ := Op.bind_eq_ok h
    cases h
    exact ⟨Nat.le_refl _, nofun⟩

end

/-! ## Overwriting a block -/

variable [DecidableEq K]

/-- The two are named blocks with the key of the same owner, and one name and data. -/
def SameNB (b b' : AnyBlock K P) : Prop :=
  ∃ x y, b = .nb x ∧ b' = .nb y ∧ x._owner.value = y._owner.value ∧ x._name = y._name ∧
    x.data = y.data

def SameUB (b b' : AnyBlock K P) : Prop :=
  ∃ x y, b = .ub x ∧ b' = .ub y ∧ x._name = y._name ∧ x._key = y._key ∧ x._reverse = y._reverse

/-- `Paxos::LocalPeer::store` of a block where the other one is stored does not fail for the
overwrite. -/
def Replayable (A R : Type) [LinearOrder A] [Inhabited A] (b b' : AnyBlock K P) : Prop :=
  ∀ (model : Model (AnyBlock K P) A R) (self : LocalPeer (AnyBlock K P) A) (mode : StoreMode),
    model.validate_next = AnyBlock._validate → model.validate b' = .success →
    model.immutable b' = true → self.storage (model.address b') = some (.block b) →
    ∀ reason, (LocalPeer.store model b' mode self).1 ≠ .error (.validation_failed reason)

/-- A block is overwritten exactly by itself, and so an insertion can be done again. -/
def Overwritten (A R : Type) [LinearOrder A] [Inhabited A] (b b' : AnyBlock K P) : Prop :=
  (b._validate b' = .success ↔ SameNB b b' ∨ SameUB b b') ∧
    (SameNB b b' ∨ SameUB b b' → Replayable A R b b')

theorem validate_nb {x y : NB K} (h : x._owner.address ≠ y._owner.address) :
    (AnyBlock.nb x : AnyBlock K P)._validate (.nb y) ≠ .success := by
  unfold AnyBlock._validate Shared.same
  simp [h]

theorem validate_ub_iff {x : UB K P} {b' : AnyBlock K P} :
    (AnyBlock.ub x)._validate b' = .success ↔ SameUB (.ub x) b' := by
  unfold AnyBlock._validate SameUB
  cases b' with
  | nb y => simp
  | ub y =>
    dsimp only
    split_ifs with hsame
    · simp [hsame]
    · simp [hsame]
  | other a => simp

theorem replayable_of_success {A R : Type} [LinearOrder A] [Inhabited A] {b b' : AnyBlock K P}
    (h : b._validate b' = .success) : Replayable A R b b' := by
  intro model self mode hnext hvalid himmutable hstored reason
  have hchecked : LocalPeer.validate model b' self = (.ok (), self) := by
    unfold LocalPeer.validate
    rw [hvalid]
    rfl
  have hset : LocalPeer.store model b' mode self =
      LocalPeer.set_storage (model.address b') (.block b') (mode == .insert) (mode == .update)
        self := by
    unfold LocalPeer.store
    rw [Op.bind_of_ok hchecked]
    simp [himmutable, hstored, hnext, h, Bind.bind, Op.bind]
  rw [hset]
  unfold LocalPeer.set_storage
  cases mode <;> simp [hstored, Bind.bind, Op.bind, Op.throw]

section

variable {der : Der K} {f : Format K} {passport : Codec Error P}
  {others : Buffer → Op Bytes Error (Address Digest)} {n n₁ n' n₁' : Nat} {s r s' r' : Bytes}
  {b b' : AnyBlock K P} (A R : Type) [LinearOrder A] [Inhabited A]

/-- Of two blocks that were read one after the other, the first a named block or a user block, the
first is overwritten exactly by itself when and only when the two are not named blocks of one
owner, name and data. -/
theorem overwritten_iff
    (h : AnyBlock.deserialize der f passport others n s = (.ok (b, n₁), r))
    (h' : AnyBlock.deserialize der f passport others n' s' = (.ok (b', n₁'), r'))
    (hafter : n₁ ≤ n' ∨ n₁' ≤ n) (hkind : ∀ a, b ≠ .other a) :
    Overwritten A R b b' ↔ ¬SameNB b b' := by
  constructor
  · rintro hover ⟨x, y, rfl, rfl, hsame⟩
    have hx := (AnyBlock.deserialize_owner h).2 x rfl
    have hy := (AnyBlock.deserialize_owner h').2 y rfl
    have hne : x._owner.address ≠ y._owner.address := by omega
    exact validate_nb hne (hover.1.mpr (.inl ⟨x, y, rfl, rfl, hsame⟩))
  · intro hno
    have hiff : b._validate b' = .success ↔ SameNB b b' ∨ SameUB b b' := by
      cases b with
      | nb x =>
        have hub : ¬SameUB (.nb x) b' := by
          rintro ⟨u, v, heq, -⟩
          cases heq
        simp only [hno, hub, or_self, iff_false]
        intro hsuccess
        cases b' with
        | nb y =>
          have hx := (AnyBlock.deserialize_owner h).2 x rfl
          have hy := (AnyBlock.deserialize_owner h').2 y rfl
          have hne : x._owner.address ≠ y._owner.address := by omega
          exact validate_nb hne hsuccess
        | ub y => cases hsuccess
        | other a => cases hsuccess
      | ub x => rw [validate_ub_iff, or_iff_right hno]
      | other a => exact absurd rfl (hkind a)
    exact ⟨hiff, fun hsame => replayable_of_success (hiff.mpr hsame)⟩

end

/-- A user block, and a named block, of the user whose key is one byte. A flag is a passport. -/
def a_user : UB UInt8 Bool :=
  ⟨⟨⟨List.replicate 31 7, rfl⟩, 1⟩, [1], Address.null, [97], 5, false, none⟩

def a_name : NB UInt8 := ⟨⟨⟨List.replicate 31 9, rfl⟩, 1⟩, [1, 2], Address.null, ⟨0, 5⟩, [98], [3]⟩

def no_other (_ : Buffer) : Op Bytes Error (Address Digest) := Op.throw (.error "unknown type")

def user_bytes : Bytes := (AnyBlock.ub a_user).serialize byte_der Format.bare bool fun _ => []

def name_bytes : Bytes :=
  (AnyBlock.nb a_name : AnyBlock UInt8 Bool).serialize byte_der Format.bare bool fun _ => []

/-- The user block is read twice. -/
theorem a_user_is_overwritten_by_itself :
    SameUB (AnyBlock.ub a_user) (.ub a_user) ∧
      (AnyBlock.ub a_user)._validate (.ub a_user) = .success := by
  have hread : ∀ n, AnyBlock.deserialize byte_der Format.bare bool no_other n user_bytes =
      (.ok (AnyBlock.ub a_user, n), []) := by
    intro n
    rfl
  have hsame : SameUB (AnyBlock.ub a_user) (.ub a_user) := ⟨a_user, a_user, rfl, rfl, rfl, rfl, rfl⟩
  have hno : ¬SameNB (AnyBlock.ub a_user) (.ub a_user) := by
    rintro ⟨x, y, heq, -⟩
    cases heq
  have hover := (overwritten_iff Nat Unit (hread 0) (hread 3) (.inl (Nat.zero_le _)) nofun).mpr hno
  exact ⟨hsame, hover.1.mpr (.inr hsame)⟩

/-- A peer that takes all blocks, and has the named block at the address 0. -/
def any_model : Model (AnyBlock UInt8 Bool) Nat Unit where
  address _ := 0
  immutable _ := true
  mutable_block _ := false
  validate _ := .success
  validate_next := AnyBlock._validate
  validate_remove _ _ := .success

def storing (b : AnyBlock UInt8 Bool) : LocalPeer (AnyBlock UInt8 Bool) Nat where
  id := 0
  version := ⟨0, 8, 0⟩
  factor := 1
  rebalance_auto_expand := false
  max_addresses_size := 1
  storage a := if a = 0 then some (.block b) else none
  addresses := []
  quorums _ := none
  node_blocks := ∅

/-- The named block is read twice, and its insertion is done again. -/
theorem a_named_block_is_denied_by_itself : ∃ b b' : AnyBlock UInt8 Bool,
    AnyBlock.deserialize byte_der Format.bare bool no_other 0 name_bytes = (.ok (b, 1), []) ∧
      AnyBlock.deserialize byte_der Format.bare bool no_other 1 name_bytes = (.ok (b', 2), []) ∧
      SameNB b b' ∧ b._validate b' = .failure "NB overwrite denied" ∧
      (LocalPeer.store any_model b' .insert (storing b)).1 =
        .error (.validation_failed "NB overwrite denied") :=
  ⟨.nb { a_name with _owner := ⟨0, 5⟩ }, .nb { a_name with _owner := ⟨1, 5⟩ }, rfl, rfl,
    ⟨_, _, rfl, rfl, rfl, rfl, rfl⟩, rfl, rfl⟩

end memo.overwrites
