-- The edits of a group, as `GB.cc` and `Group.cc` have them: each one is applied to the block at
-- hand, sealed, and replayed by its resolver on the blocks that others got decided. The rights, the
-- admins, the keys of the group and its description all follow the order of the decided blocks.
import Memo.GroupChains
import Memo.Replays

open ops runs

namespace memo

section

variable {K S H : Type} [DecidableEq K] {dht : Dht K S H} {b b' m : ACB K H}

/-- A user, or a group, by its key. The name tells which: `@` for a group, `#` when it is not
known. -/
structure User (K : Type) where
  key : K
  name : String
deriving DecidableEq

/-- How key pairs are serialized: those of a group, and the private key of a control key. -/
structure KeyPairs (K : Type) where
  serialize : List K → Buffer
  deserialize : Buffer → Except String (List K)
  private_key : K → Buffer

/-! ## Group blocks -/

namespace ACB

/-- Those who have an admin key. -/
def admins (b : ACB K H) : List K :=
  match b.group_part with
  | some part => part.admin_keys.map Prod.fst
  | none => []

def description (b : ACB K H) : Option String := b.group_part.bind (·.description)

/-- A change of what a group block has more. -/
def with_part (f : GroupPart K → GroupPart K) (b : ACB K H) : ACB K H :=
  { b with group_part := b.group_part.map f }

/-- The admin key of the node opens to the private key of the owner. -/
def admin_key_opens (dht : Dht K S H) (pairs : KeyPairs K) (b : ACB K H) : Bool :=
  match b.group_part.bind fun part => part.admin_keys.find? (·.1 = dht.keys) with
  | some (_, key) =>
    match dht.ciphers.decrypt false dht.keys key with
    | .ok opened => decide (opened = pairs.private_key b.owner_key)
    | .error _ => false
  | none => false

/-- A group block as a node gets it: an admin has the private key of the owner. -/
def group_fetched (dht : Dht K S H) (pairs : KeyPairs K) (b : ACB K H) : ACB K H :=
  { b.fetched dht with
    owner_private_key := decide (b.owner_key = dht.keys) || b.admin_key_opens dht pairs }

/-- `ACLEntry::operator ==`. -/
def entry_equal (a e : ACLEntry K) : Bool :=
  decide (a.key = e.key) && a.read == e.read && a.write && e.write && decide (a.token = e.token)

def entries_equal : List (ACLEntry K) → List (ACLEntry K) → Bool
  | [], [] => true
  | a :: as, e :: es => entry_equal a e && entries_equal as es
  | _, _ => false

/-- `operator ==`, with those of OKB and of `Block`. -/
def equal [DecidableEq H] (b that : ACB K H) : Bool :=
  decide (b.editor = that.editor) && decide (b.owner_token = that.owner_token) &&
    entries_equal b.acl_entries that.acl_entries && decide (b.data_version = that.data_version) &&
    b.world_readable == that.world_readable && b.world_writable == that.world_writable &&
    b.deleted == that.deleted && decide (b.salt = that.salt) &&
    decide (b.owner_key = that.owner_key) && decide (b.address = that.address) &&
    decide (b.data = that.data)

/-- `_set_permissions`. -/
def set_user_permissions (dht : Dht K S H) (user : User K) (read write : Bool) :
    Op (ACB K H) Failure Unit :=
  if user.key ∈ dht.admin_keys.r ∨ user.key ∈ dht.admin_keys.w then
    Op.throw (.error "Cannot change permissions of network admin")
  else if user.key ∈ dht.admin_keys.group_r ∨ user.key ∈ dht.admin_keys.group_w then
    Op.throw (.error "Cannot change permissions of network admin group")
  else do
    (if user.name.toList.head? = some '#' then do
      (if !read && !write then set_group_permissions dht user.key read write else pure () :
        Op (ACB K H) Failure Unit)
      set_permissions dht user.key read write
    else pure () : Op (ACB K H) Failure Unit)
    (if user.name.toList.head? = some '@' then set_group_permissions dht user.key read write
    else set_permissions dht user.key read write : Op (ACB K H) Failure Unit)

end ACB

namespace GB

/-- `_extract_keys`. -/
def _extract_keys (dht : Dht K S H) (pairs : KeyPairs K) : Op (ACB K H) Failure (List K) := do
  let data ← ACB.read_data dht
  Op.ofExcept (raised (pairs.deserialize data))

def add_member (dht : Dht K S H) (user : User K) : Op (ACB K H) Failure Unit := do
  ACB.set_user_permissions dht user true false
  Op.modify fun b => { b with acl_changed := true }

/-- `remove_member`. A new key pair is for those who stay. -/
def remove_member (dht : Dht K S H) (pairs : KeyPairs K) (new_key : K) (user : User K) :
    Op (ACB K H) Failure Unit := do
  ACB.set_user_permissions dht user false false
  Op.modify fun b => { b with acl_changed := true }
  let keys ← _extract_keys dht pairs
  Op.modify (ACB.with_part fun part => { part with public_keys := part.public_keys ++ [new_key] })
  ACB.set_data (pairs.serialize (keys ++ [new_key]))

/-- `add_admin`. Without the private key of the owner, a null pointer is read. -/
def add_admin (dht : Dht K S H) (pairs : KeyPairs K) (user : User K) :
    Op (ACB K H) Failure Unit := do
  let b ← Op.get
  if user.key ∈ b.admins then pure ()
  else if !b.owner_private_key then Op.throw .null_pointer
  else do
    let key := dht.ciphers.encrypt false user.key (pairs.private_key b.owner_key)
    Op.modify (ACB.with_part fun part =>
      { part with admin_keys := part.admin_keys ++ [(user.key, key)] })
    Op.modify fun b => { b with acl_changed := true }

def remove_admin (dht : Dht K S H) (user : User K) : Op (ACB K H) Failure Unit := do
  let b ← Op.get
  if user.key ∈ b.admins then do
    Op.modify (ACB.with_part fun part =>
      { part with admin_keys := part.admin_keys.eraseP (·.1 = user.key) })
    Op.modify fun b => { b with acl_changed := true }
  else Op.throw (.error ("no such admin: " ++ dht.ciphers.show_key user.key))

/-- `description(description)`. -/
def set_description (dht : Dht K S H) (description : Option String) :
    Op (ACB K H) Failure Unit :=
  if dht.version < ⟨0, 8, 0⟩ then
    Op.throw (.error "description is only supported in version 0.8.0 or later")
  else do
    Op.modify (ACB.with_part fun part => { part with description })
    Op.modify fun b => { b with acl_changed := true }

end GB

/-- `GroupConflictResolver::Action`, with what it is done with. -/
inductive GroupAction (K : Type) where
  | add_member (user : User K)
  | remove_member (user : User K)
  | add_admin (user : User K)
  | remove_admin (user : User K)
  | set_description (description : Option String)
deriving DecidableEq

def GroupAction.run (dht : Dht K S H) (pairs : KeyPairs K) (new_key : K) :
    GroupAction K → Op (ACB K H) Failure Unit
  | .add_member user => GB.add_member dht user
  | .remove_member user => GB.remove_member dht pairs new_key user
  | .add_admin user => GB.add_admin dht pairs user
  | .remove_admin user => GB.remove_admin dht user
  | .set_description description => GB.set_description dht description

/-- What an edit draws: the next key pair of the group, and the secret of new data. -/
structure Drawn (K S : Type) where
  new_key : K
  secret : S

/-- `GroupConflictResolver::operator()` and the seal of what it resolved, by `Paxos::_store`. The
block is to be sealed after the one that was decided. -/
def resolve (dht : Dht K S H) (pairs : KeyPairs K) (action : GroupAction K) (drawn : Drawn K S)
    (current : ACB K H) : Except Failure (ACB K H) :=
  let res : ACB K H := { current with next_seal_version := some (current.data_version + 1) }
  match (do action.run dht pairs drawn.new_key; ACB._seal dht none drawn.secret :
    Op (ACB K H) Failure Unit) res with
  | (.ok (), res) => .ok res
  | (.error e, _) => .error e

/-- The edits of a group: `Group::add_member` and the others, with `Model::seal_and_update`, and
what `Paxos::_store` does of a conflict. -/
def group_editing [DecidableEq H] {N : Type} (net : N → Dht K S H) (pairs : KeyPairs K) :
    replays.Editing N (GroupAction K) (Drawn K S) (ACB K H) Failure where
  version b := b.data_version
  view n b := b.group_fetched (net n) pairs
  same := ACB.equal
  edit a := do
    a.edit.run (net a.node) pairs a.drawn.new_key
    ACB._seal (net a.node) none a.drawn.secret
  replay a := resolve (net a.node) pairs a.edit a.drawn

/-! ## What a group says -/

/-- What the edits are about: the rights of the users and of the groups, the admins, the keys of
the group and its description. -/
structure Content (K : Type) where
  owner : K
  members : List (K × Bool × Bool)
  groups : List (K × Bool × Bool)
  admins : List K
  public_keys : List K
  description : Option String

def ACB.content (b : ACB K H) : Content K :=
  ⟨b.owner_key, permissions b.acl_entries, permissions b.acl_group_entries, b.admins,
    b.public_keys, b.description⟩

/-- A right that is set, changed or taken. -/
def permit (key : K) (read write : Bool) : List (K × Bool × Bool) → List (K × Bool × Bool)
  | [] => if read || write then [(key, read, write)] else []
  | p :: l =>
    if p.1 = key then (if read || write then (key, read, write) :: l else l)
    else p :: permit key read write l

namespace Content

def permit_user (key : K) (read write : Bool) (c : Content K) : Content K :=
  { c with members := permit key read write c.members }

def permit_group (key : K) (read write : Bool) (c : Content K) : Content K :=
  { c with groups := permit key read write c.groups }

/-- A user whose kind is not known is taken for a user, and removed as both. -/
def permit_named (user : User K) (read write : Bool) (c : Content K) : Content K :=
  let c := if user.name.toList.head? = some '#' then
      (if !read && !write then c.permit_group user.key read write else c).permit_user user.key
        read write
    else c
  if user.name.toList.head? = some '@' then c.permit_group user.key read write
  else c.permit_user user.key read write

/-- The rights of the admins of the network. -/
def enforce (aks : AdminKeys K) (c : Content K) : Content K :=
  let others (keys : List K) : List K := keys.filter (· ≠ c.owner)
  let c := (others aks.r).foldl (fun c k => c.permit_user k true false) c
  let c := (others aks.w).foldl (fun c k => c.permit_user k true true) c
  let c := (others aks.group_r).foldl (fun c k => c.permit_group k true false) c
  (others aks.group_w).foldl (fun c k => c.permit_group k true true) c

end Content

/-- What an edit does to a group. -/
def GroupAction.apply (new_key : K) (c : Content K) : GroupAction K → Content K
  | .add_member user => c.permit_named user true false
  | .remove_member user =>
    { c.permit_named user false false with public_keys := c.public_keys ++ [new_key] }
  | .add_admin user =>
    if user.key ∈ c.admins then c else { c with admins := c.admins ++ [user.key] }
  | .remove_admin user => { c with admins := c.admins.erase user.key }
  | .set_description description => { c with description }

/-- What an edit does when its block is sealed. -/
def apply_edit {N : Type} (net : N → Dht K S H)
    (a : replays.Attempt N (GroupAction K) (Drawn K S)) (c : Content K) : Content K :=
  (a.edit.apply a.drawn.new_key c).enforce (net a.node).admin_keys

/-- The key pairs that the owner reads in the block are those of its public keys. -/
def ACB.StoresKeys (c : Ciphers K S H) (pairs : KeyPairs K) (b : ACB K H) : Prop :=
  ∃ secret key plain, c.decrypt b.use_encrypt b.owner_key b.owner_token = .ok secret ∧
    secret ≠ [] ∧ c.secret_of b.use_encrypt secret = .ok key ∧
    (if b.world_readable then b.data = plain else c.decipher key b.data = .ok plain) ∧
    pairs.deserialize plain = .ok b.public_keys

/-- A block that stores the key pairs of its public keys, or will, once it is sealed. -/
structure ACB.HoldsKeys (c : Ciphers K S H) (pairs : KeyPairs K) (b : ACB K H) : Prop where
  part : b.group_part.isSome = true
  stored : b.data_changed = false → b.StoresKeys c pairs ∧ b.data ≠ []
  hand : b.data_decrypted = true → pairs.deserialize b.data_plain = .ok b.public_keys
  changed : b.data_changed = true → b.data_decrypted = true ∧ b.data_plain ≠ []

/-- Key pairs are read back as they were written. -/
structure KeyPairs.Lawful (pairs : KeyPairs K) : Prop where
  back : ∀ keys, pairs.deserialize (pairs.serialize keys) = .ok keys
  filled : ∀ keys, pairs.serialize keys ≠ []

/-! ## Rights -/

namespace ACB

theorem permit_none {key : K} {read write : Bool} {es : List (ACLEntry K)}
    (h : find_entry key es = none) : permit key read write (permissions es) =
      if read || write then permissions es ++ [(key, read, write)] else permissions es := by
  induction es with
  | nil => rfl
  | cons e es ih =>
    simp only [find_entry] at h
    split at h
    · cases h
    next hne =>
      have hrest := ih (Option.map_eq_none_iff.mp h)
      simp only [permissions, List.map_cons, permit, if_neg hne] at hrest ⊢
      rw [hrest]
      split <;> simp

theorem permit_some {key : K} {read write : Bool} {es : List (ACLEntry K)} {i : Nat}
    {e : ACLEntry K} (h : find_entry key es = some (i, e)) :
    permit key read write (permissions es) =
      if read || write then permissions (es.set i { e with read, write })
      else permissions (es.eraseIdx i) := by
  induction es generalizing i with
  | nil => cases h
  | cons a es ih =>
    simp only [find_entry] at h
    split at h
    next heq =>
      cases h
      simp only [permissions, List.map_cons, permit, if_pos heq]
      split <;> simp [heq]
    next hne =>
      obtain ⟨⟨j, e'⟩, hj, hp⟩ := Option.map_eq_some_iff.mp h
      cases hp
      have hrest := ih hj
      simp only [permissions, List.map_cons, permit, if_neg hne] at hrest ⊢
      rw [hrest]
      split <;> simp

theorem not_neither {read write : Bool} (h : ¬ (!read && !write) = true) :
    (read || write) = true := by
  cases read <;> cases write <;> simp_all

theorem set_permissions_content {key : K} {read write : Bool}
    (h : set_permissions dht key read write b = (.ok (), b')) :
    b'.content = b.content.permit_user key read write ∧ b'.frame = b.frame := by
  have hframe := set_permissions_frame dht key read write b
  rw [h] at hframe
  refine ⟨?_, hframe⟩
  unfold set_permissions at h
  simp only [content, Content.permit_user]
  split at h
  · cases h
  split at h
  next hf =>
    rw [permit_none hf]
    split at h
    next hno =>
      cases h
      rw [if_neg (by revert hno; cases read <;> cases write <;> decide)]
    next hsome =>
      rw [if_pos (not_neither hsome)]
      split at h
      · cases h
      · cases h
        simp [permissions, admins, public_keys, description]
  next i e hf =>
    rw [permit_some hf]
    split at h
    next hno =>
      cases h
      rw [if_neg (by revert hno; cases read <;> cases write <;> decide)]
      rfl
    next hsome =>
      cases h
      rw [if_pos (not_neither hsome)]
      rfl

theorem set_group_permissions_content {key : K} {read write : Bool}
    (h : set_group_permissions dht key read write b = (.ok (), b')) :
    b'.content = b.content.permit_group key read write ∧ b'.frame = b.frame := by
  have hframe := set_group_permissions_frame dht key read write b
  rw [h] at hframe
  refine ⟨?_, hframe⟩
  unfold set_group_permissions at h
  simp only [content, Content.permit_group]
  split at h
  next hf =>
    rw [permit_none hf]
    split at h
    next hno =>
      cases h
      rw [if_neg (by revert hno; cases read <;> cases write <;> decide)]
    next hsome =>
      rw [if_pos (not_neither hsome)]
      split at h
      · cases h
      · dsimp only at h
        split at h
        · cases h
        · cases h
          simp [permissions, admins, public_keys, description]
  next i e hf =>
    rw [permit_some hf]
    split at h
    next hno =>
      split at h
      · cases h
        rw [if_neg (by revert hno; cases read <;> cases write <;> decide)]
        rfl
      · cases h
    next hsome =>
      cases h
      rw [if_pos (not_neither hsome)]
      rfl

omit [DecidableEq K] in
theorem each_content {α : Type} {f : α → Op (ACB K H) Failure Unit}
    {g : Content K → α → Content K} {l : List α}
    (hf : ∀ a b b', f a b = (.ok (), b') → b'.content = g b.content a ∧ b'.frame = b.frame)
    (h : each f l b = (.ok (), b')) :
    b'.content = l.foldl g b.content ∧ b'.frame = b.frame := by
  induction l generalizing b with
  | nil =>
    cases h
    exact ⟨rfl, rfl⟩
  | cons a l ih =>
    unfold each at h
    obtain ⟨_, m, hm, h⟩ := Op.bind_eq_ok h
    have hone := hf a b m hm
    obtain ⟨hcontent, hframe⟩ := ih h
    rw [hcontent, hframe, hone.1, hone.2]
    exact ⟨rfl, rfl⟩

theorem enforce_content (h : enforce_admin_keys dht b = (.ok (), b')) :
    b'.content = b.content.enforce dht.admin_keys ∧ b'.frame = b.frame := by
  unfold enforce_admin_keys at h
  rw [Op.bind_of_ok (Op.get_apply b)] at h
  obtain ⟨_, m₁, h₁, h⟩ := Op.bind_eq_ok h
  obtain ⟨_, m₂, h₂, h⟩ := Op.bind_eq_ok h
  obtain ⟨_, m₃, h₃, h₄⟩ := Op.bind_eq_ok h
  have e₁ := each_content (g := fun c k => c.permit_user k true false)
    (fun _ _ _ => set_permissions_content) h₁
  have e₂ := each_content (g := fun c k => c.permit_user k true true)
    (fun _ _ _ => set_permissions_content) h₂
  have e₃ := each_content (g := fun c k => c.permit_group k true false)
    (fun _ _ _ => set_group_permissions_content) h₃
  have e₄ := each_content (g := fun c k => c.permit_group k true true)
    (fun _ _ _ => set_group_permissions_content) h₄
  refine ⟨?_, (((e₄.2.trans e₃.2).trans e₂.2).trans e₁.2)⟩
  rw [e₄.1, e₃.1, e₂.1, e₁.1]
  rfl

theorem set_user_permissions_content {user : User K} {read write : Bool}
    (h : set_user_permissions dht user read write b = (.ok (), b')) :
    b'.content = b.content.permit_named user read write ∧ b'.frame = b.frame := by
  unfold set_user_permissions at h
  split at h
  · cases h
  split at h
  · cases h
  obtain ⟨_, m, hm, h⟩ := Op.bind_eq_ok h
  have hfirst : m.content = (if user.name.toList.head? = some '#' then
        (if !read && !write then b.content.permit_group user.key read write
          else b.content).permit_user user.key read write
      else b.content) ∧ m.frame = b.frame := by
    split at hm
    next hunknown =>
      obtain ⟨_, m', hm', hm⟩ := Op.bind_eq_ok hm
      have hgroup : m'.content = (if !read && !write then b.content.permit_group user.key read write
          else b.content) ∧ m'.frame = b.frame := by
        split at hm'
        next hno =>
          rw [if_pos hno]
          exact set_group_permissions_content hm'
        next hsome =>
          cases hm'
          rw [if_neg hsome]
          exact ⟨rfl, rfl⟩
      have huser := set_permissions_content hm
      rw [huser.1, huser.2, hgroup.1, if_pos hunknown]
      exact ⟨rfl, hgroup.2⟩
    next hknown =>
      cases hm
      rw [if_neg hknown]
      exact ⟨rfl, rfl⟩
  unfold Content.permit_named
  rw [← hfirst.1]
  dsimp only
  split at h
  next hgroup =>
    rw [if_pos hgroup]
    have hset := set_group_permissions_content h
    exact ⟨hset.1, hset.2.trans hfirst.2⟩
  next huser =>
    rw [if_neg huser]
    have hset := set_permissions_content h
    exact ⟨hset.1, hset.2.trans hfirst.2⟩

/-! ## One edit -/

theorem read_data_eq (dht : Dht K S H) (b : ACB K H) : read_data dht b =
    match b.toOKB.decrypted (b._decrypt_data dht) with
    | .ok okb => (.ok okb.data_plain, { b with toOKB := okb })
    | .error e => (.error e, b) := by
  simp only [read_data, Op.bind_of_ok (Op.get_apply b), on_okb]
  cases b.toOKB.decrypted (b._decrypt_data dht) <;> rfl

theorem read_data_ok {data : Buffer} (h : read_data dht b = (.ok data, b')) :
    b' = { b with data_plain := data, data_decrypted := true } ∧
      (b.data_decrypted = true ∧ data = b.data_plain ∨
        b.data_decrypted = false ∧ b._decrypt_data dht = .ok data) := by
  rw [read_data_eq] at h
  unfold OKB.decrypted at h
  cases hd : b.data_decrypted with
  | true =>
    rw [hd] at h
    cases h
    refine ⟨?_, Or.inl ⟨rfl, rfl⟩⟩
    rw [← hd]
  | false =>
    rw [hd] at h
    cases hplain : b._decrypt_data dht with
    | error e =>
      rw [hplain] at h
      cases h
    | ok plain =>
      rw [hplain] at h
      cases h
      exact ⟨rfl, Or.inr ⟨rfl, rfl⟩⟩

/-- What no edit changes before it is sealed. -/
def steady (b : ACB K H) : Bool × Option Int × Int × Bool :=
  (b.owner_private_key, b.next_seal_version, b.data_version, b.world_readable)

omit [DecidableEq K] in
theorem steady_of_frame (h : b'.frame = b.frame) : b'.steady = b.steady :=
  (congrArg steady h : b'.frame.steady = b.frame.steady)

end ACB

theorem GroupAction.run_keeps (dht : Dht K S H) (pairs : KeyPairs K) (new_key : K)
    (action : GroupAction K) (t : Bool × Option Int × Int × Bool) :
    Op.Keeps (fun m : ACB K H => m.steady = t) (action.run dht pairs new_key) := by
  have hset : ∀ key read write, Op.Keeps (fun m : ACB K H => m.steady = t)
      (ACB.set_permissions dht key read write) := fun key read write m hm =>
    (ACB.steady_of_frame (ACB.set_permissions_frame dht key read write m)).trans hm
  have hgroup : ∀ key read write, Op.Keeps (fun m : ACB K H => m.steady = t)
      (ACB.set_group_permissions dht key read write) := fun key read write m hm =>
    (ACB.steady_of_frame (ACB.set_group_permissions_frame dht key read write m)).trans hm
  have huser : ∀ user read write, Op.Keeps (fun m : ACB K H => m.steady = t)
      (ACB.set_user_permissions dht user read write) := by
    intro user read write
    unfold ACB.set_user_permissions
    apply Op.Keeps.ite
    · exact Op.Keeps.throw _
    apply Op.Keeps.ite
    · exact Op.Keeps.throw _
    apply Op.Keeps.bind
    · apply Op.Keeps.ite
      · apply Op.Keeps.bind
        · exact Op.Keeps.ite (hgroup _ _ _) (Op.Keeps.pure ())
        · exact fun _ => hset _ _ _
      · exact Op.Keeps.pure ()
    · exact fun _ => Op.Keeps.ite (hgroup _ _ _) (hset _ _ _)
  have hmark : Op.Keeps (fun m : ACB K H => m.steady = t)
      (Op.modify (fun b => { b with acl_changed := true }) : Op (ACB K H) Failure Unit) :=
    Op.Keeps.modify fun _ hm => hm
  have hpart : ∀ f, Op.Keeps (fun m : ACB K H => m.steady = t)
      (Op.modify (ACB.with_part f) : Op (ACB K H) Failure Unit) :=
    fun f => Op.Keeps.modify fun _ hm => hm
  have hread : Op.Keeps (fun m : ACB K H => m.steady = t) (ACB.read_data dht) := by
    intro m hm
    rw [ACB.read_data_eq]
    unfold OKB.decrypted
    split
    next okb hokb =>
      split at hokb
      · cases hokb
        exact hm
      · cases hplain : m._decrypt_data dht with
        | error e =>
          rw [hplain] at hokb
          cases hokb
        | ok plain =>
          rw [hplain] at hokb
          cases hokb
          exact hm
    · exact hm
  cases action with
  | add_member user => exact Op.Keeps.bind (huser _ _ _) fun _ => hmark
  | remove_member user =>
    refine Op.Keeps.bind (huser _ _ _) fun _ => Op.Keeps.bind hmark fun _ => ?_
    refine Op.Keeps.bind (Op.Keeps.bind hread fun _ => Op.Keeps.ofExcept _) fun _ => ?_
    exact Op.Keeps.bind (hpart _) fun _ m hm => hm
  | add_admin user =>
    apply Op.Keeps.get_bind
    intro m _
    refine Op.Keeps.ite (Op.Keeps.pure ()) (Op.Keeps.ite (Op.Keeps.throw _) ?_)
    exact Op.Keeps.bind (hpart _) fun _ => hmark
  | remove_admin user =>
    apply Op.Keeps.get_bind
    intro m _
    exact Op.Keeps.ite (Op.Keeps.bind (hpart _) fun _ => hmark) (Op.Keeps.throw _)
  | set_description description =>
    exact Op.Keeps.ite (Op.Keeps.throw _) (Op.Keeps.bind (hpart _) fun _ => hmark)

theorem erase_admin (l : List (K × Buffer)) (key : K) :
    (l.eraseP (·.1 = key)).map Prod.fst = (l.map Prod.fst).erase key := by
  induction l with
  | nil => rfl
  | cons p l ih =>
    by_cases hp : p.1 = key
    · simp [hp]
    · simp [hp, ih]

section

variable {pairs : KeyPairs K} {new_key : K} {action : GroupAction K}

omit [DecidableEq K] in
theorem content_with_part {part : GroupPart K} (hp : b.group_part = some part)
    (f : GroupPart K → GroupPart K) : (b.with_part f).content =
      { b.content with admins := (f part).admin_keys.map Prod.fst
                       public_keys := (f part).public_keys
                       description := (f part).description } := by
  simp only [ACB.content, ACB.with_part, ACB.admins, ACB.public_keys, ACB.description, hp,
    Option.map_some, Option.bind_some]

theorem GroupAction.run_content (hp : b.group_part.isSome = true)
    (h : action.run dht pairs new_key b = (.ok (), m)) :
    m.content = action.apply new_key b.content ∧ (m = b ∨ m.acl_changed = true) := by
  obtain ⟨part, hpart⟩ := Option.isSome_iff_exists.mp hp
  have hadmins : b.content.admins = part.admin_keys.map Prod.fst := by
    simp only [ACB.content, ACB.admins, hpart]
  have hkeys : b.content.public_keys = part.public_keys := by
    simp only [ACB.content, ACB.public_keys, hpart]
  have hdescription : b.content.description = part.description := by
    simp only [ACB.content, ACB.description, hpart, Option.bind_some]
  cases action with
  | add_member user =>
    obtain ⟨_, m', hset, h⟩ := Op.bind_eq_ok h
    cases h
    exact ⟨(ACB.set_user_permissions_content hset).1, Or.inr rfl⟩
  | remove_member user =>
    obtain ⟨_, m', hset, h⟩ := Op.bind_eq_ok h
    obtain ⟨hcontent, hframe⟩ := ACB.set_user_permissions_content hset
    have hpart' : m'.group_part = some part := by
      rw [← hpart]
      exact (congrArg (·.group_part) hframe : m'.frame.group_part = b.frame.group_part)
    rw [Op.bind_of_ok (Op.modify_apply _ m')] at h
    obtain ⟨keys, m'', hread, h⟩ := Op.bind_eq_ok h
    obtain ⟨data, m₁, hdata, hread⟩ := Op.bind_eq_ok hread
    obtain ⟨-, hm''⟩ := Op.ofExcept_eq_ok hread
    subst hm''
    obtain ⟨hm₁, -⟩ := ACB.read_data_ok hdata
    subst hm₁
    rw [Op.bind_of_ok (Op.modify_apply _ _)] at h
    cases h
    refine ⟨(content_with_part hpart' _).trans ?_, Or.inr rfl⟩
    have hsame : m'.content.admins = part.admin_keys.map Prod.fst ∧
        m'.content.description = part.description := by
      simp only [ACB.content, ACB.admins, ACB.description, hpart', Option.bind_some, and_self]
    rw [hcontent] at hsame
    simp only [GroupAction.apply, hkeys, ← hsame.1, ← hsame.2, ← hcontent]
  | add_admin user =>
    simp only [GroupAction.run, GB.add_admin, Op.bind_of_ok (Op.get_apply b)] at h
    simp only [GroupAction.apply, hadmins]
    have hmem : b.admins = part.admin_keys.map Prod.fst := hadmins
    rw [← hmem]
    split at h
    next hin =>
      cases h
      rw [if_pos hin]
      exact ⟨rfl, Or.inl rfl⟩
    next hout =>
      rw [if_neg hout]
      split at h
      · cases h
      · rw [Op.bind_of_ok (Op.modify_apply _ b)] at h
        cases h
        refine ⟨(content_with_part hpart _).trans ?_, Or.inr rfl⟩
        simp only [List.map_append, List.map_cons, List.map_nil, ← hmem, ← hkeys,
          ← hdescription]
  | remove_admin user =>
    simp only [GroupAction.run, GB.remove_admin, Op.bind_of_ok (Op.get_apply b)] at h
    split at h
    · rw [Op.bind_of_ok (Op.modify_apply _ b)] at h
      cases h
      refine ⟨(content_with_part hpart _).trans ?_, Or.inr rfl⟩
      simp only [GroupAction.apply, erase_admin, ← hadmins, ← hkeys, ← hdescription]
    · cases h
  | set_description description =>
    simp only [GroupAction.run, GB.set_description] at h
    split at h
    · cases h
    · rw [Op.bind_of_ok (Op.modify_apply _ b)] at h
      cases h
      refine ⟨(content_with_part hpart _).trans ?_, Or.inr rfl⟩
      simp only [GroupAction.apply, ← hadmins, ← hkeys]

/-- What the stored key pairs depend on. -/
def ACB.keyed (b : ACB K H) :
    (Bool × K × Buffer × elle.Version × Buffer) × Bool × Bool × Buffer × Bool × List K × Bool :=
  (b.core, b.data_changed, b.data_decrypted, b.data_plain, b.world_readable, b.public_keys,
    b.group_part.isSome)

omit [DecidableEq K] in
theorem ACB.HoldsKeys.of_keyed {c : Ciphers K S H} (h : b.HoldsKeys c pairs)
    (hm : m.keyed = b.keyed) : m.HoldsKeys c pairs := by
  simp only [ACB.keyed, ACB.core, Prod.mk.injEq] at hm
  obtain ⟨⟨-, hkey, htoken, hversion, hdata⟩, hchanged, hdecrypted, hplain, hworld, hpublic,
    hpart⟩ := hm
  have huse : m.use_encrypt = b.use_encrypt := by rw [ACB.use_encrypt, hversion]; rfl
  refine ⟨hpart.trans h.part, ?_, ?_, ?_⟩
  · rw [hchanged, ACB.StoresKeys, huse, hkey, htoken, hworld, hdata, hpublic]
    exact h.stored
  · rw [hdecrypted, hplain, hpublic]
    exact h.hand
  · rw [hchanged, hdecrypted, hplain]
    exact h.changed

omit [DecidableEq K] in
theorem ACB.keyed_of_frame (h : b'.frame = b.frame) : b'.keyed = b.keyed :=
  (congrArg ACB.keyed h : b'.frame.keyed = b.frame.keyed)

theorem ACB.HoldsKeys.read {data : Buffer} (h : b.HoldsKeys dht.ciphers pairs)
    (ho : b.owner_private_key = true) (hr : ACB.read_data dht b = (.ok data, b')) :
    pairs.deserialize data = .ok b.public_keys := by
  rcases (ACB.read_data_ok hr).2 with ⟨hd, rfl⟩ | ⟨hd, hplain⟩
  · exact h.hand hd
  · have hchanged : b.data_changed = false := by
      cases hc : b.data_changed with
      | false => rfl
      | true =>
        rw [(h.changed hc).1] at hd
        cases hd
    obtain ⟨⟨secret, key, plain, htoken, hfilled, hkey, hcontent, hback⟩, -⟩ := h.stored hchanged
    have hsealed : ACB.Sealed dht b.world_readable b secret key plain :=
      ⟨htoken, hfilled, hkey, hcontent⟩
    rw [hsealed.decrypted ho rfl] at hplain
    cases hplain
    exact hback

omit [DecidableEq K] in
theorem ACB.HoldsKeys.with_part {c : Ciphers K S H} (h : b.HoldsKeys c pairs)
    {f : GroupPart K → GroupPart K} (hf : ∀ part, (f part).public_keys = part.public_keys) :
    ({ b.with_part f with acl_changed := true } : ACB K H).HoldsKeys c pairs := by
  obtain ⟨part, hpart⟩ := Option.isSome_iff_exists.mp h.part
  apply h.of_keyed
  simp only [ACB.keyed, ACB.with_part, ACB.core, ACB.public_keys, hpart, Option.map_some,
    Option.isSome_some, hf]

theorem GroupAction.run_keys (hpairs : pairs.Lawful) (ho : b.owner_private_key = true)
    (hk : b.HoldsKeys dht.ciphers pairs)
    (h : action.run dht pairs new_key b = (.ok (), m)) : m.HoldsKeys dht.ciphers pairs := by
  cases action with
  | add_member user =>
    obtain ⟨_, m', hset, h⟩ := Op.bind_eq_ok h
    cases h
    exact hk.of_keyed (ACB.keyed_of_frame (ACB.set_user_permissions_content hset).2)
  | remove_member user =>
    obtain ⟨_, m', hset, h⟩ := Op.bind_eq_ok h
    have hframe := (ACB.set_user_permissions_content hset).2
    have hk' := hk.of_keyed (ACB.keyed_of_frame hframe)
    have ho' : m'.owner_private_key = true :=
      (congrArg (·.1) (ACB.steady_of_frame hframe)).trans ho
    rw [Op.bind_of_ok (Op.modify_apply _ m')] at h
    obtain ⟨keys, m'', hread, h⟩ := Op.bind_eq_ok h
    obtain ⟨data, m₁, hdata, hread⟩ := Op.bind_eq_ok hread
    obtain ⟨hkeys, hm''⟩ := Op.ofExcept_eq_ok hread
    subst hm''
    have hmark : ({ m' with acl_changed := true } : ACB K H).HoldsKeys dht.ciphers pairs :=
      hk'.of_keyed rfl
    have hback := hmark.read ho' hdata
    rw [hback] at hkeys
    cases hkeys
    obtain ⟨hm₁, -⟩ := ACB.read_data_ok hdata
    subst hm₁
    rw [Op.bind_of_ok (Op.modify_apply _ _)] at h
    cases h
    have hpart' : m'.group_part.isSome = true := hk'.part
    obtain ⟨part', hpart'⟩ := Option.isSome_iff_exists.mp hpart'
    -- the new key pair goes after those that were read, as the new key does
    have hpublic : ∀ mm : ACB K H, mm.group_part = (m'.group_part.map fun part =>
        { part with public_keys := part.public_keys ++ [new_key] }) →
        mm.public_keys = m'.public_keys ++ [new_key] := by
      intro mm hmm
      simp only [ACB.public_keys, hmm, hpart', Option.map_some]
    refine ⟨?_, nofun, fun _ => ?_, fun _ => ⟨rfl, hpairs.filled _⟩⟩
    · exact (Option.isSome_map).trans hk'.part
    · exact (hpairs.back _).trans (congrArg Except.ok (hpublic _ rfl).symm)
  | add_admin user =>
    simp only [GroupAction.run, GB.add_admin, Op.bind_of_ok (Op.get_apply b)] at h
    split at h
    · cases h
      exact hk
    · split at h
      · cases h
      · rw [Op.bind_of_ok (Op.modify_apply _ b)] at h
        cases h
        exact hk.with_part fun _ => rfl
  | remove_admin user =>
    simp only [GroupAction.run, GB.remove_admin, Op.bind_of_ok (Op.get_apply b)] at h
    split at h
    · rw [Op.bind_of_ok (Op.modify_apply _ b)] at h
      cases h
      exact hk.with_part fun _ => rfl
    · cases h
  | set_description description =>
    simp only [GroupAction.run, GB.set_description] at h
    split at h
    · cases h
    · rw [Op.bind_of_ok (Op.modify_apply _ b)] at h
      cases h
      exact hk.with_part fun _ => rfl

end

/-! ## The seal of an edit -/

namespace ACB

/-- No version was set to seal the block at. -/
def Unset (b : ACB K H) : Prop := b.next_seal_version.getD 0 = 0

omit [DecidableEq K] in
theorem take_unset (b : ACB K H) : ∃ next v, on_okb (OKB.take_seal_version none) b =
    (.ok v, { b with next_seal_version := next }) ∧ next.getD 0 = 0 ∧
      (v = none ∨ v = b.next_seal_version ∧ v ≠ some 0) := by
  simp only [on_okb, OKB.take_seal_version, Op.bind_of_ok (Op.get_apply b.toOKB)]
  cases hn : b.next_seal_version with
  | none => exact ⟨none, none, by simp only [Op.pure_apply, ← hn], rfl, Or.inl rfl⟩
  | some v =>
    by_cases hv : v = 0
    · refine ⟨some v, none, ?_, hv, Or.inl rfl⟩
      simp only [if_neg (not_not.2 hv), Op.pure_apply, ← hn]
    · refine ⟨none, some v, ?_, rfl, Or.inr ⟨rfl, fun h => hv (Option.some.inj h)⟩⟩
      simp only [if_pos hv, Op.bind_of_ok (Op.modify_apply _ b.toOKB), Op.pure_apply]

theorem seal_unset (dht : Dht K S H) (key : S) (b : ACB K H) :
    Unset (_seal dht none key b).2 := by
  obtain ⟨next, v, htake, hnext, -⟩ := take_unset b
  have hkept : (_seal dht none key b).2.next_seal_version = next :=
    congrArg (·.next_seal_version) (seal_aside dht key htake)
  rw [Unset, hkept]
  exact hnext

omit [DecidableEq K] in
theorem restart_version (dht : Dht K S H) (b : ACB K H) :
    (restart_signatures dht b).2.data_version = b.data_version := by
  refine (?_ : Op.Keeps (fun m => m.data_version = b.data_version) (restart_signatures dht)) b rfl
  unfold restart_signatures
  apply Op.Keeps.bind
  · intro m hm
    unfold restart_data_signature
    split
    · split <;> exact hm
    · exact hm
  intro _
  apply Op.Keeps.get_bind
  intro m _
  apply Op.Keeps.ite
  · exact fun m hm => hm
  · exact Op.Keeps.pure ()

omit [DecidableEq K] in
theorem content_congr (hkey : b'.owner_key = b.owner_key) (hpart : b'.group_part = b.group_part)
    (husers : permissions b'.acl_entries = permissions b.acl_entries)
    (hgroups : permissions b'.acl_group_entries = permissions b.acl_group_entries) :
    b'.content = b.content := by
  simp only [content, admins, public_keys, description, hkey, hpart, husers, hgroups]

/-- What a seal makes of a group block: the rights of the admins of the network are there, only the
owner can have changed something, and the version is the next one at most, or the one that was
set. -/
theorem sealed_content {key : S} (h : _seal dht none key b = (.ok (), b')) :
    b'.content = b.content.enforce dht.admin_keys ∧
      (b.acl_changed = true → b.owner_private_key = true) ∧
      (∀ n, b.data_version + 1 ≤ n → (∀ w ∈ b.next_seal_version, w ≠ 0 → w ≤ n) →
        b'.data_version ≤ n) := by
  obtain ⟨next, v, htake, -, hv⟩ := take_unset b
  obtain ⟨m₁, k₂, m₂, k₃, m₃, m₄, h₁, h₂, h₃, h₄, h₅⟩ := seal_steps htake h
  have haside := seal_aside dht key htake
  rw [h] at haside
  obtain ⟨hcontent, hframe⟩ := enforce_content h₁
  have hversion : m₁.data_version = b.data_version := congrArg (·.data_version) hframe
  have howner : m₁.owner_private_key = b.owner_private_key :=
    congrArg (·.owner_private_key) hframe
  have e₂ : m₂.outer = m₁.outer ∧
      m₂.data_version ≤ m₁.data_version + (if m₁.data_changed then 0 else 1) ∧
      (m₁.acl_changed = true → m₁.owner_private_key = true) := by
    unfold rights_step at h₂
    split at h₂
    · obtain ⟨ho, -, sig, hm, -⟩ := seal_acl_ok h₂
      rw [hm]
      refine ⟨rfl, ?_, fun _ => ho⟩
      dsimp only
      split <;> omega
    next hno =>
      cases h₂
      refine ⟨rfl, ?_, fun hchanged => absurd hchanged hno⟩
      split <;> omega
  have e₃ : permissions m₃.acl_entries = permissions m₂.acl_entries ∧
      permissions m₃.acl_group_entries = permissions m₂.acl_group_entries ∧
      m₃.data_version ≤ m₁.data_version + 1 := by
    unfold data_step at h₃
    split at h₃
    next hchanged =>
      obtain ⟨users, author, groups, gv, author', hu, hg, hm, -⟩ := seal_data_ok h₃
      rw [hm]
      refine ⟨seal_users_rights hu, (seal_groups_ok hg).rights, ?_⟩
      have hle := e₂.2.1
      rw [if_pos hchanged] at hle
      simp only [with_data]
      omega
    next hno =>
      cases h₃
      refine ⟨rfl, rfl, ?_⟩
      have hle := e₂.2.1
      rwa [if_neg hno] at hle
  have e₄ : m₄.outer = m₃.outer ∧
      (m₄.data_version = m₃.data_version ∨ m₄.data_version = v.getD m₃.data_version) := by
    unfold author_step at h₄
    split at h₄
    · obtain ⟨author, k, sig, -, -, hm, -⟩ := seal_author_ok h₄
      rw [hm]
      exact ⟨rfl, Or.inr rfl⟩
    · cases h₄
      exact ⟨rfl, Or.inl rfl⟩
  have e₅ := (restart_same dht m₄).2
  have hlast := restart_version dht m₄
  rw [h₅] at e₅ hlast
  refine ⟨?_, ?_, ?_⟩
  · have hrights := hcontent
    simp only [outer, Prod.mk.injEq] at e₂ e₄ e₅
    refine (content_congr (b := m₁) ?_ ?_ ?_ ?_).trans hcontent
    · have hkey : b'.owner_key = b.owner_key := congrArg (·.owner_key) haside
      have hkey₁ : m₁.owner_key = b.owner_key := congrArg (·.owner_key) hframe
      exact hkey.trans hkey₁.symm
    · have hpart : b'.group_part = b.group_part := congrArg (·.group_part) haside
      have hpart₁ : m₁.group_part = b.group_part := congrArg (·.group_part) hframe
      exact hpart.trans hpart₁.symm
    · rw [e₅.2.1, e₄.1.2.1, e₃.1, e₂.1.2.1]
    · rw [e₅.2.2.1, e₄.1.2.2.1, e₃.2.1, e₂.1.2.2.1]
  · intro hchanged
    rw [← howner]
    apply e₂.2.2
    cases hm : m₁.acl_changed with
    | true => rfl
    | false =>
      have hsame := enforce_unchanged h₁ hm
      rw [hsame] at hm
      exact hm.symm.trans hchanged
  · intro n hn hw
    rw [hlast]
    rcases e₄.2 with heq | heq
    · omega
    · rcases hv with rfl | ⟨hset, hne⟩
      · rw [heq]
        dsimp only [Option.getD]
        omega
      · cases v with
        | none =>
          rw [heq]
          dsimp only [Option.getD]
          omega
        | some w =>
          rw [heq]
          exact hw w hset.symm fun h0 => hne (congrArg some h0)

theorem sealed_keys {key : S} {pairs : KeyPairs K} (hc : dht.ciphers.Inverse)
    (hfill : ∀ s d, dht.ciphers.encipher s d ≠ []) (hk : b.HoldsKeys dht.ciphers pairs)
    (h : _seal dht none key b = (.ok (), b')) :
    b'.HoldsKeys dht.ciphers pairs ∧ b'.data_changed = false := by
  obtain ⟨next, v, htake, -, hv⟩ := take_unset b
  obtain ⟨m₁, k₂, m₂, k₃, m₃, m₄, h₁, h₂, h₃, h₄, h₅⟩ := seal_steps htake h
  have haside := seal_aside dht key htake
  rw [h] at haside
  have hkeyed₁ : m₁.keyed = ({ b with next_seal_version := next } : ACB K H).keyed :=
    keyed_of_frame (enforce_content h₁).2
  have e₂ : m₂.keyed = m₁.keyed := rights_step_keeps h₂ fun _ _ _ => rfl
  have hk₂ := hk.of_keyed (e₂.trans hkeyed₁)
  have hchanged₂ : m₂.data_changed = m₁.data_changed := congrArg (·.2.1) e₂
  have e₃ : m₃.HoldsKeys dht.ciphers pairs ∧ m₃.data_changed = false := by
    unfold data_step at h₃
    split at h₃
    next hchanged =>
      obtain ⟨users, author, groups, gv, author', -, -, hm, -⟩ := seal_data_ok h₃
      obtain ⟨hdecrypted, hplain⟩ := hk₂.changed (hchanged₂.trans hchanged)
      subst hm
      refine ⟨⟨hk₂.part, fun _ => ⟨⟨_, key, m₂.data_plain, hc.decrypt_encrypt _ _ _,
        hc.secret_ne_nil _ _, hc.secret_of_buffer _ _, ?_, hk₂.hand hdecrypted⟩, ?_⟩, hk₂.hand,
        nofun⟩, rfl⟩
      · simp only [with_data]
        split
        · rfl
        · exact hc.decipher_encipher _ _
      · simp only [with_data]
        split
        · exact hplain
        · exact hfill _ _
    next hno =>
      cases h₃
      refine ⟨hk₂, ?_⟩
      rw [hchanged₂]
      exact Bool.not_eq_true _ ▸ hno
  have e₄ : m₄.keyed = m₃.keyed := author_step_keeps h₄ fun _ _ _ _ => rfl
  have e₅ : b'.keyed = m₄.keyed := by
    have hsame := restart_same dht m₄
    have hrest : (restart_signatures dht m₄).2.aside = m₄.aside := restart_aside m₄.aside m₄ rfl
    rw [h₅] at hsame hrest
    have hpart : b'.group_part = m₄.group_part := congrArg (·.group_part) hrest
    have hworld : b'.world_readable = m₄.world_readable := congrArg (·.world_readable) hrest
    have hinner := hsame.1
    simp only [inner, Prod.mk.injEq] at hinner
    obtain ⟨hcore, -, -, hdecrypted, hplain, hchanged⟩ := hinner
    simp only [keyed, public_keys, hcore, hchanged, hdecrypted, hplain, hworld, hpart]
  have hkeyed := e₅.trans e₄
  exact ⟨e₃.1.of_keyed hkeyed, (congrArg (·.2.1) hkeyed).trans e₃.2⟩

/-- A group block as it is stored. -/
structure GroupSound (c : Ciphers K S H) (pairs : KeyPairs K) (b : ACB K H) : Prop where
  keys : b.HoldsKeys c pairs
  unchanged : b.data_changed = false
  unset : b.Unset

theorem GroupSound.fetched {c : Ciphers K S H} {pairs : KeyPairs K} (h : b.GroupSound c pairs)
    (dht : Dht K S H) : (b.group_fetched dht pairs).HoldsKeys c pairs := by
  have hstored := h.keys.stored h.unchanged
  refine ⟨h.keys.part, fun _ => hstored, nofun, ?_⟩
  intro hchanged
  exact absurd (of_decide_eq_true hchanged) hstored.2

end ACB

theorem GroupAction.sealed {pairs : KeyPairs K} {new_key : K} {key : S} {action : GroupAction K}
    {m : ACB K H} (hc : dht.ciphers.Inverse) (hfill : ∀ s d, dht.ciphers.encipher s d ≠ [])
    (hpairs : pairs.Lawful) (hk : b.HoldsKeys dht.ciphers pairs)
    (hrun : action.run dht pairs new_key b = (.ok (), m))
    (hseal : ACB._seal dht none key m = (.ok (), b')) :
    b'.GroupSound dht.ciphers pairs ∧
      b'.content = (action.apply new_key b.content).enforce dht.admin_keys := by
  obtain ⟨hcontent, hchanged⟩ := GroupAction.run_content hk.part hrun
  obtain ⟨hsealed, howner, -⟩ := ACB.sealed_content hseal
  have hm : m.HoldsKeys dht.ciphers pairs := by
    rcases hchanged with rfl | hchanged
    · exact hk
    · -- a changed block is sealed by the owner alone, who can read the key pairs
      have hsteady := GroupAction.run_keeps dht pairs new_key action b.steady b rfl
      rw [hrun] at hsteady
      have ho : b.owner_private_key = true := (congrArg (·.1) hsteady).symm.trans (howner hchanged)
      exact GroupAction.run_keys hpairs ho hk hrun
  obtain ⟨hkeys, hunchanged⟩ := ACB.sealed_keys hc hfill hm hseal
  refine ⟨⟨hkeys, hunchanged, ?_⟩, ?_⟩
  · have hunset := ACB.seal_unset dht key m
    rwa [hseal] at hunset
  · rw [hsealed, hcontent]

theorem GroupAction.sealed_version {pairs : KeyPairs K} {new_key : K} {key : S}
    {action : GroupAction K} {m : ACB K H}
    (hrun : action.run dht pairs new_key b = (.ok (), m))
    (hseal : ACB._seal dht none key m = (.ok (), b')) {n : Int} (hn : b.data_version + 1 ≤ n)
    (hw : ∀ w ∈ b.next_seal_version, w ≠ 0 → w ≤ n) : b'.data_version ≤ n := by
  have hsteady := GroupAction.run_keeps dht pairs new_key action b.steady b rfl
  rw [hrun] at hsteady
  simp only [ACB.steady, Prod.mk.injEq] at hsteady
  apply (ACB.sealed_content hseal).2.2 n
  · rw [hsteady.2.2.1]
    exact hn
  · rw [hsteady.2.1]
    exact hw

theorem group_editing_lawful [DecidableEq H] {N : Type} {net : N → Dht K S H} {pairs : KeyPairs K}
    {c : Ciphers K S H} (hnet : ∀ n, (net n).ciphers = c) (hc : c.Inverse)
    (hfill : ∀ s d, c.encipher s d ≠ []) (hpairs : pairs.Lawful) :
    (group_editing net pairs).Lawful ACB.content (ACB.GroupSound c pairs) ACB.Unset
      (apply_edit net) := by
  refine ⟨fun _ _ h => h.unset, ?_, ?_, ?_, ?_⟩
  · intro a b hb
    have hsteady := GroupAction.run_keeps (net a.node) pairs a.drawn.new_key a.edit b.steady b rfl
    refine (?_ : ACB.Unset ((do
      a.edit.run (net a.node) pairs a.drawn.new_key
      ACB._seal (net a.node) none a.drawn.secret : Op (ACB K H) Failure Unit) b).2)
    cases hrun : a.edit.run (net a.node) pairs a.drawn.new_key b with
    | mk r m =>
      cases r with
      | ok u =>
        rw [Op.bind_of_ok hrun]
        exact ACB.seal_unset _ _ m
      | error e =>
        rw [Op.bind_of_error hrun]
        rw [hrun] at hsteady
        have hnext : m.next_seal_version = b.next_seal_version := congrArg (·.2.1) hsteady
        rw [ACB.Unset, hnext]
        exact hb
  · intro a b b' hb h
    obtain ⟨_, m, hrun, hseal⟩ := Op.bind_eq_ok h
    apply GroupAction.sealed_version hrun hseal (le_refl _)
    intro w hw hne
    rw [ACB.Unset, Option.mem_def.mp hw] at hb
    exact absurd hb hne
  · intro a b b' hb h
    obtain ⟨_, m, hrun, hseal⟩ := Op.bind_eq_ok h
    have hk := hb.keys
    rw [← hnet a.node] at hc hfill hk ⊢
    exact GroupAction.sealed hc hfill hpairs hk hrun hseal
  · intro a b b' hb h
    have hk := hb.fetched (net a.node)
    rw [← hnet a.node] at hc hfill hk ⊢
    have hnext : ({ b.group_fetched (net a.node) pairs with
        next_seal_version := some (b.data_version + 1) } : ACB K H).HoldsKeys (net a.node).ciphers
          pairs := hk.of_keyed rfl
    simp only [group_editing, resolve] at h
    split at h
    next res hres =>
      cases h
      obtain ⟨_, m, hrun, hseal⟩ := Op.bind_eq_ok hres
      obtain ⟨hsound, hcontent⟩ := GroupAction.sealed hc hfill hpairs hnext hrun hseal
      refine ⟨hsound, hcontent, GroupAction.sealed_version hrun hseal (le_refl _) ?_⟩
      intro w hw _
      cases hw
      exact le_refl _
    next => cases h

/-! ## The law -/

def GroupAction.removes : GroupAction K → Bool
  | .remove_member _ => true
  | _ => false

/-- How many of the edits remove a member. -/
def removals {N : Type} (edits : List (Nat × replays.Attempt N (GroupAction K) (Drawn K S))) :
    Nat :=
  edits.countP fun e => e.2.edit.removes

/-- What is true of a group all along: each decided block says what the edits that were decided so
far make of the first one, with the key pairs of the group, one more for each removal. An edit is
decided once, and it is exactly those that succeeded which were, when no answer is missing. -/
structure GroupSerial {N : Type} (net : N → Dht K S H) (pairs : KeyPairs K) (c : Ciphers K S H)
    (b : ACB K H) (s : replays.State N (GroupAction K) (Drawn K S) (ACB K H)) : Prop where
  content : ∀ k d, s.decided[k]? = some d → d.block.content =
    replays.replayed (apply_edit net) (replays.log (s.decided.take (k + 1))) b.content
  keys : ∀ d ∈ s.decided, d.block.StoresKeys c pairs
  growth : ∀ k d, s.decided[k]? = some d → d.block.public_keys.length =
    b.public_keys.length + removals (replays.log (s.decided.take (k + 1)))
  once : (replays.ids s).Nodup
  issued : ∀ e ∈ replays.log s.decided, s.issued[e.1]? = some (e.2.node, e.2.edit)
  succeeded : ∀ id ∈ s.succeeded, id ∈ replays.ids s
  failed : ∀ id ∈ s.failed, id ∉ replays.ids s
  answered : s.working = [] → (replays.ids s).Perm s.succeeded

theorem enforce_keeps_keys (aks : AdminKeys K) (c : Content K) :
    (c.enforce aks).public_keys = c.public_keys ∧ (c.enforce aks).admins = c.admins := by
  have hkeep : ∀ (f : Content K → K → Content K), (∀ c k, (f c k).public_keys = c.public_keys ∧
      (f c k).admins = c.admins) → ∀ (keys : List K) (c : Content K),
        (keys.foldl f c).public_keys = c.public_keys ∧ (keys.foldl f c).admins = c.admins := by
    intro f hf keys
    induction keys with
    | nil => exact fun _ => ⟨rfl, rfl⟩
    | cons k keys ih =>
      intro c
      have hrest := ih (f c k)
      exact ⟨hrest.1.trans (hf c k).1, hrest.2.trans (hf c k).2⟩
  have huser (write : Bool) := hkeep (fun c k => c.permit_user k true write) fun _ _ => ⟨rfl, rfl⟩
  have hgroup (write : Bool) :=
    hkeep (fun c k => c.permit_group k true write) fun _ _ => ⟨rfl, rfl⟩
  simp only [Content.enforce, hgroup, huser, and_self]

theorem permit_named_keys (user : User K) (read write : Bool) (c : Content K) :
    (c.permit_named user read write).public_keys = c.public_keys ∧
      (c.permit_named user read write).admins = c.admins := by
  unfold Content.permit_named
  dsimp only
  split_ifs <;> exact ⟨rfl, rfl⟩

theorem apply_edit_keys {N : Type} {net : N → Dht K S H}
    (a : replays.Attempt N (GroupAction K) (Drawn K S)) (c : Content K) :
    (apply_edit net a c).public_keys.length =
      c.public_keys.length + if a.edit.removes then 1 else 0 := by
  rw [apply_edit, (enforce_keeps_keys _ _).1]
  cases a.edit with
  | add_member user => exact congrArg List.length (permit_named_keys user true false c).1
  | remove_member user => exact List.length_append
  | add_admin user =>
    simp only [GroupAction.apply]
    split <;> rfl
  | remove_admin user => rfl
  | set_description description => rfl

theorem replayed_keys {N : Type} {net : N → Dht K S H}
    (edits : List (Nat × replays.Attempt N (GroupAction K) (Drawn K S))) (c : Content K) :
    (replays.replayed (apply_edit net) edits c).public_keys.length =
      c.public_keys.length + removals edits := by
  induction edits generalizing c with
  | nil => rfl
  | cons e edits ih =>
    have hrest := ih (apply_edit net e.2 c)
    rw [apply_edit_keys] at hrest
    simp only [removals, List.countP_cons] at hrest ⊢
    rw [replays.replayed, List.foldl_cons]
    rw [replays.replayed] at hrest
    omega

/-- Concurrent edits of a group follow the order in which they are decided, as long as who edits a
block at hand has one that is old or up to date, who is answered with its own block recognizes it,
and who takes another one for its own has nothing to change there. -/
theorem group_edits_are_serial [DecidableEq H] {N : Type} {net : N → Dht K S H} {pairs : KeyPairs K}
    {c : Ciphers K S H} (hnet : ∀ n, (net n).ciphers = c) (hc : c.Inverse)
    (hfill : ∀ s d, c.encipher s d ≠ []) (hpairs : pairs.Lawful) {b : ACB K H}
    (hb : b.GroupSound c pairs) {as : List (replays.Act N (GroupAction K) (Drawn K S))}
    {s : replays.State N (GroupAction K) (Drawn K S) (ACB K H)}
    (h : Run (replays.step (group_editing net pairs))
      (replays.Meets (group_editing net pairs) ACB.content (ACB.GroupSound c pairs)
        (apply_edit net)) (replays.start b) as s) :
    GroupSerial net pairs c b s := by
  have hserial := replays.Run.serial (group_editing_lawful hnet hc hfill hpairs) hb h
  have hcontent := fun k d hd => hserial.chained.replayed (k := k) (d := d) hd
  refine ⟨hcontent, ?_, ?_, hserial.once, hserial.issued, hserial.done, fun _ => hserial.refused,
    hserial.answered⟩
  · intro d hd
    have hsound := hserial.sound d hd
    exact (hsound.keys.stored hsound.unchanged).1
  · intro k d hd
    have hlength : d.block.content.public_keys.length = b.content.public_keys.length
        + removals (replays.log (s.decided.take (k + 1))) := by
      rw [hcontent k d hd]
      exact replayed_keys _ _
    exact hlength

end

/-! ### Two admins -/

/-- Key pairs that are written one after the other. -/
def plain_pairs : KeyPairs UInt8 where
  serialize keys := 255 :: keys
  deserialize
    | 255 :: keys => .ok keys
    | _ => .error "not key pairs"
  private_key key := [key]

/-- A stored group block, with the admins 1 and 2. -/
def shared_group (members : List (ACLEntry UInt8)) : ACB UInt8 UInt8 :=
  { edited members with
    data := [5, 255, 20]
    data_changed := false
    data_plain := []
    data_decrypted := false
    owner_key := 9
    owner_token := [9, 5]
    acl_group_entries := []
    group_version := []
    group_part := some ⟨[20], [(1, [1, 9]), (2, [2, 9])], none⟩ }

theorem shared_group_sound (members : List (ACLEntry UInt8)) :
    (shared_group members).GroupSound plain_ciphers plain_pairs :=
  ⟨⟨rfl, fun _ => ⟨⟨[5], 5, [255, 20], rfl, List.cons_ne_nil _ _, rfl, rfl, rfl⟩,
    List.cons_ne_nil _ _⟩, nofun, nofun⟩, rfl, rfl⟩

theorem plain_pairs_lawful : plain_pairs.Lawful := ⟨fun _ => rfl, fun _ => List.cons_ne_nil _ _⟩

/-- Each admin fetches the block, one removes a member and the other one adds one, and each offers
its block: the second one learns what was decided, and offers another one. -/
def two_edits : List (replays.Act UInt8 (GroupAction UInt8) (Drawn UInt8 UInt8)) :=
  [.fetch 1 0, .fetch 2 0, .issue 0 (.remove_member ⟨3, "u"⟩) ⟨21, 6⟩,
    .issue 1 (.add_member ⟨4, "v"⟩) ⟨0, 0⟩, .offer 0 0 ⟨0, 0⟩ true, .offer 0 1 ⟨0, 0⟩ true,
    .offer 0 0 ⟨0, 0⟩ true]

theorem group_view {N : Type} {net : N → Dht UInt8 UInt8 UInt8} (n : N) (b : ACB UInt8 UInt8)
    (hb : b.GroupSound plain_ciphers plain_pairs) :
    (group_editing net plain_pairs).version ((group_editing net plain_pairs).view n b) =
        (group_editing net plain_pairs).version b ∧
      ((group_editing net plain_pairs).view n b).content = b.content ∧
      ((group_editing net plain_pairs).view n b).GroupSound plain_ciphers plain_pairs := by
  refine ⟨rfl, rfl, hb.fetched (net n), ?_, hb.unset⟩
  exact decide_eq_false (hb.keys.stored hb.unchanged).2

/-- What is read of a store in the end: the edits, and the admins and the keys of each block. -/
structure Outcome where
  issued : List (UInt8 × GroupAction UInt8)
  succeeded : List Nat
  failed : List Nat
  working : Nat
  blocks : List (List UInt8 × List UInt8)
deriving DecidableEq

def outcome (s : replays.State UInt8 (GroupAction UInt8) (Drawn UInt8 UInt8) (ACB UInt8 UInt8)) :
    Outcome :=
  ⟨s.issued, s.succeeded, s.failed, s.working.length,
    s.decided.map fun d => (d.block.admins, d.block.public_keys)⟩

theorem two_edits_run : ∃ s, Run (replays.step (group_editing member plain_pairs))
    (replays.Fetched (group_editing member plain_pairs))
    (replays.start (shared_group [⟨3, true, false, [3, 5]⟩])) two_edits s ∧
    outcome s = ⟨[(1, .remove_member ⟨3, "u"⟩), (2, .add_member ⟨4, "v"⟩)], [0, 1], [], 0,
      [([1, 2], [20]), ([1, 2], [20, 21]), ([1, 2], [20, 21])]⟩ :=
  Run.of_exec_map (f := outcome) (by decide +kernel)

theorem two_edits_are_serial : ∃ s, outcome s =
      ⟨[(1, .remove_member ⟨3, "u"⟩), (2, .add_member ⟨4, "v"⟩)], [0, 1], [], 0,
        [([1, 2], [20]), ([1, 2], [20, 21]), ([1, 2], [20, 21])]⟩ ∧
    GroupSerial member plain_pairs plain_ciphers (shared_group [⟨3, true, false, [3, 5]⟩]) s := by
  obtain ⟨s, hrun, hout⟩ := two_edits_run
  have hb := shared_group_sound [⟨3, true, false, [3, 5]⟩]
  have hnet : ∀ n, (member n).ciphers = plain_ciphers := fun _ => rfl
  have hfill : ∀ s d, plain_ciphers.encipher s d ≠ [] := fun _ _ => List.cons_ne_nil _ _
  have hlawful := group_editing_lawful hnet plain_ciphers_inverse hfill plain_pairs_lawful
  have hmeets := replays.Run.of_fetched hlawful hb group_view hrun
  exact ⟨s, hout,
    group_edits_are_serial hnet plain_ciphers_inverse hfill plain_pairs_lawful hb hmeets⟩

/-! ### Edits that are lost, and edits that are made twice -/

theorem replayed_admins {net : UInt8 → Dht UInt8 UInt8 UInt8} {key : UInt8}
    {edits : List (Nat × replays.Attempt UInt8 (GroupAction UInt8) (Drawn UInt8 UInt8))}
    {c : Content UInt8} (hkept : ∀ e ∈ edits, ∀ user, e.2.edit ≠ .remove_admin user)
    (hin : key ∈ c.admins ∨ ∃ e ∈ edits, ∃ name, e.2.edit = .add_admin ⟨key, name⟩) :
    key ∈ (replays.replayed (apply_edit net) edits c).admins := by
  induction edits generalizing c with
  | nil => exact hin.resolve_right nofun
  | cons e edits ih =>
    refine ih (fun e' he' => hkept e' (List.mem_cons_of_mem _ he')) ?_
    have hnot := hkept e List.mem_cons_self
    change key ∈ ((e.2.edit.apply e.2.drawn.new_key c).enforce _).admins ∨ _
    rw [(enforce_keeps_keys _ _).2]
    rcases hin with hin | ⟨e', he', name, hedit⟩
    · left
      cases hedit : e.2.edit with
      | add_member user =>
        rw [GroupAction.apply, (permit_named_keys _ _ _ _).2]
        exact hin
      | remove_member user =>
        simp only [GroupAction.apply, (permit_named_keys _ _ _ _).2]
        exact hin
      | add_admin user =>
        simp only [GroupAction.apply]
        split
        · exact hin
        · exact List.mem_append_left _ hin
      | remove_admin user => exact absurd hedit (hnot user)
      | set_description description => exact hin
    · rcases List.mem_cons.mp he' with rfl | he'
      · left
        simp only [hedit, GroupAction.apply]
        split
        next hin => exact hin
        next => exact List.mem_append_right _ (List.mem_singleton_self _)
      · exact Or.inr ⟨e', he', name, hedit⟩

/-- Of an admin who sets the description and of another one who adds an admin. -/
def lost_edit : List (replays.Act UInt8 (GroupAction UInt8) (Drawn UInt8 UInt8)) :=
  [.fetch 1 0, .fetch 2 0, .issue 0 (.set_description (some "x")) ⟨0, 0⟩,
    .issue 1 (.add_admin ⟨3, "u"⟩) ⟨0, 0⟩, .offer 0 0 ⟨0, 0⟩ true, .offer 0 1 ⟨0, 0⟩ true]

theorem lost_edit_run : ∃ s, Run (replays.step (group_editing member plain_pairs)) anyStep
    (replays.start (shared_group [])) lost_edit s ∧
    outcome s = ⟨[(1, .set_description (some "x")), (2, .add_admin ⟨3, "u"⟩)], [0, 1], [], 0,
      [([1, 2], [20]), ([1, 2], [20])]⟩ :=
  Run.of_exec_map (f := outcome) (by decide +kernel)

/-- A removal that is decided, and not answered at once. -/
def repeated_edit : List (replays.Act UInt8 (GroupAction UInt8) (Drawn UInt8 UInt8)) :=
  [.fetch 1 0, .issue 0 (.remove_member ⟨3, "u"⟩) ⟨21, 6⟩, .offer 0 0 ⟨0, 0⟩ false,
    .offer 0 1 ⟨22, 7⟩ true, .offer 0 0 ⟨0, 0⟩ true]

theorem repeated_edit_run : ∃ s, Run (replays.step (group_editing member plain_pairs)) anyStep
    (replays.start (shared_group [⟨3, true, false, [3, 5]⟩, ⟨4, true, false, [4, 5]⟩]))
      repeated_edit s ∧
    outcome s = ⟨[(1, .remove_member ⟨3, "u"⟩)], [0], [], 0,
      [([1, 2], [20]), ([1, 2], [20, 21]), ([1, 2], [20, 21, 22])]⟩ :=
  Run.of_exec_map (f := outcome) (by decide +kernel)

/-- An edit that succeeded is lost, since the block of another one compares equal to its own; and a
member who is removed once leaves two new keys, since a block with a member does not compare equal
to itself. -/
theorem group_edits_are_lost_or_repeated :
    (∃ s, Run (replays.step (group_editing member plain_pairs)) anyStep
        (replays.start (shared_group [])) lost_edit s ∧ s.working = [] ∧ s.failed = [] ∧
        ∀ edits : List (Nat × replays.Attempt UInt8 (GroupAction UInt8) (Drawn UInt8 UInt8)),
          (edits.map fun e => (e.2.node, e.2.edit)).Perm s.issued →
          ∀ last ∈ s.decided.getLast?, last.block.content ≠
            replays.replayed (apply_edit member) edits (shared_group []).content) ∧
      ∃ s, Run (replays.step (group_editing member plain_pairs)) anyStep
        (replays.start (shared_group [⟨3, true, false, [3, 5]⟩, ⟨4, true, false, [4, 5]⟩]))
          repeated_edit s ∧
        s.issued = [(1, .remove_member ⟨3, "u"⟩)] ∧ s.succeeded = [0] ∧
        ∃ last ∈ s.decided.getLast?, last.block.public_keys = [20, 21, 22] := by
  constructor
  · obtain ⟨s, hrun, hout⟩ := lost_edit_run
    simp only [outcome, Outcome.mk.injEq] at hout
    obtain ⟨hissued, -, hfailed, hworking, hblocks⟩ := hout
    refine ⟨s, hrun, List.length_eq_zero_iff.mp hworking, hfailed, ?_⟩
    intro edits hperm last hlast heq
    rw [hissued] at hperm
    -- the block that is left is without the new admin
    have hadmins : last.block.admins = [1, 2] := by
      have hmem := List.mem_map_of_mem (f := fun d => (d.block.admins, d.block.public_keys))
        (List.mem_of_getLast? hlast)
      rw [hblocks] at hmem
      simp only [List.mem_cons, List.not_mem_nil, or_false, or_self, Prod.mk.injEq] at hmem
      exact hmem.1
    have hkept : ∀ e ∈ edits, ∀ user, e.2.edit ≠ .remove_admin user := by
      intro e he user heq
      have hmem := hperm.mem_iff.mp (List.mem_map_of_mem he)
      simp [heq] at hmem
    have hadded : ∃ e ∈ edits, ∃ name, e.2.edit = .add_admin ⟨3, name⟩ := by
      have hmem := hperm.mem_iff.mpr (List.mem_cons_of_mem _ List.mem_cons_self)
      obtain ⟨e, he, hpair⟩ := List.mem_map.mp hmem
      exact ⟨e, he, "u", congrArg Prod.snd hpair⟩
    have hin := @replayed_admins member 3 edits (c := (shared_group []).content) hkept
      (Or.inr hadded)
    rw [← heq] at hin
    have hnot : (3 : UInt8) ∉ last.block.content.admins := by
      change 3 ∉ last.block.admins
      rw [hadmins]
      decide
    exact hnot hin
  · obtain ⟨s, hrun, hout⟩ := repeated_edit_run
    simp only [outcome, Outcome.mk.injEq] at hout
    obtain ⟨hissued, hsucceeded, -, -, hblocks⟩ := hout
    refine ⟨s, hrun, hissued, hsucceeded, ?_⟩
    have hlast := congrArg List.getLast? hblocks
    rw [List.getLast?_map] at hlast
    obtain ⟨last, hlast, hpair⟩ := Option.map_eq_some_iff.mp hlast
    exact ⟨last, hlast, congrArg Prod.snd hpair⟩

end memo
