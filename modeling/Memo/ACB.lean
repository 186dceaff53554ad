-- The blocks that have an owner and a list of who may read and write them, as
-- `OKB.cc` and `ACB.cc` have them: what is signed, how a permission is set, how
-- a block is sealed, decrypted and validated.
import Memo.Passports

open ops

namespace memo

/-- `elle::Buffer`. -/
abbrev Buffer := List UInt8

def Address.mutable_block : UInt8 := 0

/-! ## The data of a block -/

/-- A right of a user or of a group. The token is the secret of the block, for that key alone. -/
structure ACLEntry (K : Type) where
  key : K
  read : Bool
  write : Bool
  token : Buffer
deriving DecidableEq

/-- The fields of an OKB, with those of `Block`, of `MutableBlock` and of `OKBHeader`. `data` is
`_data`, what is stored; `data_plain` is what was read from it or will be written to it.
`owner_private_key` says whether we hold the private key of the owner. -/
structure OKB (K H : Type) where
  address : Address H
  data : Buffer
  owner : Address H
  validated : Bool
  data_changed : Bool
  next_seal_version : Option Int
  salt : Buffer
  owner_key : K
  version : Int
  signature : Buffer
  owner_private_key : Bool
  data_plain : Buffer
  data_decrypted : Bool
deriving DecidableEq

/-- What a group block has more than an access control block. -/
structure GroupPart (K : Type) where
  public_keys : List K
  admin_keys : List (K × Buffer)
  description : Option String
deriving DecidableEq

/-- An ACB, or a group block when it has a group part. A signature that is still being computed is
the signature that it will be; none yet is the empty buffer. -/
structure ACB (K H : Type) extends OKB K H where
  editor : Int
  owner_token : Buffer
  acl_changed : Bool
  acl_entries : List (ACLEntry K)
  acl_group_entries : List (ACLEntry K)
  group_version : List Int
  data_version : Int
  data_signature : Buffer
  world_readable : Bool
  world_writable : Bool
  deleted : Bool
  sign_key : Option K
  seal_version : elle.Version
  group_part : Option (GroupPart K)
deriving DecidableEq

/-- What the signatures of the blocks are of: the data of an OKB, the rights of an ACB for its
owner, the data of an ACB for its author. -/
inductive Signed (K : Type) where
  | okb (salt : Buffer) (owner_key : K) (version : Int) (data : Buffer)
  | owner (salt : Buffer) (owner_key : K) (version : Int) (acls : List (K × Bool × Bool))
      (group_acls : Option (List (K × Bool × Bool) × Bool × Bool))
      (admins : Option (List (K × Buffer)))
  | data (salt : Buffer) (key : K) (version : Int) (data owner_token : Buffer)
      (acl : List (ACLEntry K)) (group_acl : Option (List (ACLEntry K) × List Int × Bool))
      (group : Option (List K × Option (Option String)))
deriving DecidableEq

/-! ## The node that handles a block -/

/-- The cryptography of `elle`. The flag of a cipher is `use_encrypt`: to encrypt, or to seal. A
signature holds the version that its object was serialized at, and what is verified is serialized
at that version. -/
structure Ciphers (K S H : Type) where
  sign : elle.Version → K → Signed K → Buffer
  verify : K → Buffer → (elle.Version → Signed K) → Bool
  encrypt : Bool → K → Buffer → Buffer
  decrypt : Bool → K → Buffer → Except String Buffer
  secret_buffer : elle.Version → S → Buffer
  secret_of : Bool → Buffer → Except String S
  encipher : S → Buffer → Buffer
  decipher : S → Buffer → Except String Buffer
  hash : K → Buffer → H × UInt8
  show_address : Address H → String
  show_key : K → String

/-- A group as a node sees it: its public keys and, for its members, the key pairs. -/
structure Group (K : Type) where
  public_keys : List K
  group_keys : Except String (List K)

structure AdminKeys (K : Type) where
  r : List K
  w : List K
  group_r : List K
  group_w : List K

/-- The node: its keys, its version, its options, and the groups it can fetch. -/
structure Dht (K S H : Type) where
  keys : K
  version : elle.Version
  validate_signatures : Bool
  token_encrypt : Bool
  admin_keys : AdminKeys K
  group : K → Except String (Group K)
  ciphers : Ciphers K S H

/-- How a call ends when it does not return: an exception, or an access that C++ leaves
undefined. -/
inductive Failure where
  | error (what : String)
  | validation_failed (what : String)
  | assert_error (condition : String)
  | out_of_bounds
  | null_pointer
  | empty_optional
deriving DecidableEq

/-- An access that C++ leaves undefined, and after which nothing is known. -/
def Failure.undefined : Failure → Bool
  | .out_of_bounds => true
  | .null_pointer => true
  | .empty_optional => true
  | _ => false

/-- An access to a vector at an index. -/
def index {α : Type} (l : List α) (i : Int) : Except Failure α :=
  if 0 ≤ i then
    match l[i.toNat]? with
    | some a => .ok a
    | none => .error .out_of_bounds
  else .error .out_of_bounds

/-- `vector::back`. -/
def back {α : Type} (l : List α) : Except Failure α :=
  match l.getLast? with
  | some a => .ok a
  | none => .error .out_of_bounds

/-- An exception of something that is called. -/
def raised {α : Type} : Except String α → Except Failure α
  | .ok a => .ok a
  | .error what => .error (.error what)

/-- The first entry of a key, with its index. -/
def find_entry {K : Type} [DecidableEq K] (key : K) :
    List (ACLEntry K) → Option (Nat × ACLEntry K)
  | [] => none
  | e :: es =>
    if e.key = key then some (0, e)
    else (find_entry key es).map fun p => (p.1 + 1, p.2)

section

variable {K S H : Type} [DecidableEq K] [DecidableEq H]

namespace Group

/-- `Group::version`. -/
def version (g : Group K) : Int := g.public_keys.length

def current_public_key (g : Group K) : Except Failure K := back g.public_keys

/-- The private key of the last key pair. There is none for who is not of the group. -/
def current_key (g : Group K) : Except Failure (Option K) :=
  match g.group_keys with
  | .ok keys => (back keys).map some
  | .error _ => .ok none

end Group

/-! ## Blocks with an owner -/

namespace OKB

/-- `OKBHeader::hash_address`. -/
def hash_address (dht : Dht K S H) (key : K) (salt : Buffer) : Address H :=
  Address.of_digest (dht.ciphers.hash key salt) Address.mutable_block
    (decide ((⟨0, 5, 0⟩ : elle.Version) ≤ dht.version))

/-- `data(data)`. -/
def set_data (data : Buffer) (b : OKB K H) : OKB K H :=
  { b with data_plain := data, data_changed := true, data_decrypted := true, validated := false }

/-- `_decrypt_data()`, on what `_decrypt_data(data)` gives. -/
def decrypted (plain : Except Failure Buffer) (b : OKB K H) : Except Failure (OKB K H) :=
  if b.data_decrypted then .ok b
  else plain.map fun data => { b with data_plain := data, data_decrypted := true }

/-- `data(transformation)`. -/
def transform_data (plain : Except Failure Buffer) (transformation : Buffer → Buffer) :
    Op (OKB K H) Failure Unit := do
  let b ← Op.get
  let b ← Op.ofExcept (b.decrypted plain)
  Op.modify fun _ =>
    { b with data_plain := transformation b.data_plain, data_changed := true,
             validated := false }

/-- `OwnerSignature`, of an OKB. -/
def _sign (b : OKB K H) (_ : elle.Version) : Signed K :=
  .okb b.salt b.owner_key b.version b.data

/-- `_decrypt_data(data)`, of an OKB. -/
def _decrypt_data (dht : Dht K S H) (b : OKB K H) : Except Failure Buffer :=
  if b.owner_private_key then raised (dht.ciphers.decrypt false b.owner_key b.data)
  else .error (.error "attempting to decrypt an unowned OKB")

/-- `_seal_okb`. The owner signs `sign`, which depends on the new version. -/
def _seal_okb (dht : Dht K S H) (sign : OKB K H → elle.Version → Signed K) (version : Option Int)
    (bump_version : Bool) : Op (OKB K H) Failure Unit := do
  Op.modify fun b =>
    { b with version := version.getD (if bump_version then b.version + 1 else b.version) }
  let b ← Op.get
  if !b.owner_private_key then Op.throw (.error "attempting to seal an unowned OKB")
  else if dht.validate_signatures then
    Op.modify fun b =>
      { b with signature := dht.ciphers.sign dht.version b.owner_key (sign b dht.version) }
  else pure ()

/-- The version to seal at: the one that is asked for, or else the next one that was set, which is
then used up. -/
def take_seal_version (version : Option Int) : Op (OKB K H) Failure (Option Int) := do
  let b ← Op.get
  match version, b.next_seal_version with
  | none, some v =>
    if v ≠ 0 then do
      Op.modify fun b => { b with next_seal_version := none }
      pure (some v)
    else pure none
  | version, _ => pure version

/-- `_seal`, of an OKB. -/
def _seal (dht : Dht K S H) (version : Option Int) : Op (OKB K H) Failure Unit := do
  let version ← take_seal_version version
  let b ← Op.get
  if b.data_changed then do
    Op.modify fun b => { b with data := dht.ciphers.encrypt false dht.keys b.data_plain }
    _seal_okb dht _sign version true
    Op.modify fun b => { b with data_changed := false }
  else if version.isSome then _seal_okb dht _sign version true
  else pure ()

/-- `_validate(model, writing)` of an OKB, and the owner part of an ACB: `sign` is what the owner
signed. -/
def validate_owner (dht : Dht K S H) (sign : elle.Version → Signed K) (b : OKB K H) :
    Except Failure ValidationResult :=
  let expected_address := hash_address dht b.owner_key b.salt
  if !Address.equal_unflagged b.address expected_address then
    .ok (.failure ("address " ++ dht.ciphers.show_address b.address ++ " invalid, expecting " ++
      dht.ciphers.show_address expected_address))
  else if !dht.validate_signatures then .ok .success
  else if b.signature = [] then .error (.assert_error "this->signature() != elle::Buffer()")
  else if dht.ciphers.verify b.owner_key b.signature sign then .ok .success
  else .ok (.failure "invalid signature")

def _validate (dht : Dht K S H) (b : OKB K H) : Except Failure ValidationResult :=
  b.validate_owner dht b._sign

end OKB

/-! ## The permissions of a block -/

namespace ACB

/-- A call on the OKB that the block is. -/
def on_okb {α : Type} (x : Op (OKB K H) Failure α) : Op (ACB K H) Failure α := fun b =>
  ((x b.toOKB).1, { b with toOKB := (x b.toOKB).2 })

def use_encrypt (b : ACB K H) : Bool := decide ((⟨0, 7, 0⟩ : elle.Version) ≤ b.seal_version)

/-- `_set_world_permissions`. -/
def _set_world_permissions (read write : Bool) (b : ACB K H) : ACB K H :=
  if b.world_readable ≠ read ∨ b.world_writable ≠ write then
    { b with world_readable := read, world_writable := write, acl_changed := true,
             data_changed := true }
  else b

/-- The token of a new user: none while the block was never pushed, else the secret of the block,
which the owner can read. -/
def user_token (dht : Dht K S H) (key : K) (b : ACB K H) : Except Failure Buffer :=
  if b.owner_token = [] then .ok []
  else if !b.owner_private_key then .error (.error "Owner key unavailable")
  else do
    let secret ← raised (dht.ciphers.decrypt b.use_encrypt b.owner_key b.owner_token)
    pure (dht.ciphers.encrypt b.use_encrypt key secret)

/-- `set_permissions`. -/
def set_permissions (dht : Dht K S H) (key : K) (read write : Bool) :
    Op (ACB K H) Failure Unit := fun b =>
  if key = b.owner_key then (.error (.error "Cannot set permissions for owner"), b)
  else
    match find_entry key b.acl_entries with
    | none =>
      if !read && !write then (.ok (), b)
      else
        match b.user_token dht key with
        | .error e => (.error e, b)
        | .ok token =>
          (.ok (), { b with acl_entries := b.acl_entries ++ [⟨key, read, write, token⟩],
                            acl_changed := true })
    | some (i, e) =>
      if !read && !write then
        (.ok (), { b with acl_entries := b.acl_entries.eraseIdx i, acl_changed := true })
      else
        (.ok (), { b with acl_entries := b.acl_entries.set i { e with read, write },
                          acl_changed := b.acl_changed || e.read != read || e.write != write })

/-- What `set_group_permissions` says of an error of the group. -/
def group_error {α : Type} (what : String) : Except Failure α :=
  .error (.error ("Failed to access group block: " ++ what))

/-- The token of a new group. Without the private key of the owner, a null pointer is read. -/
def group_token (dht : Dht K S H) (key : K) (b : ACB K H) : Except Failure Buffer :=
  if b.owner_token = [] then .ok []
  else if !b.owner_private_key then .error .null_pointer
  else
    match dht.ciphers.decrypt b.use_encrypt b.owner_key b.owner_token with
    | .error what => group_error what
    | .ok secret =>
      match dht.group key with
      | .error what => group_error what
      | .ok g => g.current_public_key.map fun k => dht.ciphers.encrypt b.use_encrypt k secret

/-- `set_group_permissions`. The entry of a new group is inserted before its version is asked
for. -/
def set_group_permissions (dht : Dht K S H) (key : K) (read write : Bool) :
    Op (ACB K H) Failure Unit := fun b =>
  match find_entry key b.acl_group_entries with
  | none =>
    if !read && !write then (.ok (), b)
    else
      match b.group_token dht key with
      | .error e => (.error e, b)
      | .ok token =>
        let inserted : ACB K H :=
          { b with acl_group_entries := b.acl_group_entries ++ [⟨key, read, write, token⟩] }
        match dht.group key with
        | .error what => (group_error what, inserted)
        | .ok g =>
          (.ok (), { inserted with group_version := b.group_version ++ [g.version - 1],
                                   acl_changed := true })
  | some (i, e) =>
    if !read && !write then
      if i < b.group_version.length then
        (.ok (), { b with acl_group_entries := b.acl_group_entries.eraseIdx i,
                          group_version := b.group_version.eraseIdx i, acl_changed := true })
      else (.error .out_of_bounds, b)
    else
      (.ok (), { b with acl_group_entries := b.acl_group_entries.set i { e with read, write },
                        acl_changed := b.acl_changed || e.read != read || e.write != write })

/-- One call for each element, in order. -/
def each {α : Type} (f : α → Op (ACB K H) Failure Unit) : List α → Op (ACB K H) Failure Unit
  | [] => pure ()
  | a :: l => do
    f a
    each f l

/-- `copy_permissions`, on the block that they are copied to. -/
def _copy_permissions (dht : Dht K S H) (source : ACB K H) : Op (ACB K H) Failure Unit := do
  each (fun e => do
    let other ← Op.get
    if e.key ≠ other.owner_key then set_permissions dht e.key e.read e.write else pure ())
    source.acl_entries
  each (fun e => set_group_permissions dht e.key e.read e.write) source.acl_group_entries
  let other ← Op.get
  (if other.owner_key ≠ source.owner_key then set_permissions dht source.owner_key true true
    else pure () : Op (ACB K H) Failure Unit)
  Op.modify fun other =>
    { other with world_readable := source.world_readable,
                 world_writable := source.world_writable }

/-! ## Signatures -/

def permissions (entries : List (ACLEntry K)) : List (K × Bool × Bool) :=
  entries.map fun e => (e.key, e.read, e.write)

/-- `OwnerSignature`, of an ACB. -/
def _sign (b : ACB K H) (v : elle.Version) : Signed K :=
  .owner b.salt b.owner_key b.version (permissions b.acl_entries)
    (if ⟨0, 4, 0⟩ ≤ v then
      some (permissions b.acl_group_entries, b.world_readable, b.world_writable)
    else none)
    (b.group_part.map (·.admin_keys))

/-- `DataSignature`. -/
def _data_sign (b : ACB K H) (v : elle.Version) : Signed K :=
  .data b.salt b.owner_key b.data_version b.data b.owner_token b.acl_entries
    (if ⟨0, 4, 0⟩ ≤ v then some (b.acl_group_entries, b.group_version, b.deleted) else none)
    (b.group_part.map fun g =>
      (g.public_keys, if ⟨0, 8, 0⟩ ≤ v then some g.description else none))

def _seal_okb (dht : Dht K S H) (bump_version : Bool) : Op (ACB K H) Failure Unit := fun b =>
  on_okb (OKB._seal_okb dht (fun okb => { b with toOKB := okb }._sign) none bump_version) b

/-! ## Sealing -/

/-- The admin keys of the network get their rights. -/
def enforce_admin_keys (dht : Dht K S H) : Op (ACB K H) Failure Unit := do
  let b ← Op.get
  let aks := dht.admin_keys
  let others (keys : List K) : List K := keys.filter (· ≠ b.owner_key)
  each (fun k => set_permissions dht k true false) (others aks.r)
  each (fun k => set_permissions dht k true true) (others aks.w)
  each (fun k => set_group_permissions dht k true false) (others aks.group_r)
  each (fun k => set_group_permissions dht k true true) (others aks.group_w)

/-- The part of `_seal` for new rights. It returns the key that will sign the data. -/
def seal_acl (dht : Dht K S H) (data_changed : Bool) : Op (ACB K H) Failure (Option K) := do
  Op.modify fun b => { b with acl_changed := false }
  Op.modify fun b => { b with editor := if b.owner_private_key then -1 else b.editor }
  _seal_okb dht true
  Op.modify fun b =>
    { b with data_version := if data_changed then b.data_version else b.data_version + 1 }
  let b ← Op.get
  pure (if b.owner_private_key then some b.owner_key else none)

/-- The editor and the key that signs, none while nothing was found. -/
structure Author (K : Type) where
  editor : Int
  sign_key : Option K

/-- The user entries, while new data is sealed: a token for who may read, and the first entry of
our key is the editor. -/
def seal_users (dht : Dht K S H) (use_encrypt : Bool) (secret : Buffer)
    (entries : List (ACLEntry K)) (author : Author K) : List (ACLEntry K) × Author K :=
  (entries.map fun e =>
      if e.read then { e with token := dht.ciphers.encrypt use_encrypt e.key secret } else e,
    match author.sign_key, find_entry dht.keys entries with
    | none, some (i, _) => ⟨i, some dht.keys⟩
    | _, _ => author)

/-- The token of a group that may read, and the version of its key, while new data is sealed. -/
def refresh_group (dht : Dht K S H) (use_encrypt : Bool) (secret : Buffer) (idx : Nat)
    (e : ACLEntry K) (g : Group K) (group_version : List Int) :
    Except Failure (ACLEntry K × List Int) :=
  if e.read then do
    let key ← g.current_public_key
    if idx < group_version.length then
      .ok ({ e with token := dht.ciphers.encrypt use_encrypt key secret },
        group_version.set idx (g.version - 1))
    else .error .out_of_bounds
  else .ok (e, group_version)

/-- The first group whose key we can read is the editor. -/
def group_author (g : Group K) (editor : Int) (author : Author K) : Except Failure (Author K) :=
  match author.sign_key with
  | some _ => .ok author
  | none =>
    g.current_key.map fun
      | some key => ⟨editor, some key⟩
      | none => author

/-- One group entry, while new data is sealed. Exceptions of the group are caught. -/
def seal_group (dht : Dht K S H) (use_encrypt : Bool) (secret : Buffer) (users idx : Nat)
    (e : ACLEntry K) (group_version : List Int) (author : Author K) :
    Except Failure (ACLEntry K × List Int × Author K) :=
  match dht.group e.key with
  | .error _ => .ok (e, group_version, author)
  | .ok g => do
    let refreshed ← refresh_group dht use_encrypt secret idx e g group_version
    let author ← group_author g (users + idx) author
    .ok (refreshed.1, refreshed.2, author)

def seal_groups (dht : Dht K S H) (use_encrypt : Bool) (secret : Buffer) (users : Nat) :
    Nat → List (ACLEntry K) → List Int → Author K →
      Except Failure (List (ACLEntry K) × List Int × Author K)
  | _, [], group_version, author => .ok ([], group_version, author)
  | idx, e :: es, group_version, author => do
    let (e, group_version, author) ←
      seal_group dht use_encrypt secret users idx e group_version author
    let (es, group_version, author) ←
      seal_groups dht use_encrypt secret users (idx + 1) es group_version author
    pure (e :: es, group_version, author)

/-- The version that tokens are made at. -/
def token_version (dht : Dht K S H) : elle.Version :=
  if dht.token_encrypt then dht.version else min dht.version ⟨0, 6, 0⟩

/-- The part of `_seal` for new data, with a new secret. -/
def seal_data (dht : Dht K S H) (key : S) (sign_key : Option K) :
    Op (ACB K H) Failure (Option K) := do
  let b ← Op.get
  let author : Author K :=
    if b.owner_private_key then ⟨-1, some b.owner_key⟩ else ⟨b.editor, sign_key⟩
  let seal_version := token_version dht
  let secret := dht.ciphers.secret_buffer seal_version key
  let use_encrypt := decide ((⟨0, 7, 0⟩ : elle.Version) ≤ seal_version)
  let (users, author) := seal_users dht use_encrypt secret b.acl_entries author
  let (groups, group_version, author) ← Op.ofExcept
    (seal_groups dht use_encrypt secret b.acl_entries.length 0 b.acl_group_entries
      b.group_version author)
  Op.modify fun b =>
    { b with data_version := b.data_version + 1
             editor := author.editor
             seal_version
             owner_token := dht.ciphers.encrypt use_encrypt b.owner_key secret
             acl_entries := users
             acl_group_entries := groups
             group_version
             data := if b.world_readable then b.data_plain
               else dht.ciphers.encipher key b.data_plain
             data_changed := false }
  pure (if author.sign_key.isNone && b.world_writable then some dht.keys else author.sign_key)

/-- The last entry of a key, with its index. -/
def find_last_entry (key : K) : List (ACLEntry K) → Option (Nat × ACLEntry K)
  | [] => none
  | e :: es =>
    match find_last_entry key es with
    | some (i, e) => some (i + 1, e)
    | none => if e.key = key then some (0, e) else none

/-- The search of a group to sign with, when the data did not change: the last one that we can
read. The index is not incremented from one group to the next. -/
def last_group (dht : Dht K S H) (idx : Nat) :
    List (ACLEntry K) → Author K → Except Failure (Author K)
  | [], author => .ok author
  | e :: es, author =>
    match dht.group e.key with
    | .error _ => last_group dht idx es author
    | .ok g => do
      match ← g.current_key with
      | some key => last_group dht idx es ⟨idx, some key⟩
      | none => last_group dht idx es author

/-- Who signs when sealing the rights and the data named nobody. -/
def find_author (dht : Dht K S H) (sign_key : Option K) (b : ACB K H) :
    Except Failure (Author K) :=
  match sign_key with
  | some key => .ok ⟨b.editor, some key⟩
  | none =>
    if b.owner_private_key then .ok ⟨-1, some b.owner_key⟩
    else
      match find_last_entry dht.keys b.acl_entries with
      | some (i, _) => .ok ⟨i, some dht.keys⟩
      | none => do
        let author ← last_group dht b.acl_entries.length b.acl_group_entries ⟨b.editor, none⟩
        pure (if author.sign_key.isNone && b.world_writable then
          { author with sign_key := some dht.keys } else author)

/-- The data signature. -/
def sign_data (dht : Dht K S H) (key : K) (b : ACB K H) : ACB K H :=
  { b with data_signature := dht.ciphers.sign dht.version key (b._data_sign dht.version) }

/-- The part of `_seal` that signs the data. -/
def seal_author (dht : Dht K S H) (version : Option Int) (sign_key : Option K) :
    Op (ACB K H) Failure Unit := do
  Op.modify fun b => { b with data_version := version.getD b.data_version }
  let b ← Op.get
  let author ← Op.ofExcept (find_author dht sign_key b)
  Op.modify fun b => { b with editor := author.editor }
  match author.sign_key with
  | none => Op.throw (.validation_failed "not owner and no write permissions")
  | some key => do
    if dht.validate_signatures then Op.modify (sign_data dht key) else pure ()
    Op.modify fun b => { b with sign_key := some key }

/-- The data signature of a block that was restored from the storage before it was ready. -/
def restart_data_signature (dht : Dht K S H) : Op (ACB K H) Failure Unit := fun b =>
  if dht.validate_signatures && b.data_signature = [] then
    match b.sign_key with
    | none => (.error (.assert_error "_sign_key"), b)
    | some key => (.ok (), sign_data dht key b)
  else (.ok (), b)

/-- The signatures of a block that was restored from the storage before they were ready. -/
def restart_signatures (dht : Dht K S H) : Op (ACB K H) Failure Unit := do
  restart_data_signature dht
  let b ← Op.get
  if dht.validate_signatures && b.signature = [] then _seal_okb dht false else pure ()

/-- `_seal`. The key is the secret for new data: the one that was given or generated. -/
def _seal (dht : Dht K S H) (version : Option Int) (key : S) : Op (ACB K H) Failure Unit := do
  let version ← on_okb (OKB.take_seal_version version)
  enforce_admin_keys dht
  let b ← Op.get
  let sign_key ← (if b.acl_changed then seal_acl dht b.data_changed else pure none :
    Op (ACB K H) Failure (Option K))
  let sign_key ← (if b.data_changed then seal_data dht key sign_key else pure sign_key :
    Op (ACB K H) Failure (Option K))
  (if b.acl_changed || b.data_changed || version.isSome then seal_author dht version sign_key
    else pure () : Op (ACB K H) Failure Unit)
  restart_signatures dht

/-! ## Reading -/

/-- The secret from the entries of our key. The last one wins. -/
def user_secret (dht : Dht K S H) (use_encrypt : Bool) :
    List (ACLEntry K) → Buffer → Except Failure Buffer
  | [], secret => .ok secret
  | e :: es, secret =>
    if e.key = dht.keys then do
      let opened ← raised (dht.ciphers.decrypt use_encrypt dht.keys e.token)
      user_secret dht use_encrypt es opened
    else user_secret dht use_encrypt es secret

/-- The secret from one group, none when an exception of it is caught. -/
def open_group (dht : Dht K S H) (use_encrypt : Bool) (group_version : List Int) (idx : Nat)
    (e : ACLEntry K) : Except Failure (Option Buffer) :=
  match dht.group e.key with
  | .error _ => .ok none
  | .ok g =>
    match g.group_keys with
    | .error _ => .ok none
    | .ok keys => do
      let v ← index group_version idx
      if (keys.length : Int) ≤ v then pure none
      else do
        let key ← index keys v
        match dht.ciphers.decrypt use_encrypt key e.token with
        | .ok secret => pure (some secret)
        | .error _ => pure none

/-- The secret from the groups. The last one wins. -/
def group_secret (dht : Dht K S H) (use_encrypt : Bool) (group_version : List Int) :
    Nat → List (ACLEntry K) → Buffer → Except Failure Buffer
  | _, [], secret => .ok secret
  | idx, e :: es, secret => do
    let opened ← open_group dht use_encrypt group_version idx e
    group_secret dht use_encrypt group_version (idx + 1) es (opened.getD secret)

/-- `_decrypt_data(data)`, of an ACB. -/
def _decrypt_data (dht : Dht K S H) (b : ACB K H) : Except Failure Buffer :=
  if b.world_readable then .ok b.data
  else do
    let secret ← (if b.owner_private_key then
        raised (dht.ciphers.decrypt b.use_encrypt b.owner_key b.owner_token)
      else user_secret dht b.use_encrypt b.acl_entries [] : Except Failure Buffer)
    let secret ← (if secret = [] then
        group_secret dht b.use_encrypt b.group_version 0 b.acl_group_entries []
      else .ok secret : Except Failure Buffer)
    if secret = [] then .error (.validation_failed "no read permissions")
    else do
      let key ← raised (dht.ciphers.secret_of b.use_encrypt secret)
      raised (dht.ciphers.decipher key b.data)

/-- `data()`. -/
def read_data (dht : Dht K S H) : Op (ACB K H) Failure Buffer := do
  let b ← Op.get
  on_okb (do
    let okb ← Op.ofExcept (b.toOKB.decrypted (b._decrypt_data dht))
    Op.modify fun _ => okb
    pure okb.data_plain)

/-- `data(data)`. -/
def set_data (data : Buffer) : Op (ACB K H) Failure Unit :=
  on_okb (Op.modify (OKB.set_data data))

/-- `data(transformation)`. -/
def transform_data (dht : Dht K S H) (transformation : Buffer → Buffer) :
    Op (ACB K H) Failure Unit := fun b =>
  on_okb (OKB.transform_data (b._decrypt_data dht) transformation) b

/-! ## Validation -/

def has_key (k : K) (entries : List (ACLEntry K)) (write : Bool) : Bool :=
  entries.any fun e => decide (e.key = k) && e.read && (!write || e.write)

/-- The first of the keys that the entries do not hold. -/
def missing_key (b : ACB K H) (keys : List K) (entries : List (ACLEntry K)) (write : Bool) :
    Option K :=
  keys.find? fun k => decide (k ≠ b.owner_key) && !has_key k entries write

/-- `_validate_admin_keys`. -/
def _validate_admin_keys (dht : Dht K S H) (b : ACB K H) : ValidationResult :=
  let aks := dht.admin_keys
  match b.missing_key aks.r b.acl_entries false with
  | some k => .failure ("Missing admin R key " ++ dht.ciphers.show_key k)
  | none =>
    match b.missing_key aks.w b.acl_entries true with
    | some k => .failure ("Missing admin RW key " ++ dht.ciphers.show_key k)
    | none =>
      match b.missing_key aks.group_r b.acl_group_entries false with
      | some k => .failure ("Missing admin R group key " ++ dht.ciphers.show_key k)
      | none =>
        match b.missing_key aks.group_w b.acl_group_entries true with
        | some k => .failure ("Missing admin RW group key " ++ dht.ciphers.show_key k)
        | none => .success

/-- The signature of an author, by the key that the entry of the author gives. -/
def verify_data (dht : Dht K S H) (b : ACB K H) (key : K) (reason : String) : ValidationResult :=
  if dht.ciphers.verify key b.data_signature b._data_sign then .success else .failure reason

/-- The signature of an author who is in a group, by the key of the version that is recorded for
the group. -/
def verify_group (dht : Dht K S H) (b : ACB K H) (e : ACLEntry K) (gindex : Int) :
    Except Failure ValidationResult :=
  match dht.group e.key with
  | .error _ => .ok (.failure "Failed to access group")
  | .ok g =>
    if (b.group_version.length : Int) ≤ gindex then
      .ok (.failure "group_version array too short")
    else do
      let key_index ← index b.group_version gindex
      if (g.public_keys.length : Int) ≤ key_index then pure (.failure "group key out of range")
      else do
        let key ← index g.public_keys key_index
        pure (b.verify_data dht key "Invalid group key signature")

/-- The author part of `_validate`: the editor may write, and signed the data. -/
def validate_author (dht : Dht K S H) (b : ACB K H) : Except Failure ValidationResult :=
  if b.editor = -1 then
    .ok (if dht.validate_signatures then
      b.verify_data dht b.owner_key "author signature invalid" else .success)
  else if b.editor < 0 then .ok (.failure "no ACL or no editor")
  else if (b.acl_entries.length : Int) ≤ b.editor then
    let gindex := b.editor - b.acl_entries.length
    if (b.acl_group_entries.length : Int) ≤ gindex then
      .ok (.failure "editor index out of bounds")
    else do
      let entry ← index b.acl_group_entries gindex
      if !entry.write then pure (.failure "no write permissions")
      else if dht.validate_signatures then b.verify_group dht entry gindex
      else pure .success
  else do
    let entry ← index b.acl_entries b.editor
    if !entry.write then pure (.failure "no write permissions")
    else if dht.validate_signatures then
      pure (b.verify_data dht entry.key "author signature invalid")
    else pure .success

/-- `_validate(model, writing)`, of an ACB. -/
def _validate (dht : Dht K S H) (writing : Bool) (b : ACB K H) :
    Except Failure ValidationResult := do
  let owner ← b.toOKB.validate_owner dht b._sign
  if owner ≠ .success then pure owner
  else if b.world_writable then pure .success
  else do
    let author ← b.validate_author dht
    if author ≠ .success then pure author
    else if writing then pure (b._validate_admin_keys dht)
    else pure .success

end ACB

end

end memo
