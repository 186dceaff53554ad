-- The binary format of the blocks that have an owner, as `Block::serialize`,
-- `OKB.cc` and `ACB.cc` write it and as the constructors of the blocks read it.
-- What one method does in both directions is a codec. The fields of an OKB are
-- written by one method and read by a constructor, and not in the same order.
import Memo.ACB
import Memo.Binary

open ops codec elle.binary

namespace memo

/-! ## Addresses and keys -/

/-- The digest of an address, but for its last byte. -/
abbrev Digest := { b : Buffer // b.length = 31 }

/-- `Serialize<Address>::convert`. -/
def Address.to_buffer (a : Address Digest) : Buffer := a.value.1 ++ [a.flag_byte]

def Address.null : Address Digest := ⟨⟨List.replicate 31 0, List.length_replicate⟩, 0⟩

def Address.of_buffer (buffer : Buffer) : Except Error (Address Digest) :=
  if buffer = [] then .ok Address.null
  else if h : buffer.length = 32 then
    .ok ⟨⟨buffer.take 31, by rw [List.length_take, h]; rfl⟩, buffer.getLastD 0⟩
  else .error (.error "invalid address")

theorem Address.to_buffer_length (a : Address Digest) : a.to_buffer.length = 32 := by
  unfold Address.to_buffer
  rw [List.length_append, a.value.2]
  rfl

theorem Address.of_to_buffer (a : Address Digest) : of_buffer a.to_buffer = .ok a := by
  have hlen := a.to_buffer_length
  have hne : a.to_buffer ≠ [] := fun h => by simp [h] at hlen
  unfold of_buffer
  rw [if_neg hne, dif_pos hlen]
  cases a with
  | mk value flag_byte =>
    simp [Address.to_buffer, value.2]

def address : Codec Error (Address Digest) :=
  buffer.convert Address.to_buffer Address.of_buffer (fun _ => True)
    (fun a _ => ⟨by change a.to_buffer.length < 2 ^ 31; rw [a.to_buffer_length]; decide,
      a.of_to_buffer⟩)
    fun _ _ _ _ => trivial

/-- The encoding of public keys in DER. A key is read back, and no encoding of it is shorter. -/
structure Der (K : Type) where
  encode : K → Buffer
  decode : Buffer → Except String K
  decode_encode : ∀ k, decode (encode k) = .ok k
  encode_length : ∀ k, (encode k).length < 2 ^ 31
  shortest : ∀ d k, decode d = .ok k → (encode k).length ≤ d.length

/-- How a serializer is set up: whether every object stands behind its version, the versions of
memo and of elle, and the key that a hash of it stands for. -/
structure Format (K : Type) where
  versioned : Bool
  version : elle.Version
  elle_version : elle.Version
  resolve : Buffer → Except String K
  version_good : version_range version
  elle_version_good : version_range elle_version
  recent : (⟨0, 8, 0⟩ : elle.Version) ≤ version

/-- The first version of this format, without the versions of the objects and without a network
that knows keys. -/
def Format.bare {K : Type} : Format K where
  versioned := false
  version := ⟨0, 8, 0⟩
  elle_version := ⟨0, 8, 0⟩
  resolve := fun _ => .error "key not found"
  version_good := ⟨by decide, by decide, by decide⟩
  elle_version_good := ⟨by decide, by decide, by decide⟩
  recent := le_refl _

theorem Format.bare_resolve {K : Type} (hash : Buffer) (k : K) :
    (Format.bare : Format K).resolve hash ≠ .ok k := by
  intro h
  cases h

/-- An exception of something that is called. -/
def thrown {α : Type} : Except String α → Except Error α
  | .ok a => .ok a
  | .error what => .error (.error what)

theorem thrown_eq_ok {α : Type} {x : Except String α} {a : α} (h : thrown x = .ok a) :
    x = .ok a := by
  cases x with
  | ok b =>
    cases h
    rfl
  | error what => cases h

namespace Format

variable {K α : Type} (f : Format K)

def put_tag (v : elle.Version) : Bytes := if f.versioned then elle.binary.version.put v else []

def get_tag (v : elle.Version) : Op Bytes Error elle.Version :=
  if f.versioned then elle.binary.version.get else pure v

theorem get_put_tag {v : elle.Version} (hv : version_range v) (rest : Bytes) :
    f.get_tag v (f.put_tag v ++ rest) = (.ok v, rest) := by
  unfold get_tag put_tag
  cases f.versioned with
  | false => rfl
  | true => exact elle.binary.version.reads hv rest

/-- `Serializer::serialize_object`: an object is read as its version says, when there is one. -/
def object (c : elle.Version → Codec Error α) (v : elle.Version) (hv : version_range v)
    (hfits : ∀ v' a, (c v').fits a → (c v).fits a) : Codec Error α where
  put a := f.put_tag v ++ (c v).put a
  get := do
    let v' ← f.get_tag v
    (c v').get
  fits := (c v).fits
  reads := by
    intro a ha rest
    rw [List.append_assoc, Op.bind_of_ok (f.get_put_tag hv _)]
    exact (c v).reads ha rest
  valid := by
    intro s a r h
    obtain ⟨v', s₁, -, h⟩ := Op.bind_eq_ok h
    exact hfits v' a ((c v').valid h)

theorem object_minimal {c : elle.Version → Codec Error α} {v : elle.Version}
    {hv : version_range v} {hfits : ∀ v' a, (c v').fits a → (c v).fits a}
    (hf : f.versioned = false) (hc : (c v).Minimal) : (f.object c v hv hfits).Minimal := by
  intro s a r h
  obtain ⟨v', s₁, h₁, h₂⟩ := Op.bind_eq_ok h
  unfold get_tag at h₁
  rw [hf] at h₁
  cases h₁
  change ∃ used, s = used ++ r ∧ (f.put_tag v ++ (c v).put a).length ≤ used.length
  unfold put_tag
  rw [hf]
  exact hc s a r h₂

variable (der : Der K)

/-- `PublicKey::serialize`. -/
def public_key : Codec Error K :=
  f.object (fun _ => buffer.convert der.encode (fun d => thrown (der.decode d)) (fun _ => True)
      (fun k _ => ⟨der.encode_length k, by rw [der.decode_encode k]; rfl⟩) fun _ _ _ _ => trivial)
    f.elle_version f.elle_version_good fun _ _ h => h

/-- What `deserialize_key_hash` does with the index of a `KeyOrHash`. Without a peer to ask there
are no ids of keys. -/
def key_at (index : Int) : Op Bytes Error K :=
  if index = 0 then (f.public_key der).get
  else if index = 1 then do
    let hash ← buffer.get
    Op.ofExcept (thrown (f.resolve hash))
  else if index = 2 then do
    let _ ← int32.get
    Op.throw (.assert_error "remote || local")
  else Op.throw (.abort "unknown option type while applying")

theorem int_range_zero : int32.fits 0 := ⟨by decide, by decide⟩

/-- A `KeyOrHash`. Without a peer to send it to, a key is written itself. -/
def key_or_hash : Codec Error K :=
  f.object (fun _ =>
    { put := fun k => int32.put 0 ++ (f.public_key der).put k
      get := do
        let index ← int32.get
        f.key_at der index
      fits := fun _ => True
      reads := by
        intro k _ rest
        rw [List.append_assoc, Op.bind_of_ok (int32.reads int_range_zero _)]
        exact (f.public_key der).reads trivial rest
      valid := fun _ => trivial })
    f.elle_version f.elle_version_good fun _ _ h => h

/-- `serialize_key_hash` and `deserialize_key_hash`. -/
def key_hash (v : elle.Version) : Codec Error K :=
  if v < ⟨0, 7, 0⟩ then f.public_key der else f.key_or_hash der

theorem key_hash_fits (v : elle.Version) (k : K) : (f.key_hash der v).fits k := by
  unfold key_hash
  split <;> trivial

/-- `ACLEntry::serialize` and `ACLEntry::deserialize`. -/
def acl_entry : Codec Error (ACLEntry K) :=
  f.object (fun v =>
    ((f.key_hash der v).pair (bool.pair (bool.pair buffer))).convert
      (fun e => (e.key, e.read, e.write, e.token)) (fun p => .ok ⟨p.1, p.2.1, p.2.2.1, p.2.2.2⟩)
      (fun e => e.token.length < 2 ^ 31)
      (fun e he => ⟨⟨f.key_hash_fits der v e.key, trivial, trivial, he⟩, rfl⟩)
      fun p e hp he => by
        cases he
        exact hp.2.2.2)
    f.version f.version_good fun _ _ h => h

end Format

/-! ## What one method does in both directions -/

/-- `Block::serialize`: the address, the data and the owner. -/
def Block.serialize : Codec Error (Address Digest × Buffer × Address Digest) :=
  address.pair (buffer.pair address)

/-- `BaseOKB::_serialize`: the version and the signature. -/
def OKB._serialize : Codec Error (Int × Buffer) := int32.pair buffer

/-- What `BaseACB::_serialize` writes, in order. -/
structure ACB.Fields (K : Type) where
  editor : Int
  owner_token : Buffer
  acl : List (ACLEntry K)
  data_version : Int
  data_signature : Buffer
  world_readable : Bool
  world_writable : Bool
  group_acl : List (ACLEntry K)
  group_version : List Int
  deleted : Bool
  seal_version : elle.Version
deriving DecidableEq

/-- The sizes of a list of rights are `int`s. -/
def small_entries {K : Type} (l : List (ACLEntry K)) : Prop :=
  l.length < 2 ^ 31 ∧ ∀ e ∈ l, e.token.length < 2 ^ 31

/-- The numbers and the sizes are `int`s, and a version has its parts. -/
structure ACB.Fields.Good {K : Type} (x : ACB.Fields K) : Prop where
  editor : int_range x.editor
  owner_token : x.owner_token.length < 2 ^ 31
  acl : small_entries x.acl
  data_version : int_range x.data_version
  data_signature : x.data_signature.length < 2 ^ 31
  group_acl : small_entries x.group_acl
  group_version : x.group_version.length < 2 ^ 31 ∧ ∀ v ∈ x.group_version, int_range v
  seal_version : version_range x.seal_version

section

variable {K S : Type} [DecidableEq K] (der : Der K) (f : Format K) (dht : Dht K S Digest)

/-- `BaseACB::_serialize`. -/
def ACB._serialize : Codec Error (ACB.Fields K) :=
  (int32.pair (buffer.pair (((f.acl_entry der).list count).pair (int32.pair (buffer.pair
    (bool.pair (bool.pair (((f.acl_entry der).list count).pair ((int32.list count).pair
      (bool.pair elle.binary.version)))))))))).convert
    (fun x => (x.editor, x.owner_token, x.acl, x.data_version, x.data_signature, x.world_readable,
      x.world_writable, x.group_acl, x.group_version, x.deleted, x.seal_version))
    (fun (e, t, a, d, s, r, w, g, v, x, z) => .ok ⟨e, t, a, d, s, r, w, g, v, x, z⟩)
    ACB.Fields.Good
    (fun _ x => ⟨⟨x.editor, x.owner_token, x.acl, x.data_version, x.data_signature, trivial,
      trivial, x.group_acl, x.group_version, trivial, x.seal_version⟩, rfl⟩)
    fun _ _ ⟨e, t, a, d, s, _, _, g, v, _, z⟩ h => by
      cases h
      exact ⟨e, t, a, d, s, g, v, z⟩

/-! ## Writing and reading a block -/

namespace OKB

/-- `BaseOKB::serialize`, writing. -/
def serialize (b : OKB K Digest) : Bytes :=
  Block.serialize.put (b.address, b.data, b.owner) ++
  (f.key_hash der f.version).put b.owner_key ++
  buffer.put b.salt ++
  (if b.data = [] then buffer.put b.data_plain else []) ++
  (option int32).put b.next_seal_version ++
  OKB._serialize.put (b.version, b.signature)

/-- The constructor that reads a block. -/
def deserialize : Op Bytes Error (OKB K Digest) := do
  let base ← Block.serialize.get
  let owner_key ← (f.key_hash der f.version).get
  let salt ← buffer.get
  let next_seal_version ← (option int32).get
  let data_plain ← (if base.2.1 = [] then buffer.get else pure [] : Op Bytes Error Buffer)
  let signed ← OKB._serialize.get
  pure
    { address := base.1
      data := base.2.1
      owner := base.2.2
      validated := false
      data_changed := decide (base.2.1 = [])
      next_seal_version
      salt
      owner_key
      version := signed.1
      signature := signed.2
      owner_private_key := decide (owner_key = dht.keys)
      data_plain
      data_decrypted := false }

/-- The fields that are written. The plain data is when there is no other data. -/
def stored (b : OKB K Digest) : OKB K Digest :=
  { b with validated := false, data_changed := false, owner_private_key := false,
           data_plain := if b.data = [] then b.data_plain else [], data_decrypted := false }

/-- `data()`. -/
def contents (b : OKB K Digest) : Except Failure Buffer :=
  (b.decrypted (b._decrypt_data dht)).map OKB.data_plain

/-- In every format, the constructor reads what was written and no more, and gives a block with the
same fields and the same data. -/
def RoundTrips (b : OKB K Digest) : Prop :=
  ∀ (f : Format K) (rest : Bytes), ∃ b',
    deserialize der f dht (serialize der f b ++ rest) = (.ok b', rest) ∧
      b'.stored = b.stored ∧ b'.contents dht = b.contents dht

end OKB

namespace ACB

def fields (b : ACB K Digest) : Fields K where
  editor := b.editor
  owner_token := b.owner_token
  acl := b.acl_entries
  data_version := b.data_version
  data_signature := b.data_signature
  world_readable := b.world_readable
  world_writable := b.world_writable
  group_acl := b.acl_group_entries
  group_version := b.group_version
  deleted := b.deleted
  seal_version := b.seal_version

/-- `BaseACB::serialize`, writing. -/
def serialize (b : ACB K Digest) : Bytes :=
  OKB.serialize der f b.toOKB ++ (ACB._serialize der f).put b.fields

/-- The constructor that reads a block. -/
def deserialize : Op Bytes Error (ACB K Digest) := do
  let okb ← OKB.deserialize der f dht
  let x ← (ACB._serialize der f).get
  pure
    { okb with
      editor := x.editor
      owner_token := x.owner_token
      acl_changed := false
      acl_entries := x.acl
      acl_group_entries := x.group_acl
      group_version := x.group_version
      data_version := x.data_version
      data_signature := x.data_signature
      world_readable := x.world_readable
      world_writable := x.world_writable
      deleted := x.deleted
      sign_key := none
      seal_version := x.seal_version
      group_part := none }

/-- `data()`. -/
def contents (b : ACB K Digest) : Except Failure Buffer :=
  (b.toOKB.decrypted (b._decrypt_data dht)).map OKB.data_plain

def RoundTrips (b : ACB K Digest) : Prop :=
  ∀ (f : Format K) (rest : Bytes), ∃ b',
    deserialize der f dht (serialize der f b ++ rest) = (.ok b', rest) ∧
      b'.toOKB.stored = b.toOKB.stored ∧ b'.fields = b.fields ∧
        b'.contents dht = b.contents dht

end ACB

/-! ## The two orders of a rarely written field -/

/-- Plain data and a next version whose bytes are the same in either order. -/
def SameInEitherOrder (data_plain : Buffer) (next : Option Int) : Prop :=
  (data_plain = [] ∧ next = none) ∨
    ∃ p v, data_plain = [p] ∧ next = some v ∧ (put_number v = [p] ∨ put_number v = [p, 1, p])

theorem SameInEitherOrder.swap {data_plain : Buffer} {next : Option Int}
    (h : SameInEitherOrder data_plain next) :
    buffer.put data_plain ++ (option int32).put next =
      (option int32).put next ++ buffer.put data_plain := by
  have hone : put_number 1 = [1] := by decide
  obtain ⟨rfl, rfl⟩ | ⟨p, v, rfl, rfl, h⟩ := h
  · rfl
  · change (put_number 1 ++ [p]) ++ (put_number 1 ++ put_number v) =
      (put_number 1 ++ put_number v) ++ (put_number 1 ++ [p])
    rw [hone]
    rcases h with h | h
    · rw [h]
    · rw [h]
      rfl

theorem of_memory_append (s t : Bytes) :
    of_memory (s ++ t) = of_memory s + 256 ^ s.length * of_memory t := by
  induction s with
  | nil => simp [of_memory]
  | cons c s ih =>
    rw [List.cons_append, List.length_cons, of_memory, of_memory, ih]
    ring

theorem of_memory_lt (s : Bytes) : of_memory s < 256 ^ s.length := by
  induction s with
  | nil => simp [of_memory]
  | cons c s ih =>
    have hc := c.toNat_lt
    unfold of_memory
    rw [List.length_cons, Nat.pow_succ']
    omega

theorem nine_bytes_too_large {s : Bytes} {c p : UInt8} {v : Int} (hs : s.length = 6)
    (hv : v = signed c (int64 (of_memory (s ++ [1, p])))) : ¬int_range v := by
  have hmem : of_memory (s ++ [1, p]) = of_memory s + 256 ^ 6 * (1 + 256 * p.toNat) := by
    rw [of_memory_append, hs]
    simp [of_memory]
  have hlt := of_memory_lt s
  have hp := p.toNat_lt
  rw [hs] at hlt
  rw [hmem] at hv
  unfold int_range
  unfold signed int64 Int.bmod at hv
  simp only at hv
  split at hv
  · split at hv <;> split at hv <;> omega
  · split at hv <;> omega

theorem forms_overlap {w u : Bytes} {p : UInt8} {v v' : Int} (hw : Form w v) (hu : Form u v')
    (heq : v = v') (hv : int_range v) (hlen : w.length = u.length)
    (h : p :: 1 :: u = w ++ [1, p]) : u = [p] ∨ u = [p, 1, p] := by
  cases hw with
  | one hw =>
    left
    simp only [List.cons_append, List.nil_append, List.cons.injEq] at h
    exact h.2.2
  | two hw hw' =>
    simp only [List.cons_append, List.nil_append, List.cons.injEq] at h
    obtain ⟨-, -, rfl⟩ := h
    cases hu with
    | two h1 h1' => exact absurd h1 (by decide)
    | nine h1 hs => simp at hs
  | @three c c2 c3 hw hw' =>
    right
    simp only [List.cons_append, List.nil_append, List.cons.injEq] at h
    obtain ⟨rfl, rfl, rfl⟩ := h
    cases hu with
    | three h1 h1' =>
      have hp := p.toNat_lt
      have hc3 := c3.toNat_lt
      have hm := congrArg magnitude heq
      rw [magnitude_signed p (by omega) (by simp; omega),
        magnitude_signed c3 (by omega) (by simp; omega)] at hm
      have hone : (1 : UInt8).toNat = 1 := rfl
      have hp3 : c3 = p := UInt8.toNat.inj (by omega)
      rw [hp3]
    | nine h1 hs => simp at hs
  | @nine c s hw hs =>
    exfalso
    cases hu with
    | one h1 => simp [hs] at hlen
    | two h1 h1' => simp [hs] at hlen
    | three h1 h1' => simp [hs] at hlen
    | @nine c' s' h1 hs' =>
      rw [List.cons_append, List.cons.injEq] at h
      have hend : s' = s.drop 2 ++ [1, p] := by
        have hdrop := congrArg (List.drop 2) h.2
        rw [List.drop_append_of_le_length (by omega)] at hdrop
        exact hdrop
      rw [hend] at heq
      exact nine_bytes_too_large (by simp [hs]) heq hv

theorem short_buffer {s r : Bytes} {p : UInt8} (h : buffer.get s = (.ok [p], r))
    (hlen : s.length ≤ r.length + 2) : s = [1, p] ++ r := by
  obtain ⟨n, s₁, h₁, h⟩ := Op.bind_eq_ok h
  obtain ⟨u, hu, hs⟩ := get_number_ok h₁
  split at h
  · cases h
  · rename_i hpos
    obtain ⟨hsz, hs₁⟩ := get_bytes_ok h
    rw [hs₁] at hs
    rw [hs] at hlen
    simp only [List.length_append, List.length_cons, List.length_nil] at hlen hsz
    cases hu with
    | @one c hc =>
      have hn : c = 1 := by
        apply UInt8.toNat.inj
        have hone : (1 : UInt8).toNat = 1 := rfl
        unfold to_int Int.bmod signed int64 Int.bmod at hsz
        simp only at hsz
        split at hsz <;> split at hsz <;> (try split at hsz) <;> omega
      rw [hs, hn]
      rfl
    | two hc hc' | three hc hc' =>
      simp only [List.length_cons, List.length_nil] at hlen
      omega
    | nine hc hu =>
      rw [List.length_cons] at hlen
      omega

/-- When the next version is read where the plain data was written, and the plain data then, with
no fewer bytes left than were written after them, then their bytes are the same in either order. -/
theorem same_of_swapped {data_plain : Buffer} {next : Option Int} {rest s₁ s₂ : Bytes}
    (h₁ : (option int32).get (buffer.put data_plain ++ ((option int32).put next ++ rest)) =
      (.ok next, s₁))
    (h₂ : buffer.get s₁ = (.ok data_plain, s₂)) (hlen : rest.length ≤ s₂.length) :
    SameInEitherOrder data_plain next ∧ s₂ = rest := by
  have hplain : data_plain.length < 2 ^ 31 := buffer.valid h₂
  obtain ⟨filled, s, hflag, h₁⟩ := Op.bind_eq_ok h₁
  obtain ⟨n, s', hn, hof⟩ := Op.bind_eq_ok hflag
  change get_number (put_number data_plain.length ++ data_plain ++
    ((option int32).put next ++ rest)) = _ at hn
  rw [List.append_assoc, get_put_number (by omega) (by omega)] at hn
  cases hn
  obtain ⟨hbool, hs⟩ := Op.ofExcept_eq_ok hof
  have hsize := of_bool_ok.1 hbool
  rw [hs] at h₁
  cases filled with
  | false =>
    have hzero : (data_plain.length : Int) = 0 := hsize
    have hnil : data_plain = [] := List.length_eq_zero_iff.1 (by omega)
    cases h₁
    subst hnil
    have hput : (option int32).put none = buffer.put [] := rfl
    rw [List.nil_append, hput] at h₂
    exact ⟨Or.inl ⟨rfl, rfl⟩, (buffer.back h₂).2⟩
  | true =>
    have hone : (data_plain.length : Int) = 1 := hsize
    obtain ⟨p, hp⟩ : ∃ p, data_plain = [p] := List.length_eq_one_iff.1 (by omega)
    rw [if_pos rfl] at h₁
    obtain ⟨v, s₃, h₃, h₁⟩ := Op.bind_eq_ok h₁
    cases h₁
    have hv : int_range v := int32.valid h₃
    subst hp
    obtain ⟨m, s₄, h₄, hofv⟩ := Op.bind_eq_ok h₃
    obtain ⟨hm, hs₄⟩ := Op.ofExcept_eq_ok hofv
    obtain ⟨w, hw, hsplit⟩ := get_number_ok h₄
    rw [(of_int32_ok.1 hm).2] at hw
    have hu := put_number_form hv.number.1 hv.number.2
    have hmin := hw.minimal
    have hput : (option int32).put (some v) = 1 :: put_number v := rfl
    rw [hput, ← hs₄] at hsplit
    -- as many bytes are left, so both values have their written lengths
    have hbytes := congrArg List.length hsplit
    simp only [List.cons_append, List.nil_append, List.length_cons, List.length_append] at hbytes
    have hs₁ := short_buffer h₂ (by omega)
    rw [hs₁, List.length_append] at hbytes
    simp only [List.length_cons, List.length_nil] at hbytes
    have hsides : (p :: 1 :: put_number v) ++ rest = (w ++ [1, p]) ++ s₂ := by
      rw [hs₁] at hsplit
      simpa using hsplit
    obtain ⟨hsame, hrest⟩ := List.append_inj' hsides (by omega)
    refine ⟨Or.inr ⟨p, v, rfl, rfl, ?_⟩, hrest.symm⟩
    exact forms_overlap hw hu rfl hv (by omega) hsame

/-! ## The laws of an OKB -/

namespace OKB

/-- The numbers and the sizes of what is written are `int`s. -/
structure Fits (b : OKB K Digest) : Prop where
  data : b.data.length < 2 ^ 31
  salt : b.salt.length < 2 ^ 31
  next_seal_version : ∀ v, b.next_seal_version = some v → int_range v
  data_plain : b.data = [] → b.data_plain.length < 2 ^ 31
  version : int_range b.version
  signature : b.signature.length < 2 ^ 31

/-- What the constructor gives. -/
def restored (b : OKB K Digest) : OKB K Digest :=
  { b.stored with data_changed := decide (b.data = []),
                  owner_private_key := decide (b.owner_key = dht.keys) }

/-- What `_data` is decrypted to with the keys of the node. -/
def decryption (b : OKB K Digest) : Except Failure Buffer :=
  OKB._decrypt_data dht { b with owner_private_key := decide (b.owner_key = dht.keys) }

variable {der f dht} {b b' : OKB K Digest} {rest r : Bytes}

omit [DecidableEq K] in
theorem Fits.head (h : b.Fits) : Block.serialize.fits (b.address, b.data, b.owner) :=
  ⟨trivial, h.data, trivial⟩

omit [DecidableEq K] in
theorem Fits.signed (h : b.Fits) : OKB._serialize.fits (b.version, b.signature) :=
  ⟨h.version, h.signature⟩

theorem deserialize_serialize (hf : b.Fits)
    (ho : b.data = [] → SameInEitherOrder b.data_plain b.next_seal_version) (rest : Bytes) :
    deserialize der f dht (serialize der f b ++ rest) = (.ok (b.restored dht), rest) := by
  have hnext : (option int32).fits b.next_seal_version := hf.next_seal_version
  unfold deserialize serialize
  simp only [List.append_assoc]
  rw [Op.bind_of_ok (Block.serialize.reads hf.head _),
    Op.bind_of_ok ((f.key_hash der f.version).reads (f.key_hash_fits der _ _) _),
    Op.bind_of_ok (buffer.reads hf.salt _)]
  by_cases hd : b.data = []
  · have hplain : buffer.fits b.data_plain := hf.data_plain hd
    rw [if_pos hd, if_pos hd, ← List.append_assoc (buffer.put b.data_plain), (ho hd).swap,
      List.append_assoc, Op.bind_of_ok ((option int32).reads hnext _),
      Op.bind_of_ok (buffer.reads hplain _), Op.bind_of_ok (OKB._serialize.reads hf.signed rest)]
    simp [restored, stored, hd]
  · rw [if_neg hd, if_neg hd, List.nil_append, Op.bind_of_ok ((option int32).reads hnext _),
      Op.bind_of_ok (Op.pure_apply _ _), Op.bind_of_ok (OKB._serialize.reads hf.signed rest)]
    simp [restored, stored, hd]

theorem _serialize_minimal : OKB._serialize.Minimal :=
  Codec.pair_minimal int32_minimal buffer_minimal

theorem deserialize_back
    (h : deserialize der f dht (serialize der f b ++ rest) = (.ok b', r))
    (hs : b'.stored = b.stored) (hlen : rest.length ≤ r.length) :
    (b.Fits ∧ (b.data = [] → SameInEitherOrder b.data_plain b.next_seal_version)) ∧ r = rest := by
  obtain ⟨base, s₁, h₁, h⟩ := Op.bind_eq_ok h
  obtain ⟨owner_key, s₂, h₂, h⟩ := Op.bind_eq_ok h
  obtain ⟨salt, s₃, h₃, h⟩ := Op.bind_eq_ok h
  obtain ⟨next, s₄, h₄, h⟩ := Op.bind_eq_ok h
  obtain ⟨data_plain, s₅, h₅, h⟩ := Op.bind_eq_ok h
  obtain ⟨signed, s₆, h₆, h⟩ := Op.bind_eq_ok h
  cases h
  simp only [stored, OKB.mk.injEq] at hs
  obtain ⟨haddress, hdata, howner, -, -, hnext, hsalt, hkey, hversion, hsignature, -, hplain, -⟩ :=
    hs
  have hbase : base = (b.address, b.data, b.owner) :=
    Prod.ext haddress (Prod.ext hdata howner)
  have hsigned : signed = (b.version, b.signature) := Prod.ext hversion hsignature
  subst hbase hkey hsalt hnext hsigned
  simp only [serialize, List.append_assoc] at h₁
  obtain ⟨hfbase, rfl⟩ := Block.serialize.back h₁
  obtain ⟨-, rfl⟩ := (f.key_hash der f.version).back h₂
  obtain ⟨hfsalt, rfl⟩ := buffer.back h₃
  have hfnext := (option int32).valid h₄
  have hfsigned := OKB._serialize.valid h₆
  by_cases hd : b.data = []
  · rw [if_pos hd] at h₄ h₅
    rw [if_pos hd, if_pos hd] at hplain
    subst hplain
    obtain ⟨used, hused, hsize⟩ := _serialize_minimal _ _ _ h₆
    simp only at hsize
    have hleft : (OKB._serialize.put (b.version, b.signature) ++ rest).length ≤ s₅.length := by
      rw [hused, List.length_append, List.length_append]
      omega
    obtain ⟨hsame, rfl⟩ := same_of_swapped h₄ h₅ hleft
    have hfplain := buffer.valid h₅
    exact ⟨⟨⟨hfbase.2.1, hfsalt, hfnext, fun _ => hfplain, hfsigned.1, hfsigned.2⟩,
      fun _ => hsame⟩, (OKB._serialize.back h₆).2⟩
  · rw [if_neg hd, List.nil_append] at h₄
    rw [if_neg hd] at h₅
    obtain ⟨-, rfl⟩ := (option int32).back h₄
    cases h₅
    exact ⟨⟨⟨hfbase.2.1, hfsalt, hfnext, fun h => absurd h hd, hfsigned.1, hfsigned.2⟩,
      fun h => absurd h hd⟩, (OKB._serialize.back h₆).2⟩

omit [DecidableEq K] in
theorem map_data_plain (b : OKB K Digest) (h : b.data_decrypted = false)
    (plain : Except Failure Buffer) : (b.decrypted plain).map OKB.data_plain = plain := by
  unfold decrypted
  rw [h]
  cases plain <;> rfl

theorem contents_restored (b : OKB K Digest) :
    (b.restored dht).contents dht = b.decryption dht := by
  unfold contents
  rw [map_data_plain _ rfl]
  rfl

theorem stored_restored (b : OKB K Digest) : (b.restored dht).stored = b.stored := by
  by_cases hd : b.data = []
  · simp [restored, stored, hd]
  · simp [restored, stored, hd]

theorem round_trips_iff : b.RoundTrips der dht ↔
    (b.Fits ∧ (b.data = [] → SameInEitherOrder b.data_plain b.next_seal_version)) ∧
      b.decryption dht = b.contents dht := by
  constructor
  · intro h
    obtain ⟨b', hread, hs, hc⟩ := h Format.bare []
    obtain ⟨hfits, -⟩ := deserialize_back hread hs (Nat.le_refl _)
    rw [deserialize_serialize hfits.1 hfits.2] at hread
    cases hread
    rw [contents_restored] at hc
    exact ⟨hfits, hc⟩
  · intro ⟨hfits, hc⟩ f rest
    refine ⟨b.restored dht, deserialize_serialize hfits.1 hfits.2 rest, b.stored_restored, ?_⟩
    rw [contents_restored, hc]

end OKB

/-! ## The laws of an ACB -/

namespace Format

omit [DecidableEq K] in
theorem public_key_minimal {f : Format K} (hf : f.versioned = false) :
    (f.public_key der).Minimal := by
  apply f.object_minimal hf
  apply Codec.convert_minimal buffer_minimal
  intro d k h
  have hle := der.shortest d k (thrown_eq_ok h)
  change (put_number (der.encode k).length ++ der.encode k).length ≤
    (put_number d.length ++ d).length
  have hmono :
      number_size (magnitude (der.encode k).length) ≤ number_size (magnitude d.length) := by
    apply number_size_mono
    rw [magnitude_eq (by omega), magnitude_eq (by omega)]
    omega
  rw [List.length_append, List.length_append, put_number_length, put_number_length]
  omega

omit [DecidableEq K] in
theorem key_or_hash_minimal {f : Format K} (hf : f.versioned = false)
    (hr : ∀ hash k, f.resolve hash ≠ .ok k) : (f.key_or_hash der).Minimal := by
  apply f.object_minimal hf
  apply Takes.bind int32_minimal
  intro index _
  unfold key_at
  split
  · rename_i hi
    rw [hi]
    apply (public_key_minimal der hf).mono
    intro s k r _
    change (int32.put 0 ++ (f.public_key der).put k).length - (int32.put 0).length ≤ _
    rw [List.length_append]
    omega
  · split
    · apply Takes.bind buffer_minimal
      intro hash _
      apply Takes.ofExcept
      intro k hk
      exact absurd (thrown_eq_ok hk) (hr hash k)
    · split
      · apply Takes.bind int32_minimal
        intro _ _
        exact Takes.throw _ _
      · exact Takes.throw _ _

omit [DecidableEq K] in
theorem acl_entry_minimal {f : Format K} (hf : f.versioned = false)
    (hr : ∀ hash k, f.resolve hash ≠ .ok k) : (f.acl_entry der).Minimal := by
  apply f.object_minimal hf
  apply Codec.convert_minimal
  · apply Codec.pair_minimal
    · unfold key_hash
      split
      · exact public_key_minimal der hf
      · exact key_or_hash_minimal der hf hr
    · exact Codec.pair_minimal bool_minimal (Codec.pair_minimal bool_minimal buffer_minimal)
  · intro p e h
    cases h
    exact Nat.le_refl _

end Format

namespace ACB

omit [DecidableEq K] in
theorem _serialize_minimal {f : Format K} (hf : f.versioned = false)
    (hr : ∀ hash k, f.resolve hash ≠ .ok k) : (ACB._serialize der f).Minimal := by
  have hentries := Codec.list_minimal (Format.acl_entry_minimal der hf hr) count_minimal
  apply Codec.convert_minimal
  · exact Codec.pair_minimal int32_minimal <| Codec.pair_minimal buffer_minimal <|
      Codec.pair_minimal hentries <| Codec.pair_minimal int32_minimal <|
      Codec.pair_minimal buffer_minimal <| Codec.pair_minimal bool_minimal <|
      Codec.pair_minimal bool_minimal <| Codec.pair_minimal hentries <|
      Codec.pair_minimal (Codec.list_minimal int32_minimal count_minimal) <|
      Codec.pair_minimal bool_minimal version_minimal
  · intro p x h
    cases h
    exact Nat.le_refl _

/-- What `_data` is decrypted to with the keys of the node. -/
def decryption (b : ACB K Digest) : Except Failure Buffer :=
  ACB._decrypt_data dht { b with owner_private_key := decide (b.owner_key = dht.keys) }

/-- What the constructor gives. -/
def restored (b : ACB K Digest) : ACB K Digest :=
  { b with toOKB := b.toOKB.restored dht, acl_changed := false, sign_key := none,
           group_part := none }

variable {der f dht} {b b' : ACB K Digest}

theorem deserialize_serialize (hf : b.toOKB.Fits)
    (ho : b.data = [] → SameInEitherOrder b.data_plain b.next_seal_version)
    (hx : b.fields.Good) (rest : Bytes) :
    deserialize der f dht (serialize der f b ++ rest) = (.ok (b.restored dht), rest) := by
  unfold deserialize serialize
  rw [List.append_assoc, Op.bind_of_ok (OKB.deserialize_serialize hf ho _),
    Op.bind_of_ok ((ACB._serialize der f).reads hx rest)]
  rfl

theorem deserialize_back
    (h : deserialize der Format.bare dht (serialize der Format.bare b) = (.ok b', []))
    (hs : b'.toOKB.stored = b.toOKB.stored) (hx : b'.fields = b.fields) :
    (b.toOKB.Fits ∧ (b.data = [] → SameInEitherOrder b.data_plain b.next_seal_version)) ∧
      b.fields.Good := by
  obtain ⟨okb, s₁, h₁, h⟩ := Op.bind_eq_ok h
  obtain ⟨x, s₂, h₂, h⟩ := Op.bind_eq_ok h
  cases h
  have hfields : x = b.fields := hx
  subst hfields
  have hgood := (ACB._serialize der Format.bare).valid h₂
  obtain ⟨used, hused, hsize⟩ := _serialize_minimal der rfl Format.bare_resolve _ _ _ h₂
  have hlen : ((ACB._serialize der Format.bare).put b.fields).length ≤ s₁.length := by
    rw [hused, List.length_append]
    exact Nat.le_trans hsize (Nat.le_add_right _ _)
  exact ⟨(OKB.deserialize_back h₁ hs hlen).1, hgood⟩

theorem contents_restored (b : ACB K Digest) :
    (b.restored dht).contents dht = b.decryption dht := by
  unfold contents
  rw [OKB.map_data_plain _ rfl]
  rfl

theorem round_trips_iff : b.RoundTrips der dht ↔
    ((b.toOKB.Fits ∧ (b.data = [] → SameInEitherOrder b.data_plain b.next_seal_version)) ∧
      b.fields.Good) ∧ b.decryption dht = b.contents dht := by
  constructor
  · intro h
    obtain ⟨b', hread, hs, hx, hc⟩ := h Format.bare []
    rw [List.append_nil] at hread
    have hfits := deserialize_back hread hs hx
    have hback : deserialize der .bare dht (serialize der .bare b ++ []) =
        (.ok (b.restored dht), []) := deserialize_serialize hfits.1.1 hfits.1.2 hfits.2 []
    rw [List.append_nil, hread] at hback
    cases hback
    rw [contents_restored] at hc
    exact ⟨hfits, hc⟩
  · intro ⟨hfits, hc⟩ f rest
    refine ⟨b.restored dht, deserialize_serialize hfits.1.1 hfits.1.2 hfits.2 rest, ?_, rfl, ?_⟩
    · exact OKB.stored_restored b.toOKB
    · rw [contents_restored, hc]

end ACB

/-- A block is read back as it was, with the same data, exactly when its numbers and sizes are
`int`s, when its plain data and its next version, if both are written, may be swapped, and when its
data is what the node decrypts. -/
theorem a_block_is_read_back_when_no_field_is_swapped :
    (∀ b : OKB K Digest, b.RoundTrips der dht ↔
      (b.Fits ∧ (b.data = [] → SameInEitherOrder b.data_plain b.next_seal_version)) ∧
        b.decryption dht = b.contents dht) ∧
    ∀ b : ACB K Digest, b.RoundTrips der dht ↔
      ((b.toOKB.Fits ∧ (b.data = [] → SameInEitherOrder b.data_plain b.next_seal_version)) ∧
        b.fields.Good) ∧ b.decryption dht = b.contents dht :=
  ⟨fun _ => OKB.round_trips_iff, fun _ => ACB.round_trips_iff⟩

end

/-- Keys of one byte. -/
def byte_der : Der UInt8 where
  encode k := [k]
  decode
    | [k] => .ok k
    | _ => .error "not a key"
  decode_encode _ := rfl
  encode_length k := by simp
  shortest d k h := by
    cases d with
    | nil => cases h
    | cons c d => simp

def byte_ciphers : Ciphers UInt8 UInt8 Digest where
  sign _ key _ := [key]
  verify key sig _ := sig = [key]
  encrypt _ key b := key :: b
  decrypt _ key b := if b.head? = some key then .ok b.tail else .error "wrong key"
  secret_buffer _ s := [s]
  secret_of _ b := if b.length = 1 then .ok (b.headD 0) else .error "not a secret"
  encipher s b := s :: b
  decipher s b := if b.head? = some s then .ok b.tail else .error "wrong secret"
  hash _ _ := (⟨List.replicate 31 0, List.length_replicate⟩, 0)
  show_address _ := "address"
  show_key _ := "key"

def byte_node : Dht UInt8 UInt8 Digest where
  keys := 1
  version := ⟨0, 8, 0⟩
  validate_signatures := true
  token_encrypt := true
  admin_keys := ⟨[], [], [], []⟩
  group _ := .error "missing block"
  ciphers := byte_ciphers

/-- A block of the node after `decrypt()`, which leaves its data in plain alone. -/
def decrypted_block : OKB UInt8 Digest where
  address := Address.null
  data := []
  owner := Address.null
  validated := false
  data_changed := true
  next_seal_version := none
  salt := []
  owner_key := 1
  version := 0
  signature := [1]
  owner_private_key := true
  data_plain := [7]
  data_decrypted := true

/-- The size of the plain data is read as the presence of a next version. -/
theorem a_decrypted_block_is_not_read_back :
    ¬OKB.RoundTrips byte_der byte_node decrypted_block := by
  intro h
  obtain ⟨⟨-, hsame⟩, -⟩ := OKB.round_trips_iff.1 h
  obtain ⟨hplain, -⟩ | ⟨p, v, -, hnext, -⟩ := hsame rfl
  · cases hplain
  · cases hnext

end memo
