-- Who removes an immutable block: `CHB::sign_remove`, which finds the key that gives access to
-- the owner of the block, against `CHB::_validate_remove`, which looks for the key it is given.
import Memo.HostileBlocks
import Memo.Members

namespace memo

section

variable {K S H : Type} [DecidableEq K] {dht dht' : Dht K S H} {acb : ACB K H}

/-! ## The code -/

/-- What `_fetch` gives: what is stored, and else `MissingBlock`. -/
def stored_fetch (dht : Dht K S H) (stored : Address H → Option (MutableBlock K H))
    (address : Address H) : Except String (Option (MutableBlock K H)) :=
  match stored address with
  | some b => .ok (some b)
  | none => .error ("missing block: " ++ dht.ciphers.show_address address)

/-- The search of a group to sign with: the first one that lets us read its key. -/
def signing_group (dht : Dht K S H) :
    List (ACLEntry K) → Except Failure (Option (ACLEntry K × Group K × K))
  | [] => .ok none
  | e :: es =>
    match dht.group e.key with
    | .error _ => signing_group dht es
    | .ok g => do
      match ← g.current_key with
      | some key => pure (some (e, g, key))
      | none => signing_group dht es

/-- The first entry of a user may write. -/
def may_write (key : K) (entries : List (ACLEntry K)) : Bool :=
  match find_entry key entries with
  | some (_, e) => e.write
  | none => false

/-- `CHB::sign_remove`. -/
def CHB.sign_remove (dht : Dht K S H) (net : Network K H) (sign : K → Address H → Buffer)
    (chb owner : Address H) : Except Failure (RemoveSignature K) := do
  let own : RemoveSignature K := ⟨none, none, some dht.keys, some (sign dht.keys chb)⟩
  match ← raised (net.fetch owner) with
  | some (.acb acb) =>
    if acb.group_part.isSome then pure own
    else if acb.owner_key = dht.keys then pure own
    else if may_write dht.keys acb.acl_entries then pure own
    else
      match ← signing_group dht acb.acl_group_entries with
      | some (e, g, key) => pure ⟨some e.key, some (g.version - 1), some key, some (sign key chb)⟩
      | none => pure own
  | _ => pure own

/-- `CHB::_sign_remove`. -/
def CHB._sign_remove (dht : Dht K S H) (net : Network K H) (sign : K → Address H → Buffer)
    (chb : CHB H) : Except Failure (RemoveSignature K) :=
  match chb.owner with
  | some owner => sign_remove dht net sign chb.address owner
  | none => .ok ⟨none, none, none, none⟩

/-! ## Rights -/

/-- Who may write the owner block: the world, its owner, a user or a group whose entry says so. -/
def Writer (dht : Dht K S H) (acb : ACB K H) : Prop :=
  acb.world_writable = true ∨ acb.owner_key = dht.keys ∨
    (∃ e ∈ acb.acl_entries, e.key = dht.keys ∧ e.write = true) ∨
    ∃ e ∈ acb.acl_group_entries, e.write = true ∧ is_member dht e.key = true

/-- Who writes it with the first right that is looked at. -/
def FirstWriter (dht : Dht K S H) (acb : ACB K H) : Prop :=
  acb.world_writable = true ∨ acb.owner_key = dht.keys ∨
    may_write dht.keys acb.acl_entries = true ∨
    ∃ e, acb.acl_group_entries.find? (fun e => is_member dht e.key) = some e ∧ e.write = true

/-- A key of a group that may write, of any version. -/
def GroupKey (dht : Dht K S H) (acb : ACB K H) (key : K) : Prop :=
  ∃ group_key g, may_write group_key acb.acl_group_entries = true ∧
    dht.group group_key = .ok g ∧ key ∈ g.public_keys

/-- A signature is valid for the key that made it and for what it was made of, and for no other. -/
def SignsAlone [DecidableEq H] (verify : K → Buffer → Address H → Bool)
    (sign : K → Address H → Buffer) : Prop :=
  ∀ key key' address address',
    verify key (sign key' address') address = decide (key = key' ∧ address = address')

/-- The keys of groups are generated: none is one of a user. `former` are keys of groups. -/
structure Generated (dht dht' : Dht K S H) (acb : ACB K H) (former : List K) : Prop where
  owner : ∀ key g, dht'.group key = .ok g → acb.owner_key ∉ g.public_keys
  own : ∀ key g, dht'.group key = .ok g → dht.keys ∉ g.public_keys
  former : ∀ key ∈ former, key ≠ acb.owner_key ∧ ∀ e ∈ acb.acl_entries, e.key ≠ key

/-- What the nodes fetch, when the owner of a block is stored, or not. -/
def owned (dht : Dht K S H) (verify : K → Buffer → Address H → Bool) (stored : Option (ACB K H)) :
    Network K H where
  verify := verify
  fetch := stored_fetch dht fun _ => stored.map MutableBlock.acb

/-- The removal that a node signs is accepted by another one. -/
def Removes (dht dht' : Dht K S H) (verify : K → Buffer → Address H → Bool)
    (sign : K → Address H → Buffer) (chb : CHB H) (stored : Option (ACB K H)) : Prop :=
  ∃ sig, chb._sign_remove dht (owned dht verify stored) sign = .ok sig ∧
    chb._validate_remove dht' (owned dht' verify stored) sig = .ok .success

/-- Writers of the owner block, and anyone if there is none, can remove; a user who may not write,
and still holds former keys of groups, can not. -/
def RemovalRights (dht dht' : Dht K S H) (verify : K → Buffer → Address H → Bool)
    (sign : K → Address H → Buffer) (chb : CHB H) (stored : Option (ACB K H)) (former : List K) :
    Prop :=
  match stored with
  | none => Removes dht dht' verify sign chb none
  | some acb =>
    (Writer dht acb → Removes dht dht' verify sign chb (some acb)) ∧
      (¬ Writer dht acb → ∀ key ∈ dht.keys :: former, ∀ address sig,
        sig.signature = some (sign key address) →
          chb._validate_remove dht' (owned dht' verify (some acb)) sig ≠ .ok .success)

/-! ## What is fetched -/

theorem exists_of_may_write {key : K} {entries : List (ACLEntry K)}
    (h : may_write key entries = true) : ∃ e ∈ entries, e.key = key ∧ e.write = true := by
  unfold may_write at h
  split at h
  · rename_i i e hf
    obtain ⟨hi, hk⟩ := find_entry_some hf
    exact ⟨e, List.mem_of_getElem? hi, hk, h⟩
  · cases h

/-! ## The validation -/

variable {verify : K → Buffer → Address H → Bool} {sign : K → Address H → Buffer} {chb : CHB H}
  {owner : Address H} {sig : RemoveSignature K} {key : K}

theorem removes_user (h : sig.group_key = none) :
    removes dht acb key sig = .ok (may_write key acb.acl_entries) := by
  cases hf : find_entry key acb.acl_entries with
  | none => simp [removes, may_write, h, hf]
  | some p => simp [removes, may_write, h, hf]

theorem removes_group {group_key : K} (h : sig.group_key = some group_key) :
    removes dht acb key sig = .ok true ↔
      may_write group_key acb.acl_group_entries = true ∧ ∃ g, dht.group group_key = .ok g ∧
        ∃ i, sig.group_index = some i ∧ 0 ≤ i ∧ g.public_keys[i.toNat]? = some key := by
  simp only [removes, may_write, h]
  cases hf : find_entry group_key acb.acl_group_entries with
  | none => simp
  | some p =>
    obtain ⟨j, e⟩ := p
    cases hw : e.write with
    | false => simp [hw]
    | true =>
      simp only [hw, if_true, true_and]
      unfold group_removes
      cases hg : dht.group group_key with
      | error what => simp [raised, bind, Except.bind]
      | ok g =>
        simp only [raised, bind, Except.bind, Except.ok.injEq, exists_eq_left']
        cases hi : sig.group_index with
        | none => simp
        | some i =>
          simp only [Option.some.injEq, exists_eq_left']
          by_cases hlt : i < g.public_keys.length
          · rw [if_pos hlt]
            cases hx : index g.public_keys i with
            | error what =>
              simp only [reduceCtorEq, false_iff]
              intro hk
              rw [index_ok.mpr hk] at hx
              cases hx
            | ok pub =>
              obtain ⟨h0, hpub⟩ := index_ok.mp hx
              simp [pure, Except.pure, h0, hpub]
          · rw [if_neg hlt]
            have hnone : 0 ≤ i → g.public_keys[i.toNat]? = none := fun h0 =>
              List.getElem?_eq_none (by omega)
            simp only [pure, Except.pure, Except.ok.injEq, Bool.false_eq_true, false_iff]
            rintro ⟨h0, hk⟩
            rw [hnone h0] at hk
            cases hk

theorem validate_remove_iff (ho : chb.owner = some owner) (hp : acb.group_part = none) :
    chb._validate_remove dht (owned dht verify (some acb)) sig = .ok .success ↔
      ∃ key signature, sig.signature_key = some key ∧ sig.signature = some signature ∧
        verify key signature chb.address = true ∧
          (acb.world_writable = true ∨ acb.owner_key = key ∨
            removes dht acb key sig = .ok true) := by
  unfold CHB._validate_remove
  rw [ho]
  cases hk : sig.signature_key with
  | none => simp
  | some key =>
    cases hs : sig.signature with
    | none => simp
    | some signature =>
      simp only [Option.some.injEq]
      cases hv : verify key signature chb.address with
      | false => simp [owned, hv]
      | true =>
        simp only [owned, hv, stored_fetch, Option.map_some, raised, bind, Except.bind, hp,
          Bool.not_true, Bool.false_eq_true, if_false, Option.isSome_none]
        unfold CHB.validate_owner
        cases hw : acb.world_writable with
        | true => simp [hv]
        | false =>
          by_cases heq : acb.owner_key = key
          · simp [heq, hv]
          · simp only [Bool.false_eq_true, if_false, if_neg heq, false_or]
            cases hr : removes dht acb key sig with
            | error what => simp [bind, Except.bind, heq, hr]
            | ok allowed =>
              cases allowed <;> simp [bind, Except.bind, pure, Except.pure, hv, heq, hr]

/-! ## The search of a group -/

omit [DecidableEq K] in
theorem signing_group_eq (h : Keyed dht) (entries : List (ACLEntry K)) :
    match entries.find? (fun e => is_member dht e.key) with
    | none => signing_group dht entries = .ok none
    | some e => ∃ g key, dht.group e.key = .ok g ∧ g.public_keys.getLast? = some key ∧
        signing_group dht entries = .ok (some (e, g, key)) := by
  induction entries with
  | nil => rfl
  | cons e es ih =>
    cases hm : is_member dht e.key with
    | true =>
      simp only [List.find?_cons, hm]
      obtain ⟨g, keys, hg, -⟩ := is_member_iff.mp hm
      have hkey := current_key_member h hg
      obtain ⟨key, hlast⟩ := Option.isSome_iff_exists.mp (isSome_last (h e.key g hg).1)
      rw [if_pos hm, hlast] at hkey
      refine ⟨g, key, hg, hlast, ?_⟩
      simp only [signing_group, hg, hkey, bind, Except.bind]
      rfl
    | false =>
      simp only [List.find?_cons, hm]
      have hskip : signing_group dht (e :: es) = signing_group dht es := by
        cases hg : dht.group e.key with
        | error what => simp only [signing_group, hg]
        | ok g =>
          have hkey := current_key_member h hg
          rw [if_neg (by simp [hm])] at hkey
          simp only [signing_group, hg, hkey, bind, Except.bind]
      rw [hskip]
      exact ih

theorem may_write_first {entries : List (ACLEntry K)} {e : ACLEntry K}
    (h : entries.find? (fun e => is_member dht e.key) = some e) :
    may_write e.key entries = e.write := by
  have hm : is_member dht e.key = true := by simpa using List.find?_some h
  have hfind : ∃ i, find_entry e.key entries = some (i, e) := by
    induction entries with
    | nil => cases h
    | cons a es ih =>
      unfold find_entry
      cases ha : is_member dht a.key with
      | true =>
        simp only [List.find?_cons, ha, Option.some.injEq] at h
        exact ⟨0, by rw [if_pos (by rw [h]), h]⟩
      | false =>
        simp only [List.find?_cons, ha] at h
        have hne : a.key ≠ e.key := fun heq => by
          rw [heq, hm] at ha
          cases ha
        obtain ⟨i, hi⟩ := ih h
        exact ⟨i + 1, by rw [if_neg hne, hi]; rfl⟩
  obtain ⟨i, hi⟩ := hfind
  unfold may_write
  rw [hi]

omit [DecidableEq K] in
theorem last_key {l l' : List K} (hlast : l.getLast? = some key) (hp : l <+: l') :
    0 ≤ (l.length : Int) - 1 ∧ l'[((l.length : Int) - 1).toNat]? = some key := by
  obtain ⟨front, rfl⟩ := List.getLast?_eq_some_iff.mp hlast
  obtain ⟨back, rfl⟩ := hp
  have hlength : ((front ++ [key]).length : Int) - 1 = front.length := by
    rw [List.length_append, List.length_singleton]
    omega
  rw [hlength]
  exact ⟨Int.natCast_nonneg _, by simp⟩

/-! ## Signer and validation -/

variable {former : List K}

theorem own_accepted_iff [DecidableEq H] (hsign : SignsAlone verify sign)
    (ho : chb.owner = some owner) (hp : acb.group_part = none) :
    chb._validate_remove dht' (owned dht' verify (some acb))
        ⟨none, none, some key, some (sign key chb.address)⟩ = .ok .success ↔
      acb.world_writable = true ∨ acb.owner_key = key ∨ may_write key acb.acl_entries = true := by
  have hv : verify key (sign key chb.address) chb.address = true := by simp [hsign _ _ _ _]
  rw [validate_remove_iff ho hp]
  constructor
  · rintro ⟨key', signature, hk, hs, -, hright⟩
    cases hk
    rw [removes_user rfl, Except.ok.injEq] at hright
    exact hright
  · intro hright
    refine ⟨key, _, rfl, rfl, hv, ?_⟩
    rw [removes_user rfl, Except.ok.injEq]
    exact hright

theorem group_accepted_iff [DecidableEq H] {g : Group K} {e : ACLEntry K}
    (hsign : SignsAlone verify sign)
    (hseen : SeenBy dht dht') (hgen : Generated dht dht' acb former)
    (ho : chb.owner = some owner) (hp : acb.group_part = none) (hg : dht.group e.key = .ok g)
    (hlast : g.public_keys.getLast? = some key) :
    chb._validate_remove dht' (owned dht' verify (some acb))
        ⟨some e.key, some (g.version - 1), some key, some (sign key chb.address)⟩ = .ok .success ↔
      acb.world_writable = true ∨ may_write e.key acb.acl_group_entries = true := by
  have hv : verify key (sign key chb.address) chb.address = true := by simp [hsign _ _ _ _]
  obtain ⟨g', hg', hprefix⟩ := hseen e.key g hg
  obtain ⟨h0, hindex⟩ := last_key hlast hprefix
  rw [validate_remove_iff ho hp]
  constructor
  · rintro ⟨key', signature, hk, hs, -, hw | howner | hright⟩
    · exact Or.inl hw
    · cases hk
      exact absurd (howner ▸ List.mem_of_getElem? hindex) (hgen.owner e.key g' hg')
    · exact Or.inr ((removes_group rfl).mp hright).1
  · rintro (hw | hw)
    · exact ⟨key, _, rfl, rfl, hv, Or.inl hw⟩
    · refine ⟨key, _, rfl, rfl, hv, Or.inr (Or.inr ((removes_group rfl).mpr ⟨hw, g', hg', ?_⟩))⟩
      exact ⟨_, rfl, h0, hindex⟩

theorem removes_iff [DecidableEq H] (hsign : SignsAlone verify sign) (hkeyed : Keyed dht)
    (hseen : SeenBy dht dht') (hgen : Generated dht dht' acb former)
    (ho : chb.owner = some owner) (hp : acb.group_part = none) :
    Removes dht dht' verify sign chb (some acb) ↔ FirstWriter dht acb := by
  have howned : raised ((owned dht verify (some acb)).fetch owner) = .ok (some (.acb acb)) := rfl
  unfold Removes FirstWriter CHB._sign_remove
  simp only [ho, CHB.sign_remove, howned, bind, Except.bind, hp, Option.isSome_none,
    Bool.false_eq_true, if_false]
  by_cases hk : acb.owner_key = dht.keys
  · simp only [if_pos hk, pure, Except.pure, Except.ok.injEq, exists_eq_left']
    rw [own_accepted_iff hsign ho hp]
    simp [hk]
  · simp only [if_neg hk]
    by_cases hw : may_write dht.keys acb.acl_entries = true
    · simp only [if_pos hw, pure, Except.pure, Except.ok.injEq, exists_eq_left']
      rw [own_accepted_iff hsign ho hp]
      simp [hw]
    · simp only [if_neg hw]
      have hsigning := signing_group_eq hkeyed acb.acl_group_entries
      cases hfind : acb.acl_group_entries.find? (fun e => is_member dht e.key) with
      | none =>
        rw [hfind] at hsigning
        simp only [hsigning, pure, Except.pure, Except.ok.injEq, exists_eq_left']
        rw [own_accepted_iff hsign ho hp]
        simp [hk, hw]
      | some e =>
        rw [hfind] at hsigning
        obtain ⟨g, key, hg, hlast, hsigning⟩ := hsigning
        simp only [hsigning, pure, Except.pure, Except.ok.injEq, exists_eq_left']
        rw [group_accepted_iff hsign hseen hgen ho hp hg hlast, may_write_first hfind]
        simp [hk, hw]

theorem rejects_iff [DecidableEq H] (hsign : SignsAlone verify sign)
    (hgen : Generated dht dht' acb former)
    (ho : chb.owner = some owner) (hp : acb.group_part = none) (hwriter : ¬ Writer dht acb) :
    (∀ key ∈ dht.keys :: former, ∀ address sig, sig.signature = some (sign key address) →
        chb._validate_remove dht' (owned dht' verify (some acb)) sig ≠ .ok .success) ↔
      ∀ key ∈ former, ¬ GroupKey dht' acb key := by
  constructor
  · rintro hall key hkey ⟨group_key, g, hw, hg, hmem⟩
    obtain ⟨i, hi, hget⟩ := List.getElem_of_mem hmem
    refine hall key (List.mem_cons_of_mem _ hkey) chb.address
      ⟨some group_key, some i, some key, some (sign key chb.address)⟩ rfl ?_
    rw [validate_remove_iff ho hp]
    refine ⟨key, _, rfl, rfl, by simp [hsign _ _ _ _], Or.inr (Or.inr ?_)⟩
    refine (removes_group rfl).mpr ⟨hw, g, hg, i, rfl, Int.natCast_nonneg i, ?_⟩
    rw [Int.toNat_natCast, List.getElem?_eq_getElem hi, hget]
  · intro hall key hkey address sig hsig haccepted
    obtain ⟨key', signature, -, hs, hv, hright⟩ := (validate_remove_iff ho hp).mp haccepted
    rw [hsig, Option.some.injEq] at hs
    rw [← hs, hsign, decide_eq_true_eq] at hv
    obtain ⟨rfl, -⟩ := hv
    have hself : key' ∈ former → key' ≠ acb.owner_key ∧ ∀ e ∈ acb.acl_entries, e.key ≠ key' :=
      hgen.former key'
    rw [List.mem_cons] at hkey
    rcases hright with hw | howner | hright
    · exact hwriter (Or.inl hw)
    · rcases hkey with rfl | hkey
      · exact hwriter (Or.inr (Or.inl howner))
      · exact (hself hkey).1 howner.symm
    · cases hgroup : sig.group_key with
      | none =>
        rw [removes_user hgroup, Except.ok.injEq] at hright
        obtain ⟨e, hmem, hek, hw⟩ := exists_of_may_write hright
        rcases hkey with rfl | hkey
        · exact hwriter (Or.inr (Or.inr (Or.inl ⟨e, hmem, hek, hw⟩)))
        · exact (hself hkey).2 e hmem hek
      | some group_key =>
        obtain ⟨hw, g, hg, i, -, -, hindex⟩ := (removes_group hgroup).mp hright
        rcases hkey with rfl | hkey
        · exact hgen.own group_key g hg (List.mem_of_getElem? hindex)
        · exact hall key' hkey ⟨group_key, g, hw, hg, List.mem_of_getElem? hindex⟩

theorem no_owner_no_removal (ho : chb.owner = some owner) :
    ¬ Removes dht dht' verify sign chb none := by
  rintro ⟨sig, hsig, -⟩
  unfold CHB._sign_remove at hsig
  rw [ho] at hsig
  cases hsig

/-- Writers of the owner block, and they alone, remove a block, when and only when the owner block
is there, the first right that the signer looks at is one to write, and who may not write holds
no key of a group that may. -/
theorem removal_rights_iff [DecidableEq H] (hsign : SignsAlone verify sign) (hkeyed : Keyed dht)
    (hseen : SeenBy dht dht') (ho : chb.owner = some owner) {stored : Option (ACB K H)}
    (hstored : ∀ acb ∈ stored, acb.group_part = none ∧ Generated dht dht' acb former) :
    RemovalRights dht dht' verify sign chb stored former ↔
      ∃ acb, stored = some acb ∧ (Writer dht acb → FirstWriter dht acb) ∧
        (¬ Writer dht acb → ∀ key ∈ former, ¬ GroupKey dht' acb key) := by
  cases stored with
  | none =>
    simp only [reduceCtorEq, false_and, exists_false, iff_false]
    exact no_owner_no_removal ho
  | some acb =>
    obtain ⟨hp, hgen⟩ := hstored acb rfl
    simp only [Option.some.injEq, exists_eq_left']
    have hremoves : (Writer dht acb → Removes dht dht' verify sign chb (some acb)) ↔
        (Writer dht acb → FirstWriter dht acb) :=
      forall_congr' fun _ => removes_iff hsign hkeyed hseen hgen ho hp
    exact and_congr hremoves (forall_congr' fun h => rejects_iff hsign hgen ho hp h)

end

/-- A user of two groups, with a key each. -/
def of_two_groups (key : UInt8) : Dht UInt8 UInt8 UInt8 :=
  { member key with
    group := fun k =>
      if k = 8 then .ok ⟨[30], .ok [30]⟩
      else if k = 9 then .ok ⟨[20], .ok [20]⟩
      else .error "missing block" }

def plain_sign (key : UInt8) (address : Address UInt8) : Buffer :=
  [key, address.value, address.flag_byte]

def plain_verify (key : UInt8) (signature : Buffer) (address : Address UInt8) : Bool :=
  signature = plain_sign key address

theorem plain_signs_alone : SignsAlone plain_verify plain_sign := by
  intro key key' address address'
  rw [plain_verify, plain_sign, plain_sign, decide_eq_decide]
  constructor
  · intro h
    cases address
    cases address'
    cases h
    exact ⟨rfl, rfl⟩
  · rintro ⟨rfl, rfl⟩
    rfl

theorem of_two_groups_cases {key k : UInt8} {g : Group UInt8}
    (h : (of_two_groups key).group k = .ok g) :
    k = 8 ∧ g = ⟨[30], .ok [30]⟩ ∨ k = 9 ∧ g = ⟨[20], .ok [20]⟩ := by
  simp only [of_two_groups] at h
  split_ifs at h with h8 h9
  · exact Or.inl ⟨h8, (Except.ok.inj h).symm⟩
  · exact Or.inr ⟨h9, (Except.ok.inj h).symm⟩

theorem of_two_groups_keyed (key : UInt8) : Keyed (of_two_groups key) := by
  intro k g hg
  rcases of_two_groups_cases hg with ⟨-, rfl⟩ | ⟨-, rfl⟩ <;> simp [eq_comm]

theorem of_two_groups_seen (key key' : UInt8) : SeenBy (of_two_groups key) (of_two_groups key') :=
  fun _ g hg => ⟨g, hg, List.prefix_rfl⟩

theorem edited_generated (groups : List (ACLEntry UInt8)) :
    Generated (of_two_groups 7) (of_two_groups 3)
      { edited [] with acl_group_entries := groups } [20] := by
  constructor
  · intro k g hg
    rcases of_two_groups_cases hg with ⟨-, rfl⟩ | ⟨-, rfl⟩ <;> simp [edited]
  · intro k g hg
    rcases of_two_groups_cases hg with ⟨-, rfl⟩ | ⟨-, rfl⟩ <;> simp [of_two_groups, member]
  · simp [edited]

/-- A block of a group that may write, and of one that may read. -/
theorem removal_rights_first_group :
    RemovalRights (of_two_groups 7) (of_two_groups 3) plain_verify plain_sign ⟨⟨2, 0⟩, some ⟨1, 0⟩⟩
      (some { edited [] with acl_group_entries := [⟨8, true, true, []⟩, ⟨9, true, false, []⟩] })
      [20] := by
  refine (removal_rights_iff plain_signs_alone (of_two_groups_keyed 7) (of_two_groups_seen 7 3) rfl
    ?_).mpr ⟨_, rfl, ?_, ?_⟩
  · intro acb hacb
    cases hacb
    exact ⟨rfl, edited_generated _⟩
  · exact fun _ => Or.inr (Or.inr (Or.inr ⟨_, rfl, rfl⟩))
  · intro hwriter
    exact absurd (Or.inr (Or.inr (Or.inr ⟨_, List.mem_cons_self, rfl, by decide⟩))) hwriter

/-- The group that may read comes first: its member signs with its key, and not with the one of the
group that may write. -/
theorem a_reading_group_hides_a_writing_one :
    ¬ ∀ (dht dht' : Dht UInt8 UInt8 UInt8) (verify : UInt8 → Buffer → Address UInt8 → Bool)
      (sign : UInt8 → Address UInt8 → Buffer) (chb : CHB UInt8) (owner : Address UInt8)
      (former : List UInt8) (stored : Option (ACB UInt8 UInt8)),
      SignsAlone verify sign → Keyed dht → SeenBy dht dht' → chb.owner = some owner →
      (∀ acb ∈ stored, acb.group_part = none ∧ Generated dht dht' acb former) →
      RemovalRights dht dht' verify sign chb stored former := by
  intro h
  have hrights := h (of_two_groups 7) (of_two_groups 3) plain_verify plain_sign
    ⟨⟨2, 0⟩, some ⟨1, 0⟩⟩ ⟨1, 0⟩ [20]
    (some { edited [] with acl_group_entries := [⟨9, true, false, []⟩, ⟨8, true, true, []⟩] })
    plain_signs_alone (of_two_groups_keyed 7) (of_two_groups_seen 7 3) rfl
    (by intro acb hacb; cases hacb; exact ⟨rfl, edited_generated _⟩)
  have hremoves := hrights.1
    (Or.inr (Or.inr (Or.inr ⟨_, List.mem_cons_of_mem _ List.mem_cons_self, rfl, by decide⟩)))
  rcases (removes_iff plain_signs_alone (of_two_groups_keyed 7) (of_two_groups_seen 7 3)
    (edited_generated _) rfl rfl).mp hremoves with hw | hk | hw | ⟨e, he, hw⟩
  · cases hw
  · revert hk
    decide
  · cases hw
  · cases he
    cases hw

end memo
