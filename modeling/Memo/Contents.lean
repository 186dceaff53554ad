-- What a block says through all that its owner does to its permissions. The
-- stored data is in clear or enciphered, as the world may read it or not; the
-- tokens of the readers hold the secret. A run of calls keeps the plain text as
-- long as each seal finds the data at hand, or finds it stored as its flags say.
import Memo.Sealing

open ops

namespace memo

section

variable {K S H : Type} [DecidableEq K] {dht : Dht K S H} {b b' : ACB K H}

/-- To decrypt undoes to encrypt, for keys, secrets and data. What is encrypted is not empty. -/
structure Ciphers.Inverse (c : Ciphers K S H) : Prop where
  decrypt_encrypt : ∀ u k b, c.decrypt u k (c.encrypt u k b) = .ok b
  encrypt_ne_nil : ∀ u k b, c.encrypt u k b ≠ []
  secret_of_buffer : ∀ v s,
    c.secret_of (decide ((⟨0, 7, 0⟩ : elle.Version) ≤ v)) (c.secret_buffer v s) = .ok s
  secret_ne_nil : ∀ v s, c.secret_buffer v s ≠ []
  decipher_encipher : ∀ s b, c.decipher s (c.encipher s b) = .ok b

namespace ACB

/-! ## What a block holds -/

/-- Each group has its recorded version. -/
structure Sized (b : ACB K H) : Prop where
  size : b.group_version.length = b.acl_group_entries.length
  versions : ∀ v ∈ b.group_version, 0 ≤ v

/-- The owner can read the secret of the block, and the stored data is the plain text: in clear
when it was written for the world to read, else enciphered with the secret. -/
structure Sealed (dht : Dht K S H) (readable : Bool) (b : ACB K H) (secret : Buffer) (key : S)
    (plain : Buffer) : Prop where
  token : dht.ciphers.decrypt b.use_encrypt b.owner_key b.owner_token = .ok secret
  filled : secret ≠ []
  key_of : dht.ciphers.secret_of b.use_encrypt secret = .ok key
  content : if readable then b.data = plain else dht.ciphers.decipher key b.data = .ok plain

/-- A block of which we are the owner, that holds a plain text. -/
structure Holds (dht : Dht K S H) (readable : Bool) (b : ACB K H) (plain : Buffer) : Prop where
  owner : b.owner_private_key = true
  pushed : b.owner_token ≠ []
  sized : b.Sized
  stored : ∃ secret key, Sealed dht readable b secret key plain

/-- The token of a group opens to the secret, with the key of the group at a version. -/
def Opens (dht : Dht K S H) (use_encrypt : Bool) (e : ACLEntry K) (v : Int) (secret : Buffer) :
    Prop :=
  ∃ g k, dht.group e.key = .ok g ∧ 0 ≤ v ∧ g.public_keys[v.toNat]? = some k ∧
    dht.ciphers.decrypt use_encrypt k e.token = .ok secret

/-- The tokens of who may read open to the secret of the block, and also those of some users and
groups. -/
structure Tokens (dht : Dht K S H) (users groups : List K) (b : ACB K H) (secret : Buffer) :
    Prop where
  users : ∀ e ∈ b.acl_entries, e.read = true ∨ e.key ∈ users →
    dht.ciphers.decrypt b.use_encrypt e.key e.token = .ok secret
  groups : ∀ (i : Nat) (e : ACLEntry K), b.acl_group_entries[i]? = some e →
    e.read = true ∨ e.key ∈ groups →
    ∃ v, b.group_version[i]? = some v ∧ Opens dht b.use_encrypt e v secret

variable {plain : Buffer} {key : S} {u : Bool} {k : K} {m : ACB K H} {groups users : List K}

theorem decrypt_data_of (dht : Dht K S H) (b : ACB K H) (found : Buffer) {secret : Buffer}
    (hw : b.world_readable = false) (hfirst : (if b.owner_private_key then
        raised (dht.ciphers.decrypt b.use_encrypt b.owner_key b.owner_token)
      else user_secret dht b.use_encrypt b.acl_entries [] : Except Failure Buffer) = .ok found)
    (hgroups : (if found = [] then
        group_secret dht b.use_encrypt b.group_version 0 b.acl_group_entries []
      else .ok found : Except Failure Buffer) = .ok secret) (hfilled : secret ≠ [])
    (hkey : dht.ciphers.secret_of b.use_encrypt secret = .ok key)
    (hdata : dht.ciphers.decipher key b.data = .ok plain) :
    b._decrypt_data dht = .ok plain := by
  unfold _decrypt_data
  rw [if_neg (by simp [hw]), hfirst]
  simp only [bind, Except.bind]
  rw [hgroups]
  simp only [if_neg hfilled, hkey, raised, hdata]

theorem Sealed.decrypted {readable : Bool} {secret : Buffer}
    (h : Sealed dht readable b secret key plain) (ho : b.owner_private_key = true)
    (hr : b.world_readable = readable) : b._decrypt_data dht = .ok plain := by
  have hc := h.content
  cases readable with
  | true =>
    rw [if_pos rfl] at hc
    unfold _decrypt_data
    rw [if_pos hr, hc]
  | false =>
    rw [if_neg (by decide)] at hc
    apply decrypt_data_of dht b secret hr _ (if_neg h.filled) h.filled h.key_of hc
    rw [if_pos ho, h.token]
    rfl

/-! ## What a reader gets -/

/-- The block as a node gets it from the storage: not decrypted, not validated, with the private key
of the owner for the owner alone. Data that was stored empty counts as changed. -/
def fetched (dht : Dht K S H) (b : ACB K H) : ACB K H :=
  { b with validated := false, data_changed := decide (b.data = []), acl_changed := false,
           owner_private_key := decide (b.owner_key = dht.keys),
           data_plain := if b.data = [] then b.data_plain else [], data_decrypted := false,
           sign_key := none }

/-- The key of the group of an entry that a node holds, at the version that is recorded. -/
def member_key (dht : Dht K S H) (group_version : List Int) (i : Nat) (e : ACLEntry K) :
    Option K :=
  match dht.group e.key, group_version[i]? with
  | .ok g, some v =>
    match g.group_keys with
    | .ok keys => keys[v.toNat]?
    | .error _ => none
  | _, _ => none

/-- Who reads: the world, the owner, a user whose entries may all read, and who has no entry and
is in groups, the last of which in the list may read. -/
def Reader (dht : Dht K S H) (b : ACB K H) : Prop :=
  b.world_readable = true ∨ b.owner_key = dht.keys ∨
    (∃ e ∈ b.acl_entries, e.key = dht.keys) ∧
      (∀ e ∈ b.acl_entries, e.key = dht.keys → e.read = true) ∨
    (∀ e ∈ b.acl_entries, e.key ≠ dht.keys) ∧
      ∃ i e, b.acl_group_entries[i]? = some e ∧ e.read = true ∧
        (member_key dht b.group_version i e).isSome = true ∧
        ∀ j e', i < j → b.acl_group_entries[j]? = some e' →
          member_key dht b.group_version j e' = none

theorem user_secret_none {entries : List (ACLEntry K)} {secret : Buffer}
    (h : ∀ e ∈ entries, e.key ≠ dht.keys) : user_secret dht u entries secret = .ok secret := by
  induction entries with
  | nil => rfl
  | cons e es ih =>
    unfold user_secret
    rw [if_neg (h e List.mem_cons_self)]
    exact ih fun a ha => h a (List.mem_cons_of_mem e ha)

theorem user_secret_some {entries : List (ACLEntry K)} {secret start : Buffer}
    (h : ∀ e ∈ entries, e.key = dht.keys → dht.ciphers.decrypt u e.key e.token = .ok secret)
    (hs : start = secret ∨ ∃ e ∈ entries, e.key = dht.keys) :
    user_secret dht u entries start = .ok secret := by
  induction entries generalizing start with
  | nil =>
    rcases hs with hs | ⟨e, he, -⟩
    · rw [hs]; rfl
    · cases he
  | cons e es ih =>
    have hrest : ∀ a ∈ es, a.key = dht.keys → dht.ciphers.decrypt u a.key a.token = .ok secret :=
      fun a ha => h a (List.mem_cons_of_mem e ha)
    unfold user_secret
    by_cases hk : e.key = dht.keys
    · rw [if_pos hk, ← hk, h e List.mem_cons_self hk]
      simp only [raised, bind, Except.bind]
      exact ih hrest (Or.inl rfl)
    · rw [if_neg hk]
      apply ih hrest
      rcases hs with hs | ⟨a, ha, hak⟩
      · exact Or.inl hs
      · rcases List.mem_cons.1 ha with rfl | ha
        · exact absurd hak hk
        · exact Or.inr ⟨a, ha, hak⟩

omit [DecidableEq K] in
theorem open_group_ok {gv : List Int} {i : Nat} {e : ACLEntry K} {v : Int} (hv : gv[i]? = some v)
    (h0 : 0 ≤ v) :
    open_group dht u gv i e = .ok ((member_key dht gv i e).bind fun k =>
      (dht.ciphers.decrypt u k e.token).toOption) := by
  unfold open_group member_key
  cases hg : dht.group e.key with
  | error what => rfl
  | ok g =>
    cases hk : g.group_keys with
    | error what => simp [hv, hk]
    | ok keys =>
      have hindex : index gv i = .ok v := index_ok.2 ⟨by omega, by simpa using hv⟩
      simp only [hindex, hv, hk, bind, Except.bind]
      by_cases hle : (keys.length : Int) ≤ v
      · rw [if_pos hle, List.getElem?_eq_none (by omega)]
        rfl
      · have hlt : v.toNat < keys.length := by omega
        have hkey : index keys v = .ok keys[v.toNat] := index_ok.2 ⟨h0, by simp [hlt]⟩
        rw [if_neg hle, hkey, List.getElem?_eq_getElem hlt]
        simp only [Option.bind_some]
        cases dht.ciphers.decrypt u keys[v.toNat] e.token <;> rfl

omit [DecidableEq K] in
theorem group_secret_some {gv : List Int} {es : List (ACLEntry K)} {idx : Nat}
    {secret start : Buffer}
    (hgv : ∀ (i : Nat) (e : ACLEntry K), es[i]? = some e → ∃ v, gv[idx + i]? = some v ∧ 0 ≤ v)
    (hs : (start = secret ∧
        ∀ (i : Nat) (e : ACLEntry K), es[i]? = some e → member_key dht gv (idx + i) e = none) ∨
      ∃ (i : Nat) (e : ACLEntry K), es[i]? = some e ∧
        (∃ k, member_key dht gv (idx + i) e = some k ∧
          dht.ciphers.decrypt u k e.token = .ok secret) ∧
        ∀ (j : Nat) (e' : ACLEntry K), i < j → es[j]? = some e' →
          member_key dht gv (idx + j) e' = none) :
    group_secret dht u gv idx es start = .ok secret := by
  induction es generalizing idx start with
  | nil =>
    rcases hs with ⟨hs, -⟩ | ⟨i, e, he, -⟩
    · rw [hs]; rfl
    · cases he
  | cons a es ih =>
    obtain ⟨v, hv, h0⟩ := hgv 0 a rfl
    have hrest : ∀ (i : Nat) (e : ACLEntry K), es[i]? = some e →
        ∃ v, gv[idx + 1 + i]? = some v ∧ 0 ≤ v := by
      intro i e he
      rw [show idx + 1 + i = idx + (i + 1) by omega]
      exact hgv (i + 1) e he
    unfold group_secret
    rw [open_group_ok (i := idx) hv h0]
    simp only [bind, Except.bind]
    apply ih hrest
    rcases hs with ⟨hs, hnone⟩ | ⟨i, e, he, ⟨k, hk, hopen⟩, hlast⟩
    · refine Or.inl ⟨?_, ?_⟩
      · have h := hnone 0 a rfl
        rw [Nat.add_zero] at h
        simp [h, hs]
      · intro i e he
        rw [show idx + 1 + i = idx + (i + 1) by omega]
        exact hnone (i + 1) e he
    · cases i with
      | zero =>
        cases he
        rw [Nat.add_zero] at hk
        refine Or.inl ⟨?_, ?_⟩
        · simp [hk, hopen, Except.toOption]
        · intro j e he
          rw [show idx + 1 + j = idx + (j + 1) by omega]
          exact hlast (j + 1) e (by omega) he
      | succ i =>
        refine Or.inr ⟨i, e, he, ⟨k, ?_, hopen⟩, ?_⟩
        · rw [show idx + 1 + i = idx + (i + 1) by omega]
          exact hk
        · intro j e' hj he'
          rw [show idx + 1 + j = idx + (j + 1) by omega]
          exact hlast (j + 1) e' (by omega) he'

/-- A reader sees the groups that the owner saw, with no other key at a version. -/
def SameGroups (dht dht' : Dht K S H) : Prop :=
  ∀ k g g' keys, dht.group k = .ok g → dht'.group k = .ok g' → g'.group_keys = .ok keys →
    g.public_keys <+: keys

omit [DecidableEq K] in
theorem member_opens {dht' : Dht K S H} {secret : Buffer} (hg : SameGroups dht dht')
    (ht : Tokens dht [] [] b secret) {i : Nat} {e : ACLEntry K}
    (he : b.acl_group_entries[i]? = some e) (hr : e.read = true)
    (hm : (member_key dht' b.group_version i e).isSome = true) :
    ∃ k, member_key dht' b.group_version i e = some k ∧
      dht.ciphers.decrypt b.use_encrypt k e.token = .ok secret := by
  obtain ⟨v, hv, g, k, hgroup, h0, hk, hopen⟩ := ht.groups i e he (Or.inl hr)
  obtain ⟨k', hk'⟩ := Option.isSome_iff_exists.1 hm
  refine ⟨k', hk', ?_⟩
  unfold member_key at hk'
  rw [hv] at hk'
  cases hg' : dht'.group e.key with
  | error what =>
    rw [hg'] at hk'
    cases hk'
  | ok g' =>
    simp only [hg'] at hk'
    cases hkeys : g'.group_keys with
    | error what =>
      rw [hkeys] at hk'
      cases hk'
    | ok keys =>
      simp only [hkeys] at hk'
      have hlt : v.toNat < g.public_keys.length := (List.getElem?_eq_some_iff.1 hk).1
      have hsame : keys[v.toNat]? = some k := by
        obtain ⟨later, hlater⟩ := hg e.key g g' keys hgroup hg' hkeys
        rw [← hlater, List.getElem?_append_left hlt]
        exact hk
      rw [hk'] at hsame
      cases hsame
      exact hopen

theorem reader_gets_content {dht' : Dht K S H} {secret : Buffer} (hc : dht'.ciphers = dht.ciphers)
    (hg : SameGroups dht dht') (hsized : b.Sized)
    (hsealed : Sealed dht b.world_readable b secret key plain) (htokens : Tokens dht [] [] b secret)
    (hr : Reader dht' b) : (b.fetched dht')._decrypt_data dht' = .ok plain := by
  have hcontent := hsealed.content
  cases hw : b.world_readable with
  | true =>
    rw [hw, if_pos rfl] at hcontent
    unfold _decrypt_data
    rw [if_pos (show (b.fetched dht').world_readable = true from hw)]
    exact congrArg Except.ok hcontent
  | false =>
    rw [hw, if_neg (by decide)] at hcontent
    have hkey : dht'.ciphers.secret_of (b.fetched dht').use_encrypt secret = .ok key := by
      rw [hc]
      exact hsealed.key_of
    have hdata : dht'.ciphers.decipher key (b.fetched dht').data = .ok plain := by
      rw [hc]
      exact hcontent
    by_cases ho : b.owner_key = dht'.keys
    · apply decrypt_data_of dht' (b.fetched dht') secret hw _ (if_neg hsealed.filled)
        hsealed.filled hkey hdata
      rw [if_pos (show (b.fetched dht').owner_private_key = true from decide_eq_true ho), hc]
      exact congrArg raised hsealed.token
    · have hno : ¬(b.fetched dht').owner_private_key = true := by
        simp [fetched, ho]
      rcases hr with hr | hr | ⟨hsome, hall⟩ | ⟨hnone, i, e, he, hmay, hmember, hlast⟩
      · rw [hw] at hr
        cases hr
      · exact absurd hr ho
      · apply decrypt_data_of dht' (b.fetched dht') secret hw _ (if_neg hsealed.filled)
          hsealed.filled hkey hdata
        rw [if_neg hno]
        apply user_secret_some _ (Or.inr hsome)
        intro e he hek
        rw [hc]
        exact htokens.users e he (Or.inl (hall e he hek))
      · apply decrypt_data_of dht' (b.fetched dht') [] hw _ _ hsealed.filled hkey hdata
        · rw [if_neg hno]
          exact user_secret_none hnone
        · rw [if_pos rfl]
          apply group_secret_some
          · intro j a ha
            have hj : j < b.group_version.length := by
              rw [hsized.size]
              exact (List.getElem?_eq_some_iff.1 ha).1
            refine ⟨b.group_version[j], ?_, hsized.versions _ (List.getElem_mem hj)⟩
            rw [Nat.zero_add]
            exact List.getElem?_eq_getElem hj
          · refine Or.inr ⟨i, e, he, ?_, ?_⟩
            · rw [Nat.zero_add, hc]
              exact member_opens hg htokens he hmay hmember
            · intro j e' hj he'
              rw [Nat.zero_add]
              exact hlast j e' hj he'

/-! ## The calls of the owner -/

/-- The calls on a block, by its owner. The secret of a seal is the one that is generated for new
data. -/
inductive Call (K S H : Type) where
  | set_permissions (key : K) (read write : Bool)
  | set_group_permissions (key : K) (read write : Bool)
  | set_world_permissions (read write : Bool)
  | copy_permissions (source : ACB K H)
  | data (data : Buffer)
  | transform (transformation : Buffer → Buffer)
  | seal (version : Option Int) (secret : S)

def Call.run (dht : Dht K S H) : Call K S H → Op (ACB K H) Failure Unit
  | .set_permissions key read write => ACB.set_permissions dht key read write
  | .set_group_permissions key read write => ACB.set_group_permissions dht key read write
  | .set_world_permissions read write => Op.modify (_set_world_permissions read write)
  | .copy_permissions source => _copy_permissions dht source
  | .data d => set_data d
  | .transform f => transform_data dht f
  | .seal version secret => _seal dht version secret

/-- A block that is worked on, with the plain text that it should hold, and the world flag that its
stored data was written under. -/
structure Work (K H : Type) where
  block : ACB K H
  plain : Buffer
  readable : Bool

def returned {α : Type} : Except Failure α → Bool
  | .ok _ => true
  | .error _ => false

/-- One call. It may throw: the block is then as the call left it. -/
def Call.after (dht : Dht K S H) (c : Call K S H) (w : Work K H) : Work K H :=
  let result := c.run dht w.block
  { block := result.2
    plain :=
      match c with
      | .data d => d
      | .transform f => if returned result.1 then f w.plain else w.plain
      | _ => w.plain
    readable :=
      match c with
      | .seal _ _ =>
        if returned result.1 && w.block.data_changed then w.block.world_readable else w.readable
      | _ => w.readable }

/-- The admins of the network, who get their rights at each seal. -/
def admin_users (dht : Dht K S H) : List K := dht.admin_keys.r ++ dht.admin_keys.w

def admin_groups (dht : Dht K S H) : List K := dht.admin_keys.group_r ++ dht.admin_keys.group_w

/-- The groups that may read can be fetched. -/
def Reachable (dht : Dht K S H) (groups : List K) (b : ACB K H) : Prop :=
  ∀ e ∈ b.acl_group_entries, e.read = true ∨ e.key ∈ groups → ∃ g, dht.group e.key = .ok g

/-- What each call must find. A seal of new data finds the plain text at hand, and can fetch the
groups that read; a seal of the same data finds it stored as the world flag says, and the readers
with tokens of its secret. A transformation finds the plain text at hand, or stored as the flag
says. -/
def Call.Meets (dht : Dht K S H) (w : Work K H) : Call K S H → Prop
  | .seal _ _ =>
    if w.block.data_changed then
      w.block.data_decrypted = true ∧ Reachable dht (admin_groups dht) w.block
    else
      w.block.world_readable = w.readable ∧
        ∃ secret, dht.ciphers.decrypt w.block.use_encrypt w.block.owner_key w.block.owner_token =
          .ok secret ∧ Tokens dht (admin_users dht) (admin_groups dht) w.block secret
  | .transform _ => w.block.data_decrypted = true ∨ w.block.world_readable = w.readable
  | _ => True

/-- The calls in a row, and what they must find. -/
def after_calls (dht : Dht K S H) (w : Work K H) (calls : List (Call K S H)) : Work K H :=
  calls.foldl (fun w c => c.after dht w) w

def AllMeet (dht : Dht K S H) : Work K H → List (Call K S H) → Prop
  | _, [] => True
  | w, c :: calls => c.Meets dht w ∧ AllMeet dht (c.after dht w) calls

/-- The block still holds the plain text, or has it at hand. -/
structure Faithful (dht : Dht K S H) (w : Work K H) : Prop where
  holds : ∃ stored, Holds dht w.readable w.block stored ∧
    (w.block.data_changed = false ∨ w.block.data_decrypted = false → stored = w.plain)
  plain : w.block.data_decrypted = true → w.block.data_plain = w.plain

/-! ## One call -/

theorem set_permissions_groups (dht : Dht K S H) (k : K) (r w : Bool) (b : ACB K H) :
    (ACB.set_permissions dht k r w b).2.group_version = b.group_version ∧
      (ACB.set_permissions dht k r w b).2.acl_group_entries = b.acl_group_entries := by
  unfold ACB.set_permissions
  split
  · exact ⟨rfl, rfl⟩
  · split
    · split
      · exact ⟨rfl, rfl⟩
      · split <;> exact ⟨rfl, rfl⟩
    · split <;> exact ⟨rfl, rfl⟩

theorem set_permissions_sized {r w : Bool} (hs : b.Sized) :
    (ACB.set_permissions dht k r w b).2.Sized := by
  have hkept := set_permissions_groups dht k r w b
  exact ⟨by rw [hkept.1, hkept.2]; exact hs.size, by rw [hkept.1]; exact hs.versions⟩

theorem set_group_permissions_sized {r w : Bool} (ho : b.owner_private_key = true)
    (ht : b.owner_token ≠ []) (hs : b.Sized) :
    (ACB.set_group_permissions dht k r w b).2.Sized := by
  unfold ACB.set_group_permissions
  split
  · split
    · exact hs
    · split
      · exact hs
      next token htoken =>
        -- the token was made with the key of the group, so the group has a version
        simp only [group_token, if_neg ht, ho, Bool.not_true, Bool.false_eq_true,
          if_false] at htoken
        split at htoken
        · cases htoken
        · split at htoken
          · cases htoken
          next g hg =>
            simp only
            have hne : 0 < g.public_keys.length := by
              cases hk : g.public_keys with
              | nil =>
                simp only [Group.current_public_key, back, hk, List.getLast?_nil] at htoken
                cases htoken
              | cons => simp
            refine ⟨by simp [hs.size], ?_⟩
            intro v hv
            rcases List.mem_append.1 hv with hv | hv
            · exact hs.versions v hv
            · rw [List.mem_singleton.1 hv]
              unfold Group.version
              omega
  next i e hf =>
    have hi : i < b.acl_group_entries.length :=
      (List.getElem?_eq_some_iff.1 (find_entry_some hf).1).1
    split
    · split
      next hlt =>
        refine ⟨?_, fun v hv => hs.versions v (List.mem_of_mem_eraseIdx hv)⟩
        simp only [List.length_eraseIdx, hs.size]
      next => exact hs
    · exact ⟨by simp [hs.size], hs.versions⟩

/-- What the stored data depends on. -/
def core (b : ACB K H) : Bool × K × Buffer × elle.Version × Buffer :=
  (b.owner_private_key, b.owner_key, b.owner_token, b.seal_version, b.data)

omit [DecidableEq K] in
theorem Holds.of_core {readable : Bool} (hc : b'.core = b.core) (hs : b'.Sized)
    (h : Holds dht readable b plain) : Holds dht readable b' plain := by
  simp only [core, Prod.mk.injEq] at hc
  obtain ⟨howner, hkey, htoken, hversion, hdata⟩ := hc
  have huse : b'.use_encrypt = b.use_encrypt := by rw [use_encrypt, hversion]; rfl
  obtain ⟨secret, key, hsealed⟩ := h.stored
  refine ⟨by rw [howner, h.owner], by rw [htoken]; exact h.pushed, hs, secret, key, ?_⟩
  constructor
  · rw [huse, hkey, htoken]; exact hsealed.token
  · exact hsealed.filled
  · rw [huse]; exact hsealed.key_of
  · rw [hdata]; exact hsealed.content

variable {w : Work K H}

omit [DecidableEq K] in
theorem Faithful.of_frame (h : Faithful dht w) (hf : b.frame = w.block.frame) (hs : b.Sized) :
    Faithful dht { w with block := b } := by
  have hchanged : b.data_changed = w.block.data_changed := congrArg (·.data_changed) hf
  have hdecrypted : b.data_decrypted = w.block.data_decrypted := congrArg (·.data_decrypted) hf
  have hplain : b.data_plain = w.block.data_plain := congrArg (·.data_plain) hf
  have hcore : b.core = w.block.core :=
    (congrArg core hf : b.frame.core = w.block.frame.core)
  obtain ⟨stored, hholds, heq⟩ := h.holds
  constructor
  · refine ⟨stored, hholds.of_core hcore hs, ?_⟩
    simp only [hchanged, hdecrypted]
    exact heq
  · simp only [hdecrypted, hplain]
    exact h.plain

/-- The rights may change, from a block that was pushed by its owner. -/
structure Pushed (b m : ACB K H) : Prop where
  framed : m.frame = b.frame
  sized : m.Sized
  owner : m.owner_private_key = true
  token : m.owner_token ≠ []

theorem Pushed.set_permissions (dht : Dht K S H) (b : ACB K H) (k : K) (r w : Bool) :
    Op.Keeps (Pushed b) (ACB.set_permissions dht k r w) := by
  intro m hm
  have hf := set_permissions_frame dht k r w m
  refine ⟨hf.trans hm.framed, set_permissions_sized hm.sized, ?_, ?_⟩
  · exact (congrArg (·.owner_private_key) hf).trans hm.owner
  · exact fun h => hm.token ((congrArg (·.owner_token) hf).symm.trans h)

theorem Pushed.set_group_permissions (dht : Dht K S H) (b : ACB K H) (k : K) (r w : Bool) :
    Op.Keeps (Pushed b) (ACB.set_group_permissions dht k r w) := by
  intro m hm
  have hf := set_group_permissions_frame dht k r w m
  refine ⟨hf.trans hm.framed, set_group_permissions_sized hm.owner hm.token hm.sized, ?_, ?_⟩
  · exact (congrArg (·.owner_private_key) hf).trans hm.owner
  · exact fun h => hm.token ((congrArg (·.owner_token) hf).symm.trans h)

omit [DecidableEq K] in
theorem Faithful.pushed (h : Faithful dht w) : Pushed w.block w.block := by
  obtain ⟨stored, hholds, -⟩ := h.holds
  exact ⟨rfl, hholds.sized, hholds.owner, hholds.pushed⟩

theorem copy_permissions_spec (dht : Dht K S H) (source b : ACB K H) :
    Op.Spec (Pushed b) (_copy_permissions dht source)
      (fun _ m' => ∃ m, Pushed b m ∧ m' = { m with world_readable := source.world_readable,
                                                   world_writable := source.world_writable })
      fun _ => Pushed b := by
  unfold _copy_permissions
  apply Op.Spec.bind (M := fun _ => Pushed b)
  · apply Op.Keeps.spec
    apply each_keeps
    intro e _
    apply Op.Keeps.get_bind
    intro m _
    apply Op.Keeps.ite
    · exact Pushed.set_permissions dht b _ _ _
    · exact Op.Keeps.pure ()
  intro _
  apply Op.Spec.bind (M := fun _ => Pushed b)
  · apply Op.Keeps.spec
    exact each_keeps fun e _ => Pushed.set_group_permissions dht b _ _ _
  intro _
  apply Op.Spec.get_bind
  intro m hm
  have howner : Op.Keeps (Pushed b)
      (if m.owner_key ≠ source.owner_key then set_permissions dht source.owner_key true true
        else pure () : Op (ACB K H) Failure Unit) := by
    apply Op.Keeps.ite
    · exact Pushed.set_permissions dht b _ _ _
    · exact Op.Keeps.pure ()
  apply Op.Spec.bind (M := fun _ => Pushed b)
  · intro m' hm'
    subst hm'
    exact howner.spec m' hm
  intro _
  apply Op.Spec.modify
  exact fun m hm => ⟨m, hm, rfl⟩

omit [DecidableEq K] in
theorem Faithful.of_core (h : Faithful dht w) (hc : b.core = w.block.core) (hs : b.Sized)
    (hd : b.data_decrypted = w.block.data_decrypted) (hp : b.data_plain = w.block.data_plain)
    (hch : b.data_changed = false → w.block.data_changed = false) :
    Faithful dht { w with block := b } := by
  obtain ⟨stored, hholds, heq⟩ := h.holds
  constructor
  · refine ⟨stored, hholds.of_core hc hs, ?_⟩
    simp only [hd]
    exact fun h => heq (h.imp_left hch)
  · simp only [hd, hp]
    exact h.plain

theorem Faithful.set_permissions (h : Faithful dht w) (k : K) (r x : Bool) :
    Faithful dht ((Call.set_permissions k r x).after dht w) := by
  have hm := (Pushed.set_permissions dht w.block k r x) w.block h.pushed
  exact h.of_frame hm.framed hm.sized

theorem Faithful.set_group_permissions (h : Faithful dht w) (k : K) (r x : Bool) :
    Faithful dht ((Call.set_group_permissions k r x).after dht w) := by
  have hm := (Pushed.set_group_permissions dht w.block k r x) w.block h.pushed
  exact h.of_frame hm.framed hm.sized

theorem Faithful.set_world_permissions (h : Faithful dht w) (r x : Bool) :
    Faithful dht ((Call.set_world_permissions r x).after dht w) := by
  have hm := h.pushed
  apply h.of_core (b := _set_world_permissions r x w.block)
  all_goals unfold _set_world_permissions
  · split <;> rfl
  · split
    · exact ⟨hm.sized.size, hm.sized.versions⟩
    · exact hm.sized
  · split <;> rfl
  · split <;> rfl
  · split
    · exact fun h => nomatch h
    · exact fun h => h

theorem Faithful.copy_permissions (h : Faithful dht w) (source : ACB K H) :
    Faithful dht ((Call.copy_permissions source).after dht w) := by
  have hspec := copy_permissions_spec dht source w.block w.block h.pushed
  simp only [Call.after, Call.run]
  cases hx : _copy_permissions dht source w.block with
  | mk res m' =>
    rw [hx] at hspec
    cases res with
    | error e => exact h.of_frame hspec.framed hspec.sized
    | ok _ =>
      obtain ⟨m, hm, rfl⟩ := hspec
      have hf := h.of_frame hm.framed hm.sized
      exact hf.of_core rfl ⟨hm.sized.size, hm.sized.versions⟩ rfl rfl fun h => h

theorem Faithful.data (h : Faithful dht w) (d : Buffer) :
    Faithful dht ((Call.data d).after dht w) := by
  obtain ⟨stored, hholds, -⟩ := h.holds
  constructor
  · refine ⟨stored, Holds.of_core (b := w.block) rfl
      ⟨hholds.sized.size, hholds.sized.versions⟩ hholds, ?_⟩
    rintro (hx | hx) <;> cases hx
  · exact fun _ => rfl

theorem transform_data_eq (dht : Dht K S H) (f : Buffer → Buffer) (b : ACB K H) :
    transform_data dht f b = match b.toOKB.decrypted (b._decrypt_data dht) with
      | .ok okb =>
        (.ok (), { b with toOKB := { okb with data_plain := f okb.data_plain,
                                              data_changed := true, validated := false } })
      | .error e => (.error e, b) := by
  simp only [transform_data, on_okb, OKB.transform_data, Op.bind_of_ok (Op.get_apply b.toOKB)]
  cases b.toOKB.decrypted (b._decrypt_data dht) with
  | ok okb => rfl
  | error e => rfl

theorem Faithful.transform (h : Faithful dht w) (f : Buffer → Buffer)
    (hm : (Call.transform f : Call K S H).Meets dht w) :
    Faithful dht ((Call.transform f).after dht w) := by
  obtain ⟨stored, hholds, heq⟩ := h.holds
  -- what the transformation is given is the plain text
  have hplain : ∃ okb : OKB K H, w.block.toOKB.decrypted (w.block._decrypt_data dht) = .ok okb ∧
      okb.data_plain = w.plain ∧ okb.data_decrypted = true ∧
      ({ w.block with toOKB := okb } : ACB K H).core = w.block.core := by
    unfold OKB.decrypted
    cases hd : w.block.data_decrypted with
    | true => exact ⟨w.block.toOKB, rfl, h.plain hd, hd, rfl⟩
    | false =>
      obtain ⟨secret, key, hsealed⟩ := hholds.stored
      have hr : w.block.world_readable = w.readable := by
        rcases hm with hm | hm
        · rw [hd] at hm
          cases hm
        · exact hm
      rw [hsealed.decrypted hholds.owner hr, heq (Or.inr hd)]
      exact ⟨_, rfl, rfl, rfl, rfl⟩
  obtain ⟨okb, hok, hokp, hokd, hokc⟩ := hplain
  have hrun := transform_data_eq dht f w.block
  rw [hok] at hrun
  simp only [Call.after, Call.run, hrun, returned, if_true]
  constructor
  · refine ⟨stored, Holds.of_core (b := w.block) hokc
      ⟨hholds.sized.size, hholds.sized.versions⟩ hholds, ?_⟩
    simp only [hokd]
    rintro (hx | hx) <;> cases hx
  · intro _
    simp only [hokp]

/-! ## A seal that fails -/

/-- The data of the block, stored or at hand, is as it was. -/
structure Kept (b m : ACB K H) : Prop where
  core : m.core = b.core
  sized : m.Sized
  decrypted : m.data_decrypted = b.data_decrypted
  plain : m.data_plain = b.data_plain
  changed : m.data_changed = b.data_changed

/-- What a call can leave alone of the data and of the groups. -/
def inner (b : ACB K H) :
    (Bool × K × Buffer × elle.Version × Buffer) × List Int × List (ACLEntry K) × Bool × Buffer ×
      Bool :=
  (b.core, b.group_version, b.acl_group_entries, b.data_decrypted, b.data_plain, b.data_changed)

/-- What readers depend on. -/
def outer (b : ACB K H) :
    (Bool × K × Buffer × elle.Version × Buffer) × List (ACLEntry K) × List (ACLEntry K) ×
      List Int × Bool :=
  (b.core, b.acl_entries, b.acl_group_entries, b.group_version, b.world_readable)

omit [DecidableEq K] in
theorem Kept.of_inner {m' : ACB K H} (h : Kept b m) (hi : m'.inner = m.inner) : Kept b m' := by
  simp only [inner, Prod.mk.injEq] at hi
  obtain ⟨hc, hv, hg, hd, hp, hch⟩ := hi
  refine ⟨hc.trans h.core, ⟨?_, ?_⟩, hd.trans h.decrypted, hp.trans h.plain, hch.trans h.changed⟩
  · rw [hv, hg]
    exact h.sized.size
  · rw [hv]
    exact h.sized.versions

omit [DecidableEq K] in
theorem Kept.owner (h : Kept b m) : m.owner_private_key = b.owner_private_key :=
  congrArg Prod.fst h.core

omit [DecidableEq K] in
theorem Kept.token (h : Kept b m) : m.owner_token = b.owner_token :=
  congrArg (·.2.2.1) h.core

omit [DecidableEq K] in
theorem Kept.of_frame {m' : ACB K H} (h : Kept b m) (hf : m'.frame = m.frame) (hs : m'.Sized) :
    Kept b m' := by
  refine ⟨?_, hs, ?_, ?_, ?_⟩
  · exact (congrArg ACB.core hf : m'.frame.core = m.frame.core).trans h.core
  · exact (congrArg (·.data_decrypted) hf : m'.frame.data_decrypted = _).trans h.decrypted
  · exact (congrArg (·.data_plain) hf : m'.frame.data_plain = _).trans h.plain
  · exact (congrArg (·.data_changed) hf : m'.frame.data_changed = _).trans h.changed

theorem enforce_kept (ho : b.owner_private_key = true) (ht : b.owner_token ≠ []) (hm : Kept b m) :
    Kept b (enforce_admin_keys dht m).2 := by
  apply enforce_keeps (I := Kept b) _ _ m hm
  · intro k w _ m hm
    exact hm.of_frame (set_permissions_frame dht k true w m) (set_permissions_sized hm.sized)
  · intro k w _ m hm
    apply hm.of_frame (set_group_permissions_frame dht k true w m)
    exact set_group_permissions_sized (hm.owner.trans ho) (by rw [hm.token]; exact ht) hm.sized

omit [DecidableEq K] in
theorem seal_okb_same (dht : Dht K S H) (bump : Bool) (m : ACB K H) :
    (_seal_okb dht bump m).2.inner = m.inner ∧ (_seal_okb dht bump m).2.outer = m.outer := by
  simp only [_seal_okb, on_okb, OKB._seal_okb, Op.bind_of_ok (Op.modify_apply _ m.toOKB),
    Op.bind_of_ok (Op.get_apply _)]
  split
  · exact ⟨rfl, rfl⟩
  · split <;> exact ⟨rfl, rfl⟩

omit [DecidableEq K] in
theorem restart_same (dht : Dht K S H) (b : ACB K H) :
    (restart_signatures dht b).2.inner = b.inner ∧
      (restart_signatures dht b).2.outer = b.outer := by
  have hkeeps : Op.Keeps (fun m => m.inner = b.inner ∧ m.outer = b.outer)
      (restart_signatures dht) := by
    unfold restart_signatures
    apply Op.Keeps.bind
    · intro m hm
      unfold restart_data_signature
      split
      · split <;> exact hm
      · exact hm
    intro _
    apply Op.Keeps.get_bind
    intro _ _
    apply Op.Keeps.ite
    · intro m hm
      have h := seal_okb_same dht false m
      exact ⟨h.1.trans hm.1, h.2.trans hm.2⟩
    · exact Op.Keeps.pure ()
  exact hkeeps b ⟨rfl, rfl⟩

omit [DecidableEq K] in
theorem seal_acl_kept (b : ACB K H) (d : Bool) : Op.Keeps (Kept b) (seal_acl dht d) := by
  unfold seal_acl
  apply Op.Keeps.bind
  · exact Op.Keeps.modify fun m hm => hm.of_inner rfl
  intro _
  apply Op.Keeps.bind
  · exact Op.Keeps.modify fun m hm => hm.of_inner rfl
  intro _
  apply Op.Keeps.bind
  · exact fun m hm => hm.of_inner (seal_okb_same dht true m).1
  intro _
  apply Op.Keeps.bind
  · exact Op.Keeps.modify fun m hm => hm.of_inner rfl
  intro _
  apply Op.Keeps.get_bind
  intro m _
  exact Op.Keeps.pure _

theorem seal_author_owner (dht : Dht K S H) (v : Option Int) (k : Option K)
    (ho : b.owner_private_key = true) :
    ∃ m, seal_author dht v k b = (.ok (), m) ∧ m.sign_key.isSome = true ∧
      m.owner_private_key = true := by
  unfold seal_author
  rw [Op.bind_of_ok (Op.modify_apply _ b), Op.bind_of_ok (Op.get_apply _)]
  have hfound : ∃ editor key, find_author dht k { b with data_version := v.getD b.data_version } =
      .ok ⟨editor, some key⟩ := by
    cases k with
    | some key => exact ⟨_, _, rfl⟩
    | none =>
      simp only [find_author, ho, if_true]
      exact ⟨_, _, rfl⟩
  obtain ⟨editor, key, hauthor⟩ := hfound
  rw [hauthor]
  cases hv : dht.validate_signatures with
  | true => exact ⟨_, rfl, rfl, ho⟩
  | false => exact ⟨_, rfl, rfl, ho⟩

omit [DecidableEq K] in
theorem restart_owner (dht : Dht K S H) (ho : b.owner_private_key = true)
    (hk : b.sign_key.isSome = true) : ∃ m, restart_signatures dht b = (.ok (), m) := by
  obtain ⟨key, hkey⟩ := Option.isSome_iff_exists.1 hk
  have hfirst : ∃ m, restart_data_signature dht b = (.ok (), m) ∧ m.owner_private_key = true := by
    unfold restart_data_signature
    rw [hkey]
    split
    · exact ⟨_, rfl, ho⟩
    · exact ⟨b, rfl, ho⟩
  obtain ⟨m, hm, hom⟩ := hfirst
  unfold restart_signatures
  rw [Op.bind_of_ok hm, Op.bind_of_ok (Op.get_apply m)]
  split
  · exact seal_okb_owner hom
  · exact ⟨m, rfl⟩

theorem seal_error {version : Option Int} {e : Failure} (ho : b.owner_private_key = true)
    (ht : b.owner_token ≠ []) (hs : b.Sized) (h : _seal dht version key b = (.error e, b')) :
    Kept b b' := by
  obtain ⟨next, v, hv, -⟩ := take_seal_version_ok version b
  have h₀ : Kept b { b with next_seal_version := next } :=
    ⟨rfl, ⟨hs.size, hs.versions⟩, rfl, rfl, rfl⟩
  have h₁ : Kept b (enforce_admin_keys dht { b with next_seal_version := next }).2 :=
    enforce_kept ho ht h₀
  unfold _seal at h
  rw [Op.bind_of_ok hv] at h
  rcases Op.bind_eq_error h with h | ⟨_, m₁, hm₁, h⟩
  · rw [h] at h₁
    exact h₁
  rw [hm₁] at h₁
  rw [Op.bind_of_ok (Op.get_apply m₁)] at h
  have h₂ : Kept b ((if m₁.acl_changed then seal_acl dht m₁.data_changed else pure none :
      Op (ACB K H) Failure (Option K)) m₁).2 := by
    split
    · exact seal_acl_kept b m₁.data_changed m₁ h₁
    · exact h₁
  rcases Op.bind_eq_error h with h | ⟨k₂, m₂, hm₂, h⟩
  · rw [h] at h₂
    exact h₂
  rw [hm₂] at h₂
  rcases Op.bind_eq_error h with h | ⟨k₃, m₃, hm₃, h⟩
  · split at h
    · rw [seal_data_error h]
      exact h₂
    · cases h
  -- once the data is sealed, the owner signs it and nothing can fail
  have ho₃ : m₃.owner_private_key = true :=
    (data_step_keeps (m := m₁) (g := (·.owner_private_key)) hm₃ fun _ _ _ _ => rfl).trans
      (h₂.owner.trans ho)
  by_cases hw : (m₁.acl_changed || m₁.data_changed || v.isSome) = true
  · rw [if_pos hw] at h
    obtain ⟨m₄, hm₄, hk, ho₄⟩ := seal_author_owner dht v k₃ ho₃
    rw [Op.bind_of_ok hm₄] at h
    obtain ⟨m₅, hm₅⟩ := restart_owner dht ho₄ hk
    rw [hm₅] at h
    cases h
  · rw [if_neg hw, Op.bind_of_ok (Op.pure_apply () m₃)] at h
    have hd : m₁.data_changed = false := by
      simp only [Bool.or_eq_true, not_or, Bool.not_eq_true] at hw
      exact hw.1.2
    rw [hd] at hm₃
    cases hm₃
    have h₅ := (restart_same dht m₂).1
    rw [h] at h₅
    exact h₂.of_inner h₅

/-! ## A seal of the same data -/

omit [DecidableEq K] in
theorem last_version {g : Group K} (h : g.public_keys.getLast? = some k) :
    0 ≤ g.version - 1 ∧ g.public_keys[(g.version - 1).toNat]? = some k := by
  rw [List.getLast?_eq_getElem?] at h
  have hlt := (List.getElem?_eq_some_iff.1 h).1
  have hnat : (g.version - 1).toNat = g.public_keys.length - 1 := by
    unfold Group.version
    omega
  rw [hnat]
  refine ⟨?_, h⟩
  unfold Group.version
  omega

theorem set_permissions_tokens {secret : Buffer} {w : Bool} (hc : dht.ciphers.Inverse)
    (ho : b.owner_private_key = true) (ht : b.owner_token ≠ [])
    (hsecret : dht.ciphers.decrypt b.use_encrypt b.owner_key b.owner_token = .ok secret)
    (hk : k ∈ users) (h : Tokens dht users groups b secret) :
    Tokens dht users groups (ACB.set_permissions dht k true w b).2 secret := by
  unfold ACB.set_permissions
  split
  · exact h
  · split
    · rw [if_neg (by simp)]
      have htoken : b.user_token dht k = .ok (dht.ciphers.encrypt b.use_encrypt k secret) := by
        simp only [user_token, if_neg ht, ho, Bool.not_true, Bool.false_eq_true, if_false, hsecret,
          raised, bind, Except.bind, pure, Except.pure]
      rw [htoken]
      refine ⟨?_, h.groups⟩
      intro e he hmay
      rcases List.mem_append.1 he with he | he
      · exact h.users e he hmay
      · rw [List.mem_singleton.1 he]
        exact hc.decrypt_encrypt _ _ _
    next i e hf =>
      rw [if_neg (by simp)]
      obtain ⟨hi, hek⟩ := find_entry_some hf
      refine ⟨?_, h.groups⟩
      intro a ha hmay
      rcases List.mem_or_eq_of_mem_set ha with ha | ha
      · exact h.users a ha hmay
      · rw [ha]
        exact h.users e (List.mem_of_getElem? hi) (Or.inr (by rw [hek]; exact hk))

theorem set_group_permissions_tokens {secret : Buffer} {w : Bool} (hc : dht.ciphers.Inverse)
    (ho : b.owner_private_key = true) (ht : b.owner_token ≠ [])
    (hsecret : dht.ciphers.decrypt b.use_encrypt b.owner_key b.owner_token = .ok secret)
    (hs : b.Sized) (hk : k ∈ groups) (h : Tokens dht users groups b secret) :
    Tokens dht users groups (ACB.set_group_permissions dht k true w b).2 secret := by
  unfold ACB.set_group_permissions
  split
  · rw [if_neg (by simp)]
    cases htoken : b.group_token dht k with
    | error e => exact h
    | ok token =>
      simp only [group_token, if_neg ht, ho, Bool.not_true, Bool.false_eq_true, if_false,
        hsecret] at htoken
      cases hg : dht.group k with
      | error what =>
        rw [hg] at htoken
        cases htoken
      | ok g =>
        simp only [hg] at htoken ⊢
        cases hkey : g.current_public_key with
        | error what =>
          rw [hkey] at htoken
          cases htoken
        | ok pk =>
          rw [hkey] at htoken
          cases htoken
          refine ⟨h.users, ?_⟩
          intro i e he hmay
          simp only at he ⊢
          rcases Nat.lt_or_ge i b.acl_group_entries.length with hi | hi
          · rw [List.getElem?_append_left hi] at he
            rw [List.getElem?_append_left (by rw [hs.size]; exact hi)]
            exact h.groups i e he hmay
          · rw [List.getElem?_append_right hi] at he
            rw [List.getElem?_singleton] at he
            split at he
            next hz =>
              cases he
              have hlast := last_version (back_ok hkey)
              refine ⟨g.version - 1, ?_, g, pk, hg, hlast.1, hlast.2, hc.decrypt_encrypt _ _ _⟩
              rw [List.getElem?_append_right (by rw [hs.size]; exact hi), hs.size, hz]
              rfl
            next => cases he
  next i e hf =>
    rw [if_neg (by simp)]
    obtain ⟨hi, hek⟩ := find_entry_some hf
    refine ⟨h.users, ?_⟩
    intro j a ha hmay
    by_cases hij : i = j
    · subst hij
      have hlt : i < b.acl_group_entries.length := (List.getElem?_eq_some_iff.1 hi).1
      simp only [List.getElem?_set_self hlt] at ha
      cases ha
      exact h.groups i e hi (Or.inr (by rw [hek]; exact hk))
    · simp only [List.getElem?_set_ne hij] at ha
      exact h.groups j a ha hmay

omit [DecidableEq K] in
theorem Kept.secret (h : Kept b m) : m.use_encrypt = b.use_encrypt ∧
    dht.ciphers.decrypt m.use_encrypt m.owner_key m.owner_token =
      dht.ciphers.decrypt b.use_encrypt b.owner_key b.owner_token := by
  have hc := h.core
  simp only [ACB.core, Prod.mk.injEq] at hc
  obtain ⟨-, hkey, htoken, hversion, -⟩ := hc
  have huse : m.use_encrypt = b.use_encrypt := by rw [use_encrypt, hversion]; rfl
  exact ⟨huse, by rw [huse, hkey, htoken]⟩

theorem enforce_tokens {secret : Buffer} (hc : dht.ciphers.Inverse)
    (ho : b.owner_private_key = true) (ht : b.owner_token ≠ [])
    (hsecret : dht.ciphers.decrypt b.use_encrypt b.owner_key b.owner_token = .ok secret)
    (hm : Kept b m) (h : Tokens dht (admin_users dht) (admin_groups dht) m secret) :
    Tokens dht (admin_users dht) (admin_groups dht) (enforce_admin_keys dht m).2 secret := by
  have hinv : Kept b (enforce_admin_keys dht m).2 ∧
      Tokens dht (admin_users dht) (admin_groups dht) (enforce_admin_keys dht m).2 secret := by
    apply enforce_keeps (I := fun m => Kept b m ∧
      Tokens dht (admin_users dht) (admin_groups dht) m secret) _ _ m ⟨hm, h⟩
    · rintro k w hk m ⟨hm, h⟩
      refine ⟨hm.of_frame (set_permissions_frame dht k true w m)
        (set_permissions_sized hm.sized), ?_⟩
      exact set_permissions_tokens hc (hm.owner.trans ho) (by rw [hm.token]; exact ht)
        (hm.secret.2.trans hsecret) hk h
    · rintro k w hk m ⟨hm, h⟩
      have hom := hm.owner.trans ho
      have htm : m.owner_token ≠ [] := by rw [hm.token]; exact ht
      refine ⟨hm.of_frame (set_group_permissions_frame dht k true w m)
        (set_group_permissions_sized hom htm hm.sized), ?_⟩
      exact set_group_permissions_tokens hc hom htm (hm.secret.2.trans hsecret) hm.sized hk h
  exact hinv.2

theorem set_group_permissions_reachable {w : Bool} (ho : b.owner_private_key = true)
    (ht : b.owner_token ≠ []) (hk : k ∈ groups) (h : Reachable dht groups b) :
    Reachable dht groups (ACB.set_group_permissions dht k true w b).2 := by
  unfold ACB.set_group_permissions
  split
  · rw [if_neg (by simp)]
    cases htoken : b.group_token dht k with
    | error e => exact h
    | ok token =>
      cases hg : dht.group k with
      | error what =>
        simp only [group_token, if_neg ht, ho, Bool.not_true, Bool.false_eq_true, if_false,
          hg] at htoken
        split at htoken <;> cases htoken
      | ok g =>
        intro e he hmay
        rcases List.mem_append.1 he with he | he
        · exact h e he hmay
        · rw [List.mem_singleton.1 he]
          exact ⟨g, hg⟩
  next i e hf =>
    rw [if_neg (by simp)]
    obtain ⟨hi, hek⟩ := find_entry_some hf
    intro a ha hmay
    rcases List.mem_or_eq_of_mem_set ha with ha | ha
    · exact h a ha hmay
    · rw [ha]
      exact h e (List.mem_of_getElem? hi) (Or.inr (by rw [hek]; exact hk))

theorem enforce_reachable (ho : b.owner_private_key = true) (ht : b.owner_token ≠ [])
    (hm : Kept b m) (h : Reachable dht (admin_groups dht) m) :
    Reachable dht (admin_groups dht) (enforce_admin_keys dht m).2 := by
  have hinv : Kept b (enforce_admin_keys dht m).2 ∧
      Reachable dht (admin_groups dht) (enforce_admin_keys dht m).2 := by
    apply enforce_keeps (I := fun m => Kept b m ∧ Reachable dht (admin_groups dht) m) _ _ m
      ⟨hm, h⟩
    · rintro k w _ m ⟨hm, h⟩
      refine ⟨hm.of_frame (set_permissions_frame dht k true w m)
        (set_permissions_sized hm.sized), ?_⟩
      unfold Reachable
      rw [(set_permissions_groups dht k true w m).2]
      exact h
    · rintro k w hk m ⟨hm, h⟩
      have hom := hm.owner.trans ho
      have htm : m.owner_token ≠ [] := by rw [hm.token]; exact ht
      exact ⟨hm.of_frame (set_group_permissions_frame dht k true w m)
        (set_group_permissions_sized hom htm hm.sized),
        set_group_permissions_reachable hom htm hk h⟩
  exact hinv.2

/-! ## A seal that returns -/

/-- A block that is ready to be read by all who may. -/
structure Published (dht : Dht K S H) (b : ACB K H) (plain : Buffer) : Prop where
  owner : b.owner_private_key = true
  pushed : b.owner_token ≠ []
  sized : b.Sized
  read : ∃ secret key, Sealed dht b.world_readable b secret key plain ∧
    Tokens dht [] [] b secret

omit [DecidableEq K] in
theorem Published.of_outer (h : Published dht b plain) (ho : b'.outer = b.outer) :
    Published dht b' plain := by
  simp only [outer, core, Prod.mk.injEq] at ho
  obtain ⟨⟨howner, hkey, htoken, hversion, hdata⟩, hu, hg, hv, hw⟩ := ho
  have huse : b'.use_encrypt = b.use_encrypt := by rw [use_encrypt, hversion]; rfl
  obtain ⟨secret, key, hsealed, htokens⟩ := h.read
  refine ⟨by rw [howner, h.owner], by rw [htoken]; exact h.pushed, ⟨?_, ?_⟩, secret, key, ?_, ?_⟩
  · rw [hv, hg]; exact h.sized.size
  · rw [hv]; exact h.sized.versions
  · constructor
    · rw [huse, hkey, htoken]; exact hsealed.token
    · exact hsealed.filled
    · rw [huse]; exact hsealed.key_of
    · rw [hw, hdata]; exact hsealed.content
  · constructor
    · rw [hu, huse]; exact htokens.users
    · rw [hg, hv, huse]; exact htokens.groups

theorem with_data_published {k k' : Option K} (hc : dht.ciphers.Inverse)
    (ho : b.owner_private_key = true) (hs : b.Sized) (hr : Reachable dht [] b)
    (h : seal_data dht key k b = (.ok k', b')) : Published dht b' b.data_plain := by
  obtain ⟨users, author, groups, gv, author', hu, hg, hb, -⟩ := seal_data_ok h
  have hsealed := seal_groups_ok hg
  have hentry : ∀ {i : Nat} {e' : ACLEntry K}, groups[i]? = some e' →
      ∃ e, b.acl_group_entries[i]? = some e ∧ e.key = e'.key ∧ e.read = e'.read := by
    intro i e' he'
    obtain ⟨e, he, hkey, hread, -⟩ := permissions_getElem hsealed.rights.symm he'
    exact ⟨e, he, hkey, hread⟩
  subst hb
  refine ⟨ho, hc.encrypt_ne_nil _ _ _, ⟨?_, ?_⟩,
    dht.ciphers.secret_buffer (token_version dht) key, key, ?_, ?_⟩
  · have hlength := congrArg List.length hsealed.rights
    simp only [permissions, List.length_map] at hlength
    exact hsealed.size.trans (hs.size.trans hlength.symm)
  · intro v hv
    obtain ⟨i, hi⟩ := List.mem_iff_getElem?.1 hv
    have hlt : i < b.acl_group_entries.length := by
      rw [← hs.size, ← hsealed.size]
      exact (List.getElem?_eq_some_iff.1 hi).1
    have he := List.getElem?_eq_getElem hlt
    have hrec := hsealed.recorded i _ he
    rw [Nat.zero_add] at hrec
    have hnext : next_version dht b.group_version i b.acl_group_entries[i] = some v :=
      hrec.symm.trans hi
    obtain ⟨e', he', -⟩ := permissions_getElem hsealed.rights he
    unfold next_version at hnext
    split at hnext
    next g hgroup =>
      split at hnext
      next hread =>
        obtain ⟨pk, hpk, -⟩ := hsealed.token i _ e' he he' g hgroup hread
        cases hnext
        exact (last_version hpk).1
      next => exact hs.versions v (List.mem_of_getElem? hnext)
    next => exact hs.versions v (List.mem_of_getElem? hnext)
  · constructor
    · exact hc.decrypt_encrypt _ _ _
    · exact hc.secret_ne_nil _ _
    · exact hc.secret_of_buffer _ _
    · simp only [with_data]
      split
      · rfl
      · exact hc.decipher_encipher _ _
  · constructor
    · intro e' he' hmay
      have hread' : e'.read = true := hmay.resolve_right List.not_mem_nil
      simp only [seal_users, Prod.mk.injEq] at hu
      rw [show (b.with_data dht key users groups gv author'.editor).acl_entries = users from rfl,
        ← hu.1] at he'
      obtain ⟨e, -, he⟩ := List.mem_map.1 he'
      split at he
      next => rw [← he]; exact hc.decrypt_encrypt _ _ _
      next hno =>
        rw [he] at hno
        exact absurd hread' hno
    · intro i e' he' hmay
      obtain ⟨e, he, hkey, hread⟩ := hentry he'
      rw [← hread] at hmay
      obtain ⟨g, hgroup⟩ := hr e (List.mem_of_getElem? he)
        (hmay.imp_right fun h => absurd h List.not_mem_nil)
      have hread' : e.read = true := hmay.resolve_right List.not_mem_nil
      obtain ⟨pk, hpk, htoken⟩ := hsealed.token i e e' he he' g hgroup hread'
      have hrec := hsealed.recorded i e he
      have hlast := last_version hpk
      rw [Nat.zero_add] at hrec
      refine ⟨g.version - 1, ?_, g, pk, ?_, hlast.1, hlast.2, ?_⟩
      · simp only [with_data, hrec, next_version, hgroup, hread', if_true]
      · rw [← hkey]; exact hgroup
      · rw [htoken]; exact hc.decrypt_encrypt _ _ _

omit [DecidableEq K] in
theorem Tokens.less {secret : Buffer} (h : Tokens dht users groups b secret) :
    Tokens dht [] [] b secret := by
  refine ⟨fun e he hmay => h.users e he (Or.inl ?_), fun i e he hmay => h.groups i e he (Or.inl ?_)⟩
  · exact hmay.resolve_right List.not_mem_nil
  · exact hmay.resolve_right List.not_mem_nil

theorem seal_publishes {version : Option Int} (hc : dht.ciphers.Inverse) (h : Faithful dht w)
    (hm : (Call.seal version key : Call K S H).Meets dht w)
    (hs : _seal dht version key w.block = (.ok (), b')) :
    Published dht b' w.plain ∧ b'.data_changed = false ∧
      b'.data_decrypted = w.block.data_decrypted ∧ b'.data_plain = w.block.data_plain ∧
      b'.world_readable = w.block.world_readable := by
  obtain ⟨stored, hholds, heq⟩ := h.holds
  obtain ⟨next, v, m₁, k₂, m₂, k₃, m₃, m₄, -, h₁, h₂, h₃, h₄, h₅⟩ := seal_ok hs
  have e₀ : Kept w.block { w.block with next_seal_version := next } :=
    ⟨rfl, ⟨hholds.sized.size, hholds.sized.versions⟩, rfl, rfl, rfl⟩
  have e₁ : Kept w.block m₁ := by
    have hk : Kept w.block (enforce_admin_keys dht { w.block with next_seal_version := next }).2 :=
      enforce_kept hholds.owner hholds.pushed e₀
    rw [h₁] at hk
    exact hk
  have hframe := enforce_frame dht { w.block with next_seal_version := next }
  rw [h₁] at hframe
  have hworld₁ : m₁.world_readable = w.block.world_readable :=
    congrArg (·.world_readable) hframe
  -- sealing the rights leaves them as they are
  have hsame₂ : m₂.outer = m₁.outer := rights_step_keeps h₂ fun _ _ _ => rfl
  have e₂ : Kept w.block m₂ := by
    unfold rights_step at h₂
    split at h₂
    · have hk : Kept w.block (seal_acl dht m₁.data_changed m₁).2 := seal_acl_kept w.block _ m₁ e₁
      rw [h₂] at hk
      exact hk
    · cases h₂
      exact e₁
  -- the signatures are not what is read
  have hend : b'.inner = m₃.inner ∧ b'.outer = m₃.outer := by
    have hsame := restart_same dht m₄
    rw [h₅] at hsame
    exact ⟨hsame.1.trans (author_step_keeps h₄ fun _ _ _ _ => rfl),
      hsame.2.trans (author_step_keeps h₄ fun _ _ _ _ => rfl)⟩
  have hinner := hend.1
  have houter := hsame₂
  simp only [inner, Prod.mk.injEq] at hinner
  simp only [outer, Prod.mk.injEq] at houter
  have hworld' : b'.world_readable = m₃.world_readable := congrArg (·.2.2.2.2) hend.2
  have hworld₂ : m₂.world_readable = w.block.world_readable := houter.2.2.2.2.trans hworld₁
  unfold Call.Meets at hm
  cases hd : w.block.data_changed with
  | true =>
    rw [hd, if_pos rfl] at hm
    rw [data_step, e₁.changed, hd, if_pos rfl] at h₃
    have hreach : Reachable dht [] m₂ := by
      have hr : Reachable dht (admin_groups dht)
          (enforce_admin_keys dht { w.block with next_seal_version := next }).2 :=
        enforce_reachable hholds.owner hholds.pushed e₀ hm.2
      rw [h₁] at hr
      intro e he hmay
      rw [houter.2.2.1] at he
      exact hr e he (Or.inl (hmay.resolve_right List.not_mem_nil))
    have hpub := with_data_published hc (e₂.owner.trans hholds.owner) e₂.sized hreach h₃
    rw [e₂.plain, h.plain hm.1] at hpub
    obtain ⟨users, author, groups, gv, author', -, -, hb, -⟩ := seal_data_ok h₃
    subst hb
    exact ⟨hpub.of_outer hend.2, hinner.2.2.2.2.2, hinner.2.2.2.1.trans e₂.decrypted,
      hinner.2.2.2.2.1.trans e₂.plain, hworld'.trans hworld₂⟩
  | false =>
    rw [hd, if_neg (by decide)] at hm
    obtain ⟨hreadable, secret, hsecret, htokens⟩ := hm
    rw [data_step, e₁.changed, hd, if_neg (by decide)] at h₃
    cases h₃
    have hpub : Published dht m₁ w.plain := by
      have hholds₁ := hholds.of_core e₁.core e₁.sized
      obtain ⟨secret', skey, hsealed⟩ := hholds₁.stored
      have hsame : secret' = secret := by
        have ht := hsealed.token
        rw [e₁.secret.2, hsecret] at ht
        cases ht
        rfl
      subst hsame
      rw [heq (Or.inl hd), ← hreadable, ← hworld₁] at hsealed
      refine ⟨hholds₁.owner, hholds₁.pushed, e₁.sized, secret', skey, hsealed, ?_⟩
      have ht : Tokens dht (admin_users dht) (admin_groups dht)
          (enforce_admin_keys dht { w.block with next_seal_version := next }).2 secret' :=
        enforce_tokens hc hholds.owner hholds.pushed hsecret e₀ ⟨htokens.users, htokens.groups⟩
      rw [h₁] at ht
      exact ht.less
    exact ⟨hpub.of_outer (hend.2.trans hsame₂), hinner.2.2.2.2.2.trans (e₂.changed.trans hd),
      hinner.2.2.2.1.trans e₂.decrypted, hinner.2.2.2.2.1.trans e₂.plain,
      hworld'.trans hworld₂⟩

theorem Faithful.seal (hc : dht.ciphers.Inverse) (h : Faithful dht w) (version : Option Int)
    (key : S) (hm : (Call.seal version key : Call K S H).Meets dht w) :
    Faithful dht ((Call.seal version key).after dht w) := by
  have hp := h.pushed
  obtain ⟨res, m, hx⟩ : ∃ res m, _seal dht version key w.block = (res, m) := ⟨_, _, rfl⟩
  simp only [Call.after, Call.run, hx]
  cases res with
  | error e =>
    have hk := seal_error hp.owner hp.token hp.sized hx
    apply h.of_core hk.core hk.sized hk.decrypted hk.plain
    rw [hk.changed]
    exact fun h => h
  | ok _ =>
    obtain ⟨hpub, hch, hd, hpl, hw⟩ := seal_publishes hc h hm hx
    have hreadable : (if (returned (.ok () : Except Failure Unit) && w.block.data_changed) = true
        then w.block.world_readable else w.readable) = m.world_readable := by
      unfold Call.Meets at hm
      cases hdc : w.block.data_changed with
      | true => exact hw.symm
      | false =>
        rw [hdc, if_neg (by decide)] at hm
        exact hm.1.symm.trans hw.symm
    obtain ⟨secret, skey, hsealed, -⟩ := hpub.read
    constructor
    · refine ⟨w.plain, ⟨hpub.owner, hpub.pushed, hpub.sized, secret, skey, ?_⟩, fun _ => rfl⟩
      simp only [hreadable]
      exact hsealed
    · simp only [hd, hpl]
      exact h.plain

theorem Faithful.after (hc : dht.ciphers.Inverse) (h : Faithful dht w) (c : Call K S H)
    (hm : c.Meets dht w) : Faithful dht (c.after dht w) :=
  match c, hm with
  | .set_permissions k r x, _ => h.set_permissions k r x
  | .set_group_permissions k r x, _ => h.set_group_permissions k r x
  | .set_world_permissions r x, _ => h.set_world_permissions r x
  | .copy_permissions source, _ => h.copy_permissions source
  | .data d, _ => h.data d
  | .transform f, hm => h.transform f hm
  | .seal version key, hm => h.seal hc version key hm

theorem Faithful.after_calls (hc : dht.ciphers.Inverse) (h : Faithful dht w)
    (calls rest : List (Call K S H)) (hm : AllMeet dht w (calls ++ rest)) :
    Faithful dht (ACB.after_calls dht w calls) ∧
      AllMeet dht (ACB.after_calls dht w calls) rest := by
  induction calls generalizing w with
  | nil => exact ⟨h, hm⟩
  | cons c calls ih => exact ih (h.after hc c hm.1) hm.2

theorem read_data_fetched (dht : Dht K S H) (b : ACB K H) :
    (read_data dht (b.fetched dht)).1 = (b.fetched dht)._decrypt_data dht := by
  simp only [read_data, Op.bind_of_ok (Op.get_apply (b.fetched dht)), on_okb]
  have hd : (b.fetched dht).toOKB.decrypted ((b.fetched dht)._decrypt_data dht) =
      ((b.fetched dht)._decrypt_data dht).map fun data =>
        { (b.fetched dht).toOKB with data_plain := data, data_decrypted := true } := rfl
  rw [hd]
  cases (b.fetched dht)._decrypt_data dht <;> rfl

/-! ## The law -/

/-- Changing the permissions of a block does not change its content, as long as each seal finds the
plain text at hand or stored as the world flag says, with tokens for who may read: after a last
seal, whoever reads gets the plain text that was last set. -/
theorem permissions_keep_the_content (hc : dht.ciphers.Inverse) (b : ACB K H) (plain : Buffer)
    (hb : Holds dht b.world_readable b plain) (hnew : b.data_decrypted = false)
    (calls : List (Call K S H)) (version : Option Int) (secret : S)
    (hm : AllMeet dht ⟨b, plain, b.world_readable⟩ (calls ++ [.seal version secret]))
    (b' : ACB K H)
    (hs : _seal dht version secret (after_calls dht ⟨b, plain, b.world_readable⟩ calls).block =
      (.ok (), b'))
    (dht' : Dht K S H) (hc' : dht'.ciphers = dht.ciphers) (hg : SameGroups dht dht')
    (hr : Reader dht' b') :
    (read_data dht' (b'.fetched dht')).1 =
      .ok (after_calls dht ⟨b, plain, b.world_readable⟩ calls).plain := by
  have hstart : Faithful dht ⟨b, plain, b.world_readable⟩ := by
    refine ⟨⟨plain, hb, fun _ => rfl⟩, ?_⟩
    intro hd
    rw [hnew] at hd
    cases hd
  obtain ⟨hend, hlast⟩ := hstart.after_calls hc calls _ hm
  obtain ⟨hpub, -⟩ := seal_publishes hc hend hlast.1 hs
  obtain ⟨sb, key, hsealed, htokens⟩ := hpub.read
  rw [read_data_fetched]
  exact reader_gets_content hc' hg hpub.sized hsealed htokens hr

/-- Who may read, as the entries say it. -/
def ReadAccess (dht : Dht K S H) (b : ACB K H) : Prop :=
  b.world_readable = true ∨ b.owner_key = dht.keys ∨
    (∃ e ∈ b.acl_entries, e.key = dht.keys ∧ e.read = true) ∨
    ∃ i e, b.acl_group_entries[i]? = some e ∧ e.read = true ∧
      (member_key dht b.group_version i e).isSome = true

end ACB

end

theorem plain_ciphers_inverse : plain_ciphers.Inverse := by
  constructor
  · intro u k b
    simp [plain_ciphers]
  · intro u k b
    simp [plain_ciphers]
  · intro v s
    rfl
  · intro v s
    simp [plain_ciphers]
  · intro s b
    simp [plain_ciphers]

/-- A block of the user 1, as its owner fetched it. It holds [100]. -/
def stored_block : ACB UInt8 UInt8 :=
  { edited [] with data_changed := false, owner_private_key := true, data_plain := [],
                   data_decrypted := false }

theorem stored_block_holds : ACB.Holds (member 1) false stored_block [100] :=
  ⟨rfl, by decide, ⟨rfl, by decide⟩, [5], 5, rfl, by decide, rfl, rfl⟩

theorem member_same_groups (a b : UInt8) : ACB.SameGroups (member a) (member b) := by
  intro k g g' keys hg hg' hk
  simp only [member] at hg hg'
  split at hg
  next h9 =>
    rw [if_pos h9] at hg'
    cases hg
    cases hg'
    cases hk
    exact List.prefix_refl _
  next => cases hg

/-- The user 7 is given the right to read, and reads. -/
theorem a_new_reader_reads :
    (ACB.read_data (member 7) (ACB.fetched (member 7)
      (ACB._seal (member 1) none 6
        (ACB.set_permissions (member 1) 7 true false stored_block).2).2)).1 = .ok [100] := by
  have hm : ACB.AllMeet (member 1) ⟨stored_block, [100], false⟩
      [.set_permissions 7 true false, .seal none 6] := by
    refine ⟨trivial, ⟨rfl, [5], rfl, ?_, ?_⟩, trivial⟩
    · intro e he _
      rw [List.mem_singleton.1 he]
      rfl
    · intro i e he _
      obtain ⟨hi, he⟩ := List.getElem?_eq_some_iff.1 he
      have hz : i = 0 := Nat.lt_one_iff.1 hi
      subst hz
      rw [← he]
      exact ⟨0, rfl, ⟨[20], .ok [20]⟩, 20, rfl, by decide, rfl, rfl⟩
  have hr : ACB.Reader (member 7) (ACB._seal (member 1) none 6
      (ACB.set_permissions (member 1) 7 true false stored_block).2).2 := by
    refine Or.inr (Or.inr (Or.inl ⟨⟨_, List.mem_singleton_self _, rfl⟩, ?_⟩))
    intro e he _
    rw [List.mem_singleton.1 he]
  exact ACB.permissions_keep_the_content plain_ciphers_inverse stored_block [100]
    stored_block_holds rfl [.set_permissions 7 true false] none 6 hm _ rfl (member 7) rfl
    (member_same_groups 1 7) hr

/-- The world is given the right to read a block that was not decrypted: the seal stores the plain
text that was never read. -/
theorem a_world_right_empties_the_block :
    ¬ ∀ (dht dht' : Dht UInt8 UInt8 UInt8) (b b' : ACB UInt8 UInt8) (plain : Buffer)
      (calls : List (ACB.Call UInt8 UInt8 UInt8)) (version : Option Int) (secret : UInt8),
      dht.ciphers.Inverse → ACB.Holds dht b.world_readable b plain → b.data_decrypted = false →
      ACB._seal dht version secret (ACB.after_calls dht ⟨b, plain, b.world_readable⟩ calls).block =
        (.ok (), b') →
      dht'.ciphers = dht.ciphers → ACB.SameGroups dht dht' → ACB.ReadAccess dht' b' →
      (ACB.read_data dht' (b'.fetched dht')).1 =
        .ok (ACB.after_calls dht ⟨b, plain, b.world_readable⟩ calls).plain := by
  intro h
  have hread := h (member 1) (member 8) stored_block _ [100] [.set_world_permissions true false]
    none 6 plain_ciphers_inverse stored_block_holds rfl rfl rfl
    (member_same_groups 1 8) (Or.inl rfl)
  cases hread

end memo
