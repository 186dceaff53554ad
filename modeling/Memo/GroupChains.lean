-- Reading a block through groups that are members of groups. The keys of a group are
-- the data of its block, which is deciphered as any other; a thread keeps the groups
-- that it is looking into on a stack, and a group that is on the stack is refused.
import Memo.Contents
import Memo.PathCuts

open cuts

namespace memo

section

variable {K S H : Type} {dht : Dht K S H} {b : ACB K H}

/-! ## The code -/

/-- What the exceptions say. -/
def Failure.what : Failure → String
  | .error what => what
  | .validation_failed what => what
  | .assert_error condition => condition
  | .out_of_bounds => ""
  | .null_pointer => ""
  | .empty_optional => ""

/-- The group blocks, as a node fetches them by their control keys: `Group::block`. The private key
of the owner is there for the admins. -/
structure GroupBlocks (K H : Type) where
  block : K → Except String (ACB K H)
  deserialize : Buffer → Except String (List K)

/-- `GB::all_public_keys`. -/
def ACB.public_keys (b : ACB K H) : List K :=
  match b.group_part with
  | some part => part.public_keys
  | none => []

/-- `_decrypt_data`, with what the calls on the groups of the block give. There is no result if one
of them has none. -/
def ACB.decrypt_with [DecidableEq K] (dht : Dht K S H) (call : K → Option (Except String (Group K)))
    (b : ACB K H) : Option (Except Failure Buffer) :=
  if b.acl_group_entries.all fun e => (call e.key).isSome then
    some (b._decrypt_data { dht with group := fun key => (call key).getD (.error "") })
  else none

/-- A `Group` that is made for a control key, and its keys: `Group::Group`, `Group::group_keys` and
`GB::all_keys`. The stack is the one of the thread. There is no result if the calls are nested
deeper than the first argument, or if one of them does what is undefined. -/
def Group.call [DecidableEq K] (dht : Dht K S H) (groups : GroupBlocks K H) :
    Nat → List K → K → Option (Except String (Group K))
  | 0, _, _ => none
  | depth + 1, stack, key =>
    if key ∈ stack then some (.error "Group loop")
    else
      match groups.block key with
      | .error what => some (.error what)
      | .ok b =>
        match b.decrypt_with dht (call dht groups depth (key :: stack)) with
        | none => none
        | some (.error e) =>
          if e.undefined then none else some (.ok ⟨b.public_keys, .error e.what⟩)
        | some (.ok data) => some (.ok ⟨b.public_keys, groups.deserialize data⟩)

/-- `_decrypt_data`, by a thread that has no group on its stack. -/
def ACB.decrypt_data [DecidableEq K] (dht : Dht K S H) (groups : GroupBlocks K H) (depth : Nat)
    (b : ACB K H) :
    Option (Except Failure Buffer) :=
  b.decrypt_with dht (Group.call dht groups depth [])

/-! ## Who reads -/

/-- The user of the node is in a group. -/
def Member (dht : Dht K S H) (groups : GroupBlocks K H) (key : K) : Prop :=
  ∃ b, groups.block key = .ok b ∧ ∃ e ∈ b.acl_entries, e.key = dht.keys ∧ e.read = true

/-- The user is in the group, is an admin of it, or the world may read its block. -/
def Opener (dht : Dht K S H) (groups : GroupBlocks K H) (key : K) : Prop :=
  ∃ b, groups.block key = .ok b ∧ (b.world_readable = true ∨ b.owner_private_key = true ∨
    ∃ e ∈ b.acl_entries, e.key = dht.keys ∧ e.read = true)

/-- A group is in another one. -/
def Includes (groups : GroupBlocks K H) (key key' : K) : Prop :=
  ∃ b, groups.block key = .ok b ∧ ∃ e ∈ b.acl_group_entries, e.read = true ∧ e.key = key'

/-- The world reads, the owner, a user who may, and who is in a group from which groups lead down
to one of a kind. -/
def ChainAccess (dht : Dht K S H) (groups : GroupBlocks K H) (last : K → Prop) (b : ACB K H) :
    Prop :=
  b.world_readable = true ∨ b.owner_private_key = true ∨
    (∃ e ∈ b.acl_entries, e.key = dht.keys ∧ e.read = true) ∨
    ∃ e ∈ b.acl_group_entries, e.read = true ∧ Leads (Includes groups) last e.key

/-- The groups as all nodes see them. -/
def GroupBlocks.seen (groups : GroupBlocks K H) (dht : Dht K S H) : Dht K S H :=
  { dht with group := fun key => (groups.block key).map fun b => ⟨b.public_keys, .error ""⟩ }

/-- A block whose tokens are up to date, with its plain text. -/
structure UpToDate (dht : Dht K S H) (groups : GroupBlocks K H) (b : ACB K H) (plain : Buffer) :
    Prop where
  sized : b.Sized
  tokens : ∃ secret key, ACB.Sealed dht b.world_readable b secret key plain ∧
    ACB.Tokens (groups.seen dht) [] [] b secret

/-- The groups are finitely many, and each block holds the keys of its group. -/
structure Grouped (dht : Dht K S H) (groups : GroupBlocks K H) (all : List K) : Prop where
  finite : ∀ key b, groups.block key = .ok b → key ∈ all
  current : ∀ key b, groups.block key = .ok b → ∃ plain, UpToDate dht groups b plain ∧
    groups.deserialize plain = .ok b.public_keys

/-- No entry that the user could open is without the right to read. -/
def Legible (dht : Dht K S H) (groups : GroupBlocks K H) (b : ACB K H) : Prop :=
  (∀ e ∈ b.acl_entries, e.key = dht.keys → e.read = true) ∧
    ∀ e ∈ b.acl_group_entries, Leads (Includes groups) (Opener dht groups) e.key → e.read = true

/-! ## One block -/

variable {groups : GroupBlocks K H} {plain : Buffer}
  {call : K → Option (Except String (Group K))}

/-- A call on a group gives its keys if they are `found`, and an error else. -/
def Answers (groups : GroupBlocks K H) (key : K) (found : Prop)
    (answer : Except String (Group K)) : Prop :=
  (found → ∃ b, groups.block key = .ok b ∧ answer = .ok ⟨b.public_keys, .ok b.public_keys⟩) ∧
    (¬ found → ∀ g, answer = .ok g → ∃ what, g.group_keys = .error what)

/-- The node, when the calls on the groups give what they give. -/
def answered (dht : Dht K S H) (call : K → Option (Except String (Group K))) : Dht K S H :=
  { dht with group := fun key => (call key).getD (.error "") }

namespace ACB

theorem member_key_answered {e : ACLEntry K} {found : Prop} {answer : Except String (Group K)}
    (hcall : call e.key = some answer) (ha : Answers groups e.key found answer)
    {group_version : List Int} {i : Nat} :
    (member_key (answered dht call) group_version i e).isSome = true → found := by
  intro h
  by_contra hno
  unfold member_key answered at h
  simp only [hcall, Option.getD_some] at h
  cases answer with
  | error what => cases h
  | ok g =>
    obtain ⟨what, hk⟩ := ha.2 hno g rfl
    cases hv : group_version[i]? <;> simp [hv, hk] at h

theorem member_key_opens {secret : Buffer} (ht : Tokens (groups.seen dht) [] [] b secret) {i : Nat}
    {e : ACLEntry K} (he : b.acl_group_entries[i]? = some e) (hr : e.read = true) {found : Prop}
    {answer : Except String (Group K)} (hcall : call e.key = some answer)
    (ha : Answers groups e.key found answer) (hf : found) :
    ∃ k, member_key (answered dht call) b.group_version i e = some k ∧
      dht.ciphers.decrypt b.use_encrypt k e.token = .ok secret := by
  obtain ⟨v, hv, g, k, hg, h0, hk, hopens⟩ := ht.groups i e he (Or.inl hr)
  obtain ⟨b', hb', rfl⟩ := ha.1 hf
  simp only [GroupBlocks.seen, hb', Except.map, Except.ok.injEq] at hg
  subst hg
  refine ⟨k, ?_, hopens⟩
  unfold member_key answered
  simp only [hcall, Option.getD_some, hv]
  exact hk

theorem group_secret_all {u : Bool} {gv : List Int} {es : List (ACLEntry K)} {idx : Nat}
    {secret start : Buffer}
    (hgv : ∀ (i : Nat) (e : ACLEntry K), es[i]? = some e → ∃ v, gv[idx + i]? = some v ∧ 0 ≤ v)
    (hall : ∀ (i : Nat) (e : ACLEntry K) (k : K), es[i]? = some e →
      member_key dht gv (idx + i) e = some k → dht.ciphers.decrypt u k e.token = .ok secret)
    (hs : start = secret ∨ ∃ (i : Nat) (e : ACLEntry K), es[i]? = some e ∧
      (member_key dht gv (idx + i) e).isSome = true) :
    group_secret dht u gv idx es start = .ok secret := by
  induction es generalizing idx start with
  | nil =>
    rcases hs with rfl | ⟨i, e, he, -⟩
    · rfl
    · cases he
  | cons a es ih =>
    obtain ⟨v, hv, h0⟩ := hgv 0 a rfl
    unfold group_secret
    rw [open_group_ok (i := idx) hv h0]
    simp only [bind, Except.bind]
    have hnext : ∀ i, idx + 1 + i = idx + (i + 1) := fun i => by omega
    refine ih (fun i e he => hnext i ▸ hgv (i + 1) e he)
      (fun i e k he hk => hall (i + 1) e k he (hnext i ▸ hk)) ?_
    cases hm : member_key dht gv idx a with
    | some k =>
      have hopens := hall 0 a k rfl hm
      left
      simp [hopens, Except.toOption]
    | none =>
      rcases hs with rfl | ⟨i, e, he, hmem⟩
      · exact Or.inl rfl
      · cases i with
        | zero =>
          cases he
          rw [Nat.add_zero, hm] at hmem
          cases hmem
        | succ i => exact Or.inr ⟨i, e, he, (hnext i).symm ▸ hmem⟩

/-- Who opens a block: the world, its owner, a user who may read, who is in a group that is
found. -/
def OpenTo (dht : Dht K S H) (found : K → Prop) (b : ACB K H) : Prop :=
  b.world_readable = true ∨ b.owner_private_key = true ∨
    (∃ e ∈ b.acl_entries, e.key = dht.keys ∧ e.read = true) ∨
    ∃ e ∈ b.acl_group_entries, found e.key

/-- The entries that open a block may read. -/
def ReadOnlyBy (dht : Dht K S H) (found : K → Prop) (b : ACB K H) : Prop :=
  (∀ e ∈ b.acl_entries, e.key = dht.keys → e.read = true) ∧
    ∀ e ∈ b.acl_group_entries, found e.key → e.read = true

variable {found : K → Prop}

theorem versions_at (hs : b.Sized) {i : Nat} {e : ACLEntry K}
    (he : b.acl_group_entries[i]? = some e) : ∃ v, b.group_version[0 + i]? = some v ∧ 0 ≤ v := by
  have hlt : i < b.group_version.length := by
    rw [hs.size]
    exact (List.getElem?_eq_some_iff.mp he).1
  rw [Nat.zero_add]
  exact ⟨_, List.getElem?_eq_getElem hlt, hs.versions _ (List.getElem_mem hlt)⟩

variable [DecidableEq K]

theorem decrypt_open (hb : UpToDate dht groups b plain)
    (hcall : ∀ e ∈ b.acl_group_entries, ∃ answer, call e.key = some answer ∧
      Answers groups e.key (found e.key) answer)
    (hread : ReadOnlyBy dht found b) (hopen : OpenTo dht found b) :
    b._decrypt_data (answered dht call) = .ok plain := by
  obtain ⟨secret, key, hsealed, htokens⟩ := hb.tokens
  have hcontent := hsealed.content
  cases hw : b.world_readable with
  | true =>
    rw [hw, if_pos rfl] at hcontent
    unfold _decrypt_data
    rw [if_pos hw, hcontent]
  | false =>
    rw [hw, if_neg (by decide)] at hcontent
    cases ho : b.owner_private_key with
    | true =>
      refine decrypt_data_of (answered dht call) b secret hw ?_ (if_neg hsealed.filled)
        hsealed.filled hsealed.key_of hcontent
      rw [if_pos ho]
      exact congrArg raised hsealed.token
    | false =>
      have hno : ¬ b.owner_private_key = true := by simp [ho]
      by_cases hown : ∃ e ∈ b.acl_entries, e.key = dht.keys
      · refine decrypt_data_of (answered dht call) b secret hw ?_ (if_neg hsealed.filled)
          hsealed.filled hsealed.key_of hcontent
        rw [if_neg hno]
        refine user_secret_some ?_ (Or.inr hown)
        intro e he hk
        exact htokens.users e he (Or.inl (hread.1 e he hk))
      · push Not at hown
        refine decrypt_data_of (answered dht call) b [] hw ?_ ?_ hsealed.filled hsealed.key_of
          hcontent
        · rw [if_neg hno]
          exact user_secret_none hown
        · rw [if_pos rfl]
          refine group_secret_all (fun i e he => versions_at hb.sized he) ?_ (Or.inr ?_)
          · intro i e k he hk
            rw [Nat.zero_add] at hk
            have hmem := List.mem_of_getElem? he
            obtain ⟨answer, hanswer, ha⟩ := hcall e hmem
            have hf := member_key_answered hanswer ha (by rw [hk]; rfl)
            obtain ⟨k', hk', hopens⟩ :=
              member_key_opens htokens he (hread.2 e hmem hf) hanswer ha hf
            rw [hk, Option.some.injEq] at hk'
            rw [hk']
            exact hopens
          · obtain ⟨e, hmem, hf⟩ : ∃ e ∈ b.acl_group_entries, found e.key := by
              rcases hopen with h | h | ⟨e, he, hk, -⟩ | h
              · exact absurd h (by simp [hw])
              · exact absurd h hno
              · exact absurd hk (hown e he)
              · exact h
            obtain ⟨i, he⟩ := List.mem_iff_getElem?.mp hmem
            obtain ⟨answer, hanswer, ha⟩ := hcall e hmem
            obtain ⟨k, hk, -⟩ := member_key_opens htokens he (hread.2 e hmem hf) hanswer ha hf
            exact ⟨i, e, he, by rw [Nat.zero_add, hk]; rfl⟩

theorem decrypt_closed (hb : UpToDate dht groups b plain)
    (hcall : ∀ e ∈ b.acl_group_entries, ∃ answer, call e.key = some answer ∧
      Answers groups e.key (found e.key) answer)
    (hread : ReadOnlyBy dht found b) (hclosed : ¬ OpenTo dht found b) :
    b._decrypt_data (answered dht call) = .error (.validation_failed "no read permissions") := by
  unfold OpenTo at hclosed
  push Not at hclosed
  obtain ⟨hw, ho, hown, hgroups⟩ := hclosed
  have hnone : ∀ e ∈ b.acl_entries, e.key ≠ (answered dht call).keys := fun e he hk =>
    hown e he hk (hread.1 e he hk)
  have husers : user_secret (answered dht call) b.use_encrypt b.acl_entries [] = .ok [] :=
    user_secret_none hnone
  have hgroup : group_secret (answered dht call) b.use_encrypt b.group_version 0
      b.acl_group_entries [] = .ok [] := by
    refine group_secret_some (fun i e he => versions_at hb.sized he) (Or.inl ⟨rfl, ?_⟩)
    intro i e he
    have hmem := List.mem_of_getElem? he
    obtain ⟨answer, hanswer, ha⟩ := hcall e hmem
    rw [← Option.not_isSome_iff_eq_none]
    exact fun h => hgroups e hmem (member_key_answered hanswer ha h)
  unfold _decrypt_data
  rw [if_neg hw, if_neg ho, husers]
  simp only [bind, Except.bind, if_true, hgroup]

theorem decrypt_with_spec (hb : UpToDate dht groups b plain)
    (hcall : ∀ e ∈ b.acl_group_entries, ∃ answer, call e.key = some answer ∧
      Answers groups e.key (found e.key) answer)
    (hread : ReadOnlyBy dht found b) :
    ∃ result, b.decrypt_with dht call = some result ∧
      (OpenTo dht found b → result = .ok plain) ∧
      (¬ OpenTo dht found b → result = .error (.validation_failed "no read permissions")) := by
  have hsome : (b.acl_group_entries.all fun e => (call e.key).isSome) = true := by
    rw [List.all_eq_true]
    intro e he
    obtain ⟨answer, hanswer, -⟩ := hcall e he
    rw [hanswer]
    rfl
  refine ⟨b._decrypt_data (answered dht call), ?_, decrypt_open hb hcall hread,
    decrypt_closed hb hcall hread⟩
  unfold decrypt_with
  rw [if_pos hsome]
  rfl

end ACB

/-! ## Chains of groups -/

theorem Legible.read_only (h : Legible dht groups b) (stack : List K) :
    ACB.ReadOnlyBy dht (LeadsOff (Includes groups) (Opener dht groups) stack) b :=
  ⟨h.1, fun e he hleads => h.2 e he hleads.leads⟩

theorem open_to_iff (hlegible : ∀ key b, groups.block key = .ok b → Legible dht groups b)
    {stack : List K} {key : K} (hb : groups.block key = .ok b) (hkey : key ∉ stack) :
    ACB.OpenTo dht (LeadsOff (Includes groups) (Opener dht groups) (key :: stack)) b ↔
      LeadsOff (Includes groups) (Opener dht groups) stack key := by
  rw [leadsOff_iff]
  constructor
  · rintro (hw | ho | hown | ⟨e, he, hleads⟩)
    · exact ⟨hkey, Or.inl ⟨b, hb, Or.inl hw⟩⟩
    · exact ⟨hkey, Or.inl ⟨b, hb, Or.inr (Or.inl ho)⟩⟩
    · exact ⟨hkey, Or.inl ⟨b, hb, Or.inr (Or.inr hown)⟩⟩
    · have hread := (hlegible key b hb).2 e he hleads.leads
      exact ⟨hkey, Or.inr ⟨e.key, ⟨b, hb, e, he, hread, rfl⟩, hleads⟩⟩
  · rintro ⟨-, ⟨b', hb', hopens⟩ | ⟨x, ⟨b', hb', e, he, -, rfl⟩, hleads⟩⟩
    · rw [hb, Except.ok.injEq] at hb'
      subst hb'
      rcases hopens with hw | ho | hown
      · exact Or.inl hw
      · exact Or.inr (Or.inl ho)
      · exact Or.inr (Or.inr (Or.inl hown))
    · rw [hb, Except.ok.injEq] at hb'
      subst hb'
      exact Or.inr (Or.inr (Or.inr ⟨e, he, hleads⟩))

variable [DecidableEq K]

/-- A call on a group, by a thread that has groups on its stack: its keys are found when groups that
are not on the stack lead down from it to one that the user opens. -/
theorem call_spec {all : List K} (hgrouped : Grouped dht groups all)
    (hlegible : ∀ key b, groups.block key = .ok b → Legible dht groups b) {depth : Nat}
    {stack : List K} (hdepth : left all stack < depth) (key : K) :
    ∃ answer, Group.call dht groups depth stack key = some answer ∧
      Answers groups key (LeadsOff (Includes groups) (Opener dht groups) stack key) answer := by
  induction depth generalizing stack key with
  | zero => exact absurd hdepth (Nat.not_lt_zero _)
  | succ depth ih =>
    unfold Group.call
    by_cases hkey : key ∈ stack
    · rw [if_pos hkey]
      refine ⟨_, rfl, fun h => absurd hkey h.off, fun _ g hg => ?_⟩
      cases hg
    · rw [if_neg hkey]
      cases hb : groups.block key with
      | error what =>
        refine ⟨_, rfl, ?_, fun _ g hg => by cases hg⟩
        intro h
        rcases (leadsOff_iff.mp h).2 with ⟨b, hb', -⟩ | ⟨x, ⟨b, hb', -⟩, -⟩
        · rw [hb] at hb'
          cases hb'
        · rw [hb] at hb'
          cases hb'
      | ok b =>
        obtain ⟨plain, hcurrent, hkeys⟩ := hgrouped.current key b hb
        have hdepth' : left all (key :: stack) < depth := by
          have hlt := left_cons_lt (hgrouped.finite key b hb) hkey
          omega
        obtain ⟨result, hresult, hopen, hclosed⟩ := ACB.decrypt_with_spec hcurrent
          (fun e _ => ih hdepth' e.key) ((hlegible key b hb).read_only (key :: stack))
        simp only [hresult]
        by_cases h : ACB.OpenTo dht
            (LeadsOff (Includes groups) (Opener dht groups) (key :: stack)) b
        · rw [hopen h]
          refine ⟨_, rfl, fun _ => ⟨b, hb, ?_⟩, fun hno => ?_⟩
          · rw [hkeys]
          · exact absurd ((open_to_iff hlegible hb hkey).mp h) hno
        · rw [hclosed h]
          refine ⟨_, rfl, fun hyes => ?_, fun _ g hg => ?_⟩
          · exact absurd ((open_to_iff hlegible hb hkey).mpr hyes) h
          · cases hg
            exact ⟨_, rfl⟩

/-! ## The law -/

/-- When no entry that the user could open is without the right to read, `_decrypt_data` returns,
and gives the plain text to the owner, to who may read, and to who is in a group, or an admin of
one, to which a chain of groups leads down from the block. -/
theorem groups_lead_to_the_data {all : List K} (hgrouped : Grouped dht groups all)
    (hb : UpToDate dht groups b plain)
    (hlegible : ∀ key b, groups.block key = .ok b → Legible dht groups b)
    (hl : Legible dht groups b) {depth : Nat} (hdepth : all.length < depth) :
    ∃ result, b.decrypt_data dht groups depth = some result ∧
      (result = .ok plain ↔ ChainAccess dht groups (Opener dht groups) b) := by
  have hleft : left all [] < depth := lt_of_le_of_lt (List.length_filter_le ..) hdepth
  obtain ⟨result, hresult, hopen, hclosed⟩ := ACB.decrypt_with_spec hb
    (fun e _ => call_spec hgrouped hlegible hleft e.key) (hl.read_only [])
  have haccess : ACB.OpenTo dht (LeadsOff (Includes groups) (Opener dht groups) []) b ↔
      ChainAccess dht groups (Opener dht groups) b := by
    unfold ACB.OpenTo ChainAccess
    simp only [leadsOff_nil]
    refine or_congr_right (or_congr_right (or_congr_right ⟨?_, ?_⟩))
    · rintro ⟨e, he, hleads⟩
      exact ⟨e, he, hl.2 e he hleads, hleads⟩
    · rintro ⟨e, he, -, hleads⟩
      exact ⟨e, he, hleads⟩
  refine ⟨result, hresult, ?_⟩
  rw [← haccess]
  refine ⟨fun hplain => ?_, hopen⟩
  by_contra hno
  rw [hclosed hno] at hplain
  cases hplain

end

/-- The block of a group of one key, whose control key is `owner`. -/
def group_block (owner key secret : UInt8) (users groups : List (ACLEntry UInt8)) :
    ACB UInt8 UInt8 :=
  { edited users with data := [secret, key], owner_key := owner, owner_token := [owner, secret],
                      acl_group_entries := groups, group_version := groups.map fun _ => 0,
                      group_part := some ⟨[key], [], none⟩ }

/-- The groups 8 and 9 are members of each other, and the user 7 is a member of the group 8. -/
def mutual_groups : GroupBlocks UInt8 UInt8 where
  block key :=
    if key = 9 then
      .ok (group_block 9 20 5 [] [⟨8, true, false, [30, 5]⟩, ⟨9, true, false, [20, 5]⟩])
    else if key = 8 then
      .ok (group_block 8 30 6 [⟨7, true, false, [7, 6]⟩] [⟨9, true, false, [20, 6]⟩])
    else .error "missing block"
  deserialize data := .ok data

theorem mutual_groups_cases {key : UInt8} {b : ACB UInt8 UInt8}
    (h : mutual_groups.block key = .ok b) :
    key = 9 ∧ b = group_block 9 20 5 [] [⟨8, true, false, [30, 5]⟩, ⟨9, true, false, [20, 5]⟩] ∨
      key = 8 ∧ b = group_block 8 30 6 [⟨7, true, false, [7, 6]⟩] [⟨9, true, false, [20, 6]⟩] := by
  simp only [mutual_groups] at h
  split_ifs at h with h9 h8
  · exact Or.inl ⟨h9, (Except.ok.inj h).symm⟩
  · exact Or.inr ⟨h8, (Except.ok.inj h).symm⟩

theorem plain_up_to_date {dht : Dht UInt8 UInt8 UInt8} {groups : GroupBlocks UInt8 UInt8}
    {b : ACB UInt8 UInt8} {secret : UInt8} {plain : Buffer} (hc : dht.ciphers = plain_ciphers)
    (hw : b.world_readable = false) (hsized : b.Sized) (ho : b.owner_token = [b.owner_key, secret])
    (hdata : b.data = secret :: plain) (hu : ∀ e ∈ b.acl_entries, e.token = [e.key, secret])
    (hg : ∀ (i : Nat) e, b.acl_group_entries[i]? = some e → b.group_version[i]? = some 0 ∧
      ∃ b' k ks, groups.block e.key = .ok b' ∧ b'.public_keys = k :: ks ∧ e.token = [k, secret]) :
    UpToDate dht groups b plain := by
  refine ⟨hsized, [secret], secret, ⟨?_, List.cons_ne_nil _ _, ?_, ?_⟩, ?_, ?_⟩
  · rw [hc, ho]
    simp [plain_ciphers]
  · rw [hc]
    rfl
  · rw [hw, hc, hdata]
    simp [plain_ciphers]
  · intro e he _
    change dht.ciphers.decrypt _ _ _ = _
    rw [hc, hu e he]
    simp [plain_ciphers]
  · intro i e he _
    obtain ⟨hv, b', k, ks, hb', hk, ht⟩ := hg i e he
    refine ⟨0, hv, ⟨b'.public_keys, .error ""⟩, k, ?_, le_refl 0, ?_, ?_⟩
    · simp [GroupBlocks.seen, hb', Except.map]
    · rw [hk]
      rfl
    · change dht.ciphers.decrypt _ _ _ = _
      rw [hc, ht]
      simp [plain_ciphers]

theorem group_block_sized (owner key secret : UInt8) (users groups : List (ACLEntry UInt8)) :
    (group_block owner key secret users groups).Sized := by
  refine ⟨List.length_map _, ?_⟩
  intro v hv
  obtain ⟨_, -, rfl⟩ := List.mem_map.mp hv
  exact le_refl 0

theorem mutual_groups_grouped (user : UInt8) : Grouped (member user) mutual_groups [9, 8] := by
  constructor
  · intro key b hb
    rcases mutual_groups_cases hb with ⟨rfl, -⟩ | ⟨rfl, -⟩ <;> decide
  · intro key b hb
    rcases mutual_groups_cases hb with ⟨-, rfl⟩ | ⟨-, rfl⟩
    · refine ⟨[20], plain_up_to_date rfl rfl (group_block_sized ..) rfl rfl nofun ?_, rfl⟩
      intro i e he
      match i, he with
      | 0, rfl => exact ⟨rfl, _, 30, [], rfl, rfl, rfl⟩
      | 1, rfl => exact ⟨rfl, _, 20, [], rfl, rfl, rfl⟩
    · refine ⟨[30], plain_up_to_date rfl rfl (group_block_sized ..) rfl rfl ?_ ?_, rfl⟩
      · intro e he
        rw [List.mem_singleton.mp he]
      · intro i e he
        match i, he with
        | 0, rfl => exact ⟨rfl, _, 20, [], rfl, rfl, rfl⟩

theorem edited_up_to_date {dht : Dht UInt8 UInt8 UInt8} {groups : GroupBlocks UInt8 UInt8}
    (hc : dht.ciphers = plain_ciphers) {b : ACB UInt8 UInt8} (hb : groups.block 9 = .ok b)
    (hk : b.public_keys = [20]) : UpToDate dht groups (edited []) [100] := by
  refine plain_up_to_date hc rfl ⟨rfl, by decide⟩ rfl rfl nofun ?_
  intro i e he
  match i, he with
  | 0, rfl => exact ⟨rfl, b, 20, [], hb, hk, rfl⟩

/-- The user 7 reads through the group 9, of which the group 8 is a member. -/
theorem mutual_groups_lead_to_the_data :
    (edited []).decrypt_data (member 7) mutual_groups 3 = some (.ok [100]) := by
  have hread : ∀ key b, mutual_groups.block key = .ok b →
      Legible (member 7) mutual_groups b := by
    intro key b hb
    rcases mutual_groups_cases hb with ⟨-, rfl⟩ | ⟨-, rfl⟩ <;>
      exact ⟨by simp [group_block, edited], by simp [group_block]⟩
  have hleads : Leads (Includes mutual_groups) (Opener (member 7) mutual_groups) 9 := by
    refine Leads.next ⟨_, rfl, _, List.mem_cons_self, rfl, rfl⟩ (Leads.here ⟨_, rfl, ?_⟩)
    exact Or.inr (Or.inr ⟨_, List.mem_cons_self, rfl, rfl⟩)
  obtain ⟨result, hresult, hiff⟩ := groups_lead_to_the_data (mutual_groups_grouped 7)
    (edited_up_to_date rfl rfl rfl) hread ⟨nofun, by simp [edited]⟩ (show 2 < 3 by decide)
  rw [hresult, hiff.mpr]
  exact Or.inr (Or.inr (Or.inr ⟨_, List.mem_cons_self, rfl, hleads⟩))

/-- A group of which the user 7 is an admin, and that has no member. -/
def admin_group : GroupBlocks UInt8 UInt8 where
  block key :=
    if key = 9 then .ok { group_block 9 20 5 [] [] with owner_private_key := true }
    else .error "missing block"
  deserialize data := .ok data

/-- An admin who is not a member of a group reads what the group may read. -/
theorem an_admin_reads_without_being_a_member :
    ¬ ∀ (dht : Dht UInt8 UInt8 UInt8) (groups : GroupBlocks UInt8 UInt8) (all : List UInt8)
      (b : ACB UInt8 UInt8) (plain : Buffer) (depth : Nat), Grouped dht groups all →
      UpToDate dht groups b plain → all.length < depth →
      ∃ result, b.decrypt_data dht groups depth = some result ∧
        (result = .ok plain ↔ ChainAccess dht groups (Member dht groups) b) := by
  intro h
  have hcases : ∀ {key : UInt8} {b : ACB UInt8 UInt8}, admin_group.block key = .ok b →
      key = 9 ∧ b = { group_block 9 20 5 [] [] with owner_private_key := true } := by
    intro key b hb
    simp only [admin_group] at hb
    split_ifs at hb with h9
    exact ⟨h9, (Except.ok.inj hb).symm⟩
  have hgrouped : Grouped (member 7) admin_group [9] := by
    constructor
    · intro key b hb
      rw [(hcases hb).1]
      exact List.mem_singleton_self 9
    · intro key b hb
      obtain ⟨-, rfl⟩ := hcases hb
      exact ⟨[20], plain_up_to_date rfl rfl ⟨rfl, nofun⟩ rfl rfl nofun nofun, rfl⟩
  obtain ⟨result, hresult, hiff⟩ := h (member 7) admin_group [9] (edited []) [100] 2 hgrouped
    (edited_up_to_date rfl rfl rfl) (by decide)
  obtain rfl : Except.ok [100] = result := Option.some.inj hresult
  rcases hiff.mp rfl with hw | ho | ⟨e, he, -⟩ | ⟨e, he, -, hleads⟩
  · cases hw
  · cases ho
  · cases he
  · rw [List.mem_singleton.mp he] at hleads
    cases hleads with
    | here hm =>
      obtain ⟨b, hb, e, he, -⟩ := hm
      obtain ⟨-, rfl⟩ := hcases hb
      cases he
    | next hn =>
      obtain ⟨b, hb, e, he, -⟩ := hn
      obtain ⟨-, rfl⟩ := hcases hb
      cases he

end memo
