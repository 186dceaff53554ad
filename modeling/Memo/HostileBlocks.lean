-- What a hostile block or signature can make the validation do. The lists of
-- rights and of versions come from the network, with indices into one another,
-- and not every index is checked before it is used.
import Memo.ValidationCache

namespace memo

section

variable {K S H : Type} [DecidableEq K] {dht : Dht K S H} {b new : ACB K H}

/-! ## The checks of a block against the one before and of a removal -/

def MutableBlock.address : MutableBlock K H → Address H
  | .okb b => b.address
  | .acb b => b.address

namespace ACB

/-- The inner loop of `_validate(model, new_block)`, for the group at `i`: from the entry `j` of
the new block on, the first one of the same group says whether its version went down. -/
def downgrades_from (b new : ACB K H) (i : Nat) : Nat → Nat → Except Failure Bool
  | 0, _ => .ok false
  | n + 1, j => do
    let entry ← index b.acl_group_entries i
    let new_entry ← index new.acl_group_entries j
    if entry.key = new_entry.key then do
      let version ← index b.group_version i
      let new_version ← index new.group_version j
      pure (decide (new_version < version))
    else downgrades_from b new i n (j + 1)

/-- The outer loop, from the group at `i` on. -/
def downgrades (b new : ACB K H) : Nat → Nat → Except Failure Bool
  | 0, _ => .ok false
  | n + 1, i => do
    let found ← downgrades_from b new i new.group_version.length 0
    if found then pure true else downgrades b new n (i + 1)

/-- `_validate(model, new_block)`. A group block and an access control block are of two types. -/
def _validate_new [DecidableEq H] (dht : Dht K S H) (b : ACB K H) (new_block : MutableBlock K H) :
    Except Failure ValidationResult :=
  if b.address ≠ new_block.address then
    .ok (.failure ("Addresses do not match (old " ++ dht.ciphers.show_address b.address ++
      " new " ++ dht.ciphers.show_address new_block.address ++ ")"))
  else
    match new_block with
    | .okb _ => .ok (.failure "New block is not an ACB")
    | .acb new =>
      if b.group_part.isSome ≠ new.group_part.isSome then
        .ok (.failure "New block is not an ACB")
      else if new.group_version.length ≠ new.acl_group_entries.length then
        .ok (.failure "Mismatch size in group entries")
      else do
        let found ← downgrades b new b.group_version.length 0
        pure (if found then .conflict "Group key index downgraded." else .success)

end ACB

/-- A request to remove an immutable block. -/
structure RemoveSignature (K : Type) where
  group_key : Option K
  group_index : Option Int
  signature_key : Option K
  signature : Option Buffer

/-- An immutable block. A null owner is none. -/
structure CHB (H : Type) where
  address : Address H
  owner : Option (Address H)

/-- What the removal asks of the network: whether a key signed an address, and the blocks. A block
that is not there may be null or an exception. -/
structure Network (K H : Type) where
  verify : K → Buffer → Address H → Bool
  fetch : Address H → Except String (Option (MutableBlock K H))

/-- The rights of who asks for a removal by a group: the key at the index that is given must be the
one that signed. -/
def group_removes (dht : Dht K S H) (key group_key : K) (group_index : Option Int) :
    Except Failure Bool := do
  let g ← raised (dht.group group_key)
  match group_index with
  | none => .error .empty_optional
  | some i =>
    if i < g.public_keys.length then do
      let pub ← index g.public_keys i
      pure (decide (pub = key))
    else pure false

/-- The rights on the owner of the block. -/
def removes (dht : Dht K S H) (acb : ACB K H) (key : K) (sig : RemoveSignature K) :
    Except Failure Bool :=
  match sig.group_key with
  | none =>
    .ok (match find_entry key acb.acl_entries with
      | some (_, e) => e.write
      | none => false)
  | some group_key =>
    match find_entry group_key acb.acl_group_entries with
    | some (_, e) =>
      if e.write then group_removes dht key group_key sig.group_index else .ok false
    | none => .ok false

/-- `CHB::_validate_remove`, once the signature is verified and the owner is there. -/
def CHB.validate_owner (dht : Dht K S H) (acb : ACB K H) (key : K) (sig : RemoveSignature K) :
    Except Failure ValidationResult :=
  if acb.world_writable then .ok .success
  else if acb.owner_key = key then .ok .success
  else do
    let allowed ← removes dht acb key sig
    pure (if allowed then .success else .failure "Key not found")

/-- `CHB::_validate_remove`. -/
def CHB._validate_remove (dht : Dht K S H) (net : Network K H) (chb : CHB H)
    (sig : RemoveSignature K) : Except Failure ValidationResult :=
  match chb.owner with
  | none => .ok .success
  | some owner =>
    match sig.signature_key, sig.signature with
    | some key, some signature =>
      if !net.verify key signature chb.address then .ok (.failure "Invalid signature")
      else do
        match ← raised (net.fetch owner) with
        | some (.acb acb) =>
          if acb.group_part.isSome then pure .success else CHB.validate_owner dht acb key sig
        | _ => pure .success
    | _, _ => .ok (.failure "Missing field in signature")

/-! ## Safety of a call -/

/-- The call returns or throws: it runs into nothing that is undefined. -/
def Safe {α : Type} (x : Except Failure α) : Prop := ∀ e, x = .error e → e.undefined = false

section

variable {α β : Type}

@[simp] theorem safe_ok (a : α) : Safe (.ok a) := nofun

@[simp] theorem safe_pure (a : α) : Safe (pure a) := nofun

theorem safe_error {e : Failure} : Safe (.error e : Except Failure α) ↔ e.undefined = false := by
  constructor
  · exact fun h => h e rfl
  · intro h e' he
    cases he
    exact h

@[simp] theorem safe_raised (x : Except String α) : Safe (raised x) := by
  cases x with
  | ok a => exact safe_ok a
  | error what => exact safe_error.2 rfl

theorem safe_bind {x : Except Failure α} {f : α → Except Failure β} :
    Safe (x >>= f) ↔ Safe x ∧ ∀ a, x = .ok a → Safe (f a) := by
  cases x with
  | ok a =>
    refine ⟨fun h => ⟨safe_ok a, ?_⟩, fun h => h.2 a rfl⟩
    intro a' ha
    cases ha
    exact h
  | error e =>
    refine ⟨fun h => ⟨?_, nofun⟩, fun h => ?_⟩
    · exact safe_error.2 (h e rfl)
    · exact safe_error.2 (h.1 e rfl)

theorem safe_index {l : List α} {i : Int} : Safe (index l i) ↔ 0 ≤ i ∧ i < l.length := by
  unfold index
  by_cases hi : 0 ≤ i
  · rw [if_pos hi]
    by_cases hl : i < l.length
    · have hlt : i.toNat < l.length := by omega
      rw [List.getElem?_eq_getElem hlt]
      simp [hi, hl]
    · rw [List.getElem?_eq_none (by omega)]
      simp [safe_error, Failure.undefined, hl]
  · rw [if_neg hi]
    simp [safe_error, Failure.undefined, hi]

end

/-! ## `_validate(model, writing)` -/

namespace ACB

variable {e : ACLEntry K} {i : Nat} {use_encrypt : Bool} {gv : List Int}

omit [DecidableEq K] in
theorem verify_group_safe :
    Safe (b.verify_group dht e i) ↔
      ∀ g v, dht.group e.key = .ok g → b.group_version[i]? = some v → 0 ≤ v := by
  unfold verify_group
  cases hg : dht.group e.key with
  | error what => simp
  | ok g =>
    by_cases hi : i < b.group_version.length
    · have hindex : index b.group_version i = .ok b.group_version[i] :=
        index_ok.2 ⟨by omega, by simp [hi]⟩
      simp only [if_neg (show ¬(b.group_version.length : Int) ≤ i by omega), hindex,
        List.getElem?_eq_getElem hi, Option.some.injEq, safe_bind, safe_ok, true_and]
      constructor
      · intro h g' v _ hv
        subst hv
        by_contra hneg
        have hsafe := h _ rfl
        rw [if_neg (by omega), safe_bind, safe_index] at hsafe
        omega
      · intro h v hv
        cases hv
        have hpos := h g _ rfl rfl
        by_cases hk : (g.public_keys.length : Int) ≤ b.group_version[i]
        · rw [if_pos hk]
          exact safe_pure _
        · rw [if_neg hk, safe_bind, safe_index]
          exact ⟨⟨hpos, by omega⟩, fun _ _ => safe_pure _⟩
    · simp only [if_pos (show (b.group_version.length : Int) ≤ i by omega),
        List.getElem?_eq_none (Nat.le_of_not_lt hi)]
      simp

/-- The editor is a group that may write, and the version that is recorded for it is negative. -/
def NegativeEditor (dht : Dht K S H) (b : ACB K H) : Prop :=
  ∃ (i : Nat) (e : ACLEntry K) (g : Group K) (v : Int),
    b.editor = b.acl_entries.length + i ∧ b.acl_group_entries[i]? = some e ∧ e.write = true ∧
      dht.group e.key = .ok g ∧ b.group_version[i]? = some v ∧ v < 0

omit [DecidableEq K] in
theorem validate_author_safe :
    Safe (b.validate_author dht) ↔
      ¬ (dht.validate_signatures = true ∧ NegativeEditor dht b) := by
  unfold validate_author
  by_cases hed : b.editor = -1
  · rw [if_pos hed]
    simp only [safe_ok, true_iff]
    rintro ⟨-, i, -, -, -, hi, -⟩
    omega
  rw [if_neg hed]
  by_cases hneg : b.editor < 0
  · rw [if_pos hneg]
    simp only [safe_ok, true_iff]
    rintro ⟨-, i, -, -, -, hi, -⟩
    omega
  rw [if_neg hneg]
  by_cases hu : (b.acl_entries.length : Int) ≤ b.editor
  · rw [if_pos hu]
    obtain ⟨i, hi⟩ : ∃ i : Nat, b.editor = b.acl_entries.length + i :=
      ⟨(b.editor - b.acl_entries.length).toNat, by omega⟩
    have hgindex : b.editor - b.acl_entries.length = i := by omega
    simp only [hgindex]
    by_cases hg : (b.acl_group_entries.length : Int) ≤ i
    · rw [if_pos hg]
      simp only [safe_ok, true_iff]
      rintro ⟨-, j, e, -, -, hj, he, -⟩
      have hij : j = i := by omega
      subst hij
      rw [List.getElem?_eq_none (by omega)] at he
      cases he
    · have hlt : i < b.acl_group_entries.length := by omega
      have hindex : index b.acl_group_entries i = .ok b.acl_group_entries[i] :=
        index_ok.2 ⟨by omega, by simp [hlt]⟩
      have heditor : NegativeEditor dht b ↔ b.acl_group_entries[i].write = true ∧
          ∃ g v, dht.group b.acl_group_entries[i].key = .ok g ∧ b.group_version[i]? = some v ∧
            v < 0 := by
        constructor
        · rintro ⟨j, e, g, v, hj, he, hw, hrest⟩
          have hij : j = i := by omega
          subst hij
          rw [List.getElem?_eq_getElem hlt] at he
          cases he
          exact ⟨hw, g, v, hrest⟩
        · rintro ⟨hw, g, v, hrest⟩
          exact ⟨i, _, g, v, hi, List.getElem?_eq_getElem hlt, hw, hrest⟩
      rw [if_neg hg, hindex, heditor, safe_bind]
      simp only [safe_ok, true_and, Except.ok.injEq, forall_eq']
      cases hw : b.acl_group_entries[i].write with
      | false => simp
      | true =>
        cases hv : dht.validate_signatures with
        | false => simp
        | true =>
          simp only [Bool.not_true, Bool.false_eq_true, if_false, if_true, verify_group_safe,
            true_and, not_exists, not_and, not_lt]
  · rw [if_neg hu, safe_bind, safe_index]
    constructor
    · rintro - ⟨-, i, -, -, -, hi, -⟩
      omega
    · intro _
      refine ⟨by omega, fun e _ => ?_⟩
      split
      · exact safe_pure _
      · split
        · exact safe_pure _
        · exact safe_pure _

omit [DecidableEq K] in
theorem validate_owner_safe [DecidableEq H] {sign : elle.Version → Signed K} {b : OKB K H} :
    Safe (b.validate_owner dht sign) := by
  unfold OKB.validate_owner
  simp only
  split
  · exact safe_ok _
  · split
    · exact safe_ok _
    · split
      · exact safe_error.2 rfl
      · split
        · exact safe_ok _
        · exact safe_ok _

/-- The validation comes to a negative version: the owner part is valid, the world may not write,
and the editor has such a version. -/
def ReachesNegative [DecidableEq H] (dht : Dht K S H) (b : ACB K H) : Prop :=
  (OKB.Header dht b.toOKB ∧ OKB.Certified dht b._sign b.toOKB) ∧ b.world_writable = false ∧
    dht.validate_signatures = true ∧ NegativeEditor dht b

theorem validate_safe [DecidableEq H] {writing : Bool} :
    Safe (b._validate dht writing) ↔ ¬ ReachesNegative dht b := by
  have hrest : ∀ res : ValidationResult, Safe (if res ≠ .success then pure res
      else if writing then pure (b._validate_admin_keys dht) else pure .success) := by
    intro res
    split
    · exact safe_pure _
    · split
      · exact safe_pure _
      · exact safe_pure _
  unfold _validate ReachesNegative
  rw [← OKB.validate_owner_success, safe_bind]
  constructor
  · rintro ⟨-, h⟩ ⟨ho, hw, hneg⟩
    have hsafe := h _ ho
    rw [if_neg (by simp), hw, if_neg (by simp), safe_bind] at hsafe
    exact validate_author_safe.1 hsafe.1 hneg
  · intro h
    refine ⟨validate_owner_safe, fun res hres => ?_⟩
    by_cases hr : res = .success
    · subst hr
      rw [if_neg (by simp)]
      cases hw : b.world_writable with
      | true => exact safe_pure _
      | false =>
        rw [if_neg (by simp), safe_bind]
        exact ⟨validate_author_safe.2 fun hneg => h ⟨hres, hw, hneg⟩, fun res _ => hrest res⟩
    · rw [if_pos hr]
      exact safe_pure _

/-! ## `_validate(model, new_block)` -/

/-- The first entry of the new block for the group at `i` has a lower version. -/
def Downgraded (b new : ACB K H) (i : Nat) : Prop :=
  ∃ e v j e' w, b.acl_group_entries[i]? = some e ∧ b.group_version[i]? = some v ∧
    find_entry e.key new.acl_group_entries = some (j, e') ∧ new.group_version[j]? = some w ∧ w < v

theorem downgrades_from_ok {v : Int}
    (hsize : new.group_version.length = new.acl_group_entries.length)
    (he : b.acl_group_entries[i]? = some e) (hv : b.group_version[i]? = some v) (n j : Nat)
    (hn : j + n = new.group_version.length) :
    ∃ r, downgrades_from b new i n j = .ok r ∧ (r = true ↔
      ∃ k e' w, find_entry e.key (new.acl_group_entries.drop j) = some (k, e') ∧
        new.group_version[j + k]? = some w ∧ w < v) := by
  induction n generalizing j with
  | zero =>
    refine ⟨false, rfl, ?_⟩
    rw [List.drop_eq_nil_of_le (by omega)]
    simp [find_entry]
  | succ n ih =>
    have hlt : j < new.acl_group_entries.length := by omega
    have hlt' : j < new.group_version.length := by omega
    have h₁ : index b.acl_group_entries i = .ok e := index_ok.2 ⟨by omega, by simpa using he⟩
    have h₂ : index new.acl_group_entries j = .ok new.acl_group_entries[j] :=
      index_ok.2 ⟨by omega, by simp [hlt]⟩
    unfold downgrades_from
    rw [List.drop_eq_getElem_cons hlt]
    simp only [h₁, h₂, bind, Except.bind, find_entry]
    by_cases hk : e.key = new.acl_group_entries[j].key
    · have h₃ : index b.group_version i = .ok v := index_ok.2 ⟨by omega, by simpa using hv⟩
      have h₄ : index new.group_version j = .ok new.group_version[j] :=
        index_ok.2 ⟨by omega, by simp [hlt']⟩
      simp only [if_pos hk, if_pos hk.symm, h₃, h₄]
      refine ⟨_, rfl, ?_⟩
      constructor
      · intro hr
        exact ⟨0, _, _, rfl, List.getElem?_eq_getElem hlt', of_decide_eq_true hr⟩
      · rintro ⟨k, e', w, hf, hw, hlt⟩
        cases hf
        rw [Nat.add_zero, List.getElem?_eq_getElem hlt'] at hw
        cases hw
        exact decide_eq_true hlt
    · obtain ⟨r, hr, hiff⟩ := ih (j + 1) (by omega)
      simp only [if_neg hk, if_neg (Ne.symm hk)]
      refine ⟨r, hr, hiff.trans ?_⟩
      constructor
      · rintro ⟨k, e', w, hf, hw, hlt⟩
        refine ⟨k + 1, e', w, by rw [hf]; rfl, ?_, hlt⟩
        rw [show j + (k + 1) = j + 1 + k by omega]
        exact hw
      · rintro ⟨k, e', w, hf, hw, hlt⟩
        obtain ⟨⟨k', e''⟩, hf', hp⟩ := Option.map_eq_some_iff.1 hf
        cases hp
        refine ⟨k', e'', w, hf', ?_, hlt⟩
        rw [show j + 1 + k' = j + (k' + 1) by omega]
        exact hw

theorem downgrades_from_first (hsize : new.group_version.length = new.acl_group_entries.length)
    (hi : i < b.acl_group_entries.length) (hv : i < b.group_version.length) :
    ∃ r, downgrades_from b new i new.group_version.length 0 = .ok r ∧
      (r = true ↔ Downgraded b new i) := by
  have he := List.getElem?_eq_getElem hi
  have hv' := List.getElem?_eq_getElem hv
  obtain ⟨r, hr, hiff⟩ := downgrades_from_ok hsize he hv' new.group_version.length 0 (by omega)
  refine ⟨r, hr, hiff.trans ?_⟩
  simp only [List.drop_zero, Nat.zero_add]
  constructor
  · rintro ⟨k, e', w, hrest⟩
    exact ⟨_, _, k, e', w, he, hv', hrest⟩
  · rintro ⟨e, v, k, e', w, he', hv'', hrest⟩
    rw [he] at he'
    rw [hv'] at hv''
    cases he'
    cases hv''
    exact ⟨k, e', w, hrest⟩

theorem downgrades_nil (h : new.group_version = []) (n i : Nat) :
    downgrades b new n i = .ok false := by
  induction n generalizing i with
  | zero => rfl
  | succ n ih =>
    unfold downgrades
    rw [h]
    exact ih (i + 1)

theorem downgrades_safe (hsize : new.group_version.length = new.acl_group_entries.length)
    (hnew : new.group_version ≠ []) (n i : Nat) (hn : i + n = b.group_version.length)
    (hi : i ≤ b.acl_group_entries.length) :
    Safe (downgrades b new n i) ↔ b.group_version.length ≤ b.acl_group_entries.length ∨
      ∃ k, i ≤ k ∧ Downgraded b new k := by
  induction n generalizing i with
  | zero =>
    simp only [downgrades, safe_ok, true_iff]
    left
    omega
  | succ n ih =>
    unfold downgrades
    rw [safe_bind]
    by_cases hlt : i < b.acl_group_entries.length
    · obtain ⟨r, hr, hdown⟩ := downgrades_from_first hsize hlt (show i < _ by omega)
      rw [hr]
      simp only [safe_ok, true_and, Except.ok.injEq, forall_eq']
      cases r with
      | true =>
        simp only [if_true, safe_pure, true_iff]
        exact Or.inr ⟨i, le_refl i, hdown.1 rfl⟩
      | false =>
        have hnot : ¬ Downgraded b new i := by simpa using hdown
        simp only [Bool.false_eq_true, if_false]
        rw [ih (i + 1) (by omega) (by omega)]
        have hsame : (∃ k, i + 1 ≤ k ∧ Downgraded b new k) ↔ ∃ k, i ≤ k ∧ Downgraded b new k := by
          constructor
          · rintro ⟨k, hk, hd⟩
            exact ⟨k, by omega, hd⟩
          · rintro ⟨k, hk, hd⟩
            by_cases hik : i = k
            · subst hik
              exact absurd hd hnot
            · exact ⟨k, by omega, hd⟩
        rw [hsame]
    · -- the loop goes by the versions, and reads an entry that is not there
      have hbad : ¬ Safe (downgrades_from b new i new.group_version.length 0) := by
        rw [← List.length_pos_iff] at hnew
        obtain ⟨m, hm⟩ : ∃ m, new.group_version.length = m + 1 :=
          ⟨new.group_version.length - 1, by omega⟩
        rw [hm]
        unfold downgrades_from
        rw [safe_bind, safe_index]
        omega
      have hnone : ¬ ∃ k, i ≤ k ∧ Downgraded b new k := by
        rintro ⟨k, hk, e, v, j, e', w, he, -⟩
        rw [List.getElem?_eq_none (by omega)] at he
        cases he
      have hlong : ¬ b.group_version.length ≤ b.acl_group_entries.length := by omega
      simp only [hbad, hlong, hnone, or_false, false_and]

/-- The block before has more versions than groups, and nothing stops the comparison before the
first version without a group. -/
def ReachesMissingGroup (b : ACB K H) (new_block : MutableBlock K H) : Prop :=
  ∃ new, new_block = .acb new ∧ b.address = new.address ∧
    b.group_part.isSome = new.group_part.isSome ∧
    new.group_version.length = new.acl_group_entries.length ∧ new.group_version ≠ [] ∧
    b.acl_group_entries.length < b.group_version.length ∧ ∀ i, ¬ Downgraded b new i

theorem validate_new_safe [DecidableEq H] {new_block : MutableBlock K H} :
    Safe (b._validate_new dht new_block) ↔ ¬ ReachesMissingGroup b new_block := by
  unfold _validate_new ReachesMissingGroup
  by_cases ha : b.address = new_block.address
  · rw [if_neg (not_not.2 ha)]
    cases new_block with
    | okb new => simp
    | acb new =>
      change b.address = new.address at ha
      simp only [MutableBlock.acb.injEq, exists_eq_left', ha, true_and]
      by_cases hp : b.group_part.isSome = new.group_part.isSome
      · rw [if_neg (not_not.2 hp)]
        by_cases hs : new.group_version.length = new.acl_group_entries.length
        · rw [if_neg (not_not.2 hs), safe_bind]
          simp only [safe_pure, implies_true, and_true, hp, hs, true_and]
          by_cases hnil : new.group_version = []
          · rw [downgrades_nil hnil]
            simp [hnil]
          · rw [downgrades_safe hs hnil b.group_version.length 0 (by omega) (by omega)]
            simp only [Nat.zero_le, true_and, hnil, ne_eq, not_false_eq_true, not_and, not_forall,
              not_not]
            constructor
            · rintro (h | h) hlt
              · omega
              · exact h
            · intro h
              by_cases hle : b.group_version.length ≤ b.acl_group_entries.length
              · exact Or.inl hle
              · exact Or.inr (h (by omega))
        · rw [if_pos hs]
          simp [hs]
      · rw [if_pos hp]
        simp [hp]
  · rw [if_pos ha]
    simp only [safe_ok, true_iff]
    rintro ⟨new, hnew, hn, -⟩
    subst hnew
    exact ha hn

/-! ## `_decrypt_data` -/

/-- The keys of the group of an entry are read, at a version that is not recorded. -/
def Unrecorded (dht : Dht K S H) (group_version : List Int) (i : Nat) (e : ACLEntry K) : Prop :=
  ∃ g keys, dht.group e.key = .ok g ∧ g.group_keys = .ok keys ∧
    ∀ v, group_version[i]? = some v → v < 0

omit [DecidableEq K] in
theorem open_group_safe :
    Safe (open_group dht use_encrypt gv i e) ↔ ¬ Unrecorded dht gv i e := by
  unfold open_group Unrecorded
  cases hg : dht.group e.key with
  | error what => simp
  | ok g =>
    cases hk : g.group_keys with
    | error what => simp [hk]
    | ok keys =>
      simp only [Except.ok.injEq, exists_and_left, exists_eq_left', hk]
      rw [safe_bind, safe_index]
      by_cases hi : i < gv.length
      · have hindex : index gv i = .ok gv[i] := index_ok.2 ⟨by omega, by simp [hi]⟩
        simp only [hindex, Except.ok.injEq, forall_eq', List.getElem?_eq_getElem hi,
          Option.some.injEq, not_lt]
        by_cases hle : (keys.length : Int) ≤ gv[i]
        · rw [if_pos hle]
          simp only [safe_pure, and_true]
          omega
        · rw [if_neg hle, safe_bind, safe_index]
          constructor
          · exact fun h => h.2.1.1
          · intro hpos
            refine ⟨by omega, ⟨hpos, by omega⟩, fun key _ => ?_⟩
            split
            · exact safe_pure _
            · exact safe_pure _
      · rw [List.getElem?_eq_none (by omega)]
        simp [hi]

omit [DecidableEq K] in
theorem open_group_returns (h : Safe (open_group dht use_encrypt gv i e)) :
    ∃ r, open_group dht use_encrypt gv i e = .ok r := by
  cases hx : open_group dht use_encrypt gv i e with
  | ok r => exact ⟨r, rfl⟩
  | error f =>
    exfalso
    have hindex : ∀ {α : Type} {l : List α} {k : Int} {f : Failure}, index l k = .error f →
        f.undefined = true := by
      intro α l k f hf
      unfold index at hf
      split at hf
      · split at hf
        · cases hf
        · cases hf
          rfl
      · cases hf
        rfl
    have hnot : f.undefined ≠ true := by simp [h f hx]
    unfold open_group at hx
    split at hx
    · cases hx
    · split at hx
      · cases hx
      · rcases except_bind_error hx with hf | ⟨v, -, hx⟩
        · exact hnot (hindex hf)
        · split at hx
          · cases hx
          · rcases except_bind_error hx with hf | ⟨key, -, hx⟩
            · exact hnot (hindex hf)
            · split at hx
              · cases hx
              · cases hx

omit [DecidableEq K] in
theorem group_secret_safe {idx : Nat} {es : List (ACLEntry K)} {secret : Buffer} :
    Safe (group_secret dht use_encrypt gv idx es secret) ↔
      ∀ j e, es[j]? = some e → ¬ Unrecorded dht gv (idx + j) e := by
  induction es generalizing idx secret with
  | nil => simp [group_secret]
  | cons a es ih =>
    unfold group_secret
    rw [safe_bind]
    constructor
    · rintro ⟨h, hrest⟩ j e he
      cases j with
      | zero =>
        cases he
        exact open_group_safe.1 h
      | succ j =>
        obtain ⟨r, hr⟩ := open_group_returns h
        rw [show idx + (j + 1) = idx + 1 + j by omega]
        exact ih.1 (hrest r hr) j e he
    · intro h
      refine ⟨open_group_safe.2 (h 0 a rfl), fun r _ => ih.2 ?_⟩
      intro j e he
      rw [show idx + 1 + j = idx + (j + 1) by omega]
      exact h (j + 1) e he

theorem user_secret_safe (use_encrypt : Bool) (es : List (ACLEntry K)) (secret : Buffer) :
    Safe (user_secret dht use_encrypt es secret) := by
  induction es generalizing secret with
  | nil => exact safe_ok _
  | cons e es ih =>
    unfold user_secret
    split
    · rw [safe_bind]
      exact ⟨safe_raised _, fun opened _ => ih opened⟩
    · exact ih secret

/-- The secret that the owner or the entries of our key give. -/
def own_secret (dht : Dht K S H) (b : ACB K H) : Except Failure Buffer :=
  if b.owner_private_key then raised (dht.ciphers.decrypt b.use_encrypt b.owner_key b.owner_token)
  else user_secret dht b.use_encrypt b.acl_entries []

/-- The groups are asked for the secret, and one of them has no version. -/
def ReachesUnrecorded (dht : Dht K S H) (b : ACB K H) : Prop :=
  b.world_readable = false ∧ b.own_secret dht = .ok [] ∧
    ∃ i e, b.acl_group_entries[i]? = some e ∧ Unrecorded dht b.group_version i e

theorem decrypt_data_safe : Safe (b._decrypt_data dht) ↔ ¬ ReachesUnrecorded dht b := by
  have hgroups : Safe (group_secret dht b.use_encrypt b.group_version 0 b.acl_group_entries []) ↔
      ¬ ∃ i e, b.acl_group_entries[i]? = some e ∧ Unrecorded dht b.group_version i e := by
    rw [group_secret_safe]
    simp only [Nat.zero_add, not_exists, not_and]
  have hown : Safe (b.own_secret dht) := by
    unfold own_secret
    split
    · exact safe_raised _
    · exact user_secret_safe _ _ _
  have hrest : ∀ secret : Buffer, Safe (if secret = [] then
      .error (.validation_failed "no read permissions") else do
        let key ← raised (dht.ciphers.secret_of b.use_encrypt secret)
        raised (dht.ciphers.decipher key b.data)) := by
    intro secret
    split
    · exact safe_error.2 rfl
    · rw [safe_bind]
      exact ⟨safe_raised _, fun _ _ => safe_raised _⟩
  unfold ReachesUnrecorded
  unfold _decrypt_data
  change Safe (if b.world_readable then .ok b.data else b.own_secret dht >>= _) ↔ _
  cases hw : b.world_readable with
  | true => simp
  | false =>
    simp only [Bool.false_eq_true, if_false, true_and]
    rw [safe_bind]
    constructor
    · rintro ⟨-, h⟩ ⟨hs, hex⟩
      have hsafe := h [] hs
      rw [safe_bind, if_pos rfl, hgroups] at hsafe
      exact hsafe.1 hex
    · intro h
      refine ⟨hown, fun secret hs => ?_⟩
      rw [safe_bind]
      refine ⟨?_, fun secret _ => hrest secret⟩
      split
      next hnil =>
        subst hnil
        exact hgroups.2 fun hex => h ⟨hs, hex⟩
      next => exact safe_ok _

end ACB

/-! ## The removal of an immutable block -/

/-- A signer who is in a group that may write gives no index of a key of it, or a negative one. -/
def ReachesNoIndex (dht : Dht K S H) (net : Network K H) (chb : CHB H) (sig : RemoveSignature K) :
    Prop :=
  ∃ owner key signature acb group_key i e g,
    chb.owner = some owner ∧ sig.signature_key = some key ∧ sig.signature = some signature ∧
    net.verify key signature chb.address = true ∧ net.fetch owner = .ok (some (.acb acb)) ∧
    acb.group_part = none ∧ acb.world_writable = false ∧ acb.owner_key ≠ key ∧
    sig.group_key = some group_key ∧
    find_entry group_key acb.acl_group_entries = some (i, e) ∧ e.write = true ∧
    dht.group group_key = .ok g ∧ ∀ index, sig.group_index = some index → index < 0

theorem group_removes_safe {key group_key : K} {group_index : Option Int} :
    Safe (group_removes dht key group_key group_index) ↔
      ¬ ∃ g, dht.group group_key = .ok g ∧ ∀ index, group_index = some index → index < 0 := by
  unfold group_removes
  rw [safe_bind]
  simp only [safe_raised, true_and]
  cases hg : dht.group group_key with
  | error what => simp [raised]
  | ok g =>
    simp only [raised, Except.ok.injEq, forall_eq', exists_eq_left']
    cases group_index with
    | none => simp [safe_error, Failure.undefined]
    | some i =>
      simp only [Option.some.injEq, forall_eq', not_lt]
      by_cases hlt : i < g.public_keys.length
      · rw [if_pos hlt, safe_bind, safe_index]
        simp [hlt]
      · rw [if_neg hlt]
        simp only [safe_pure, true_iff]
        omega

variable {sig : RemoveSignature K}

theorem removes_safe {acb : ACB K H} {key : K} :
    Safe (removes dht acb key sig) ↔ ¬ ∃ group_key i e g, sig.group_key = some group_key ∧
      find_entry group_key acb.acl_group_entries = some (i, e) ∧ e.write = true ∧
      dht.group group_key = .ok g ∧ ∀ index, sig.group_index = some index → index < 0 := by
  unfold removes
  cases hk : sig.group_key with
  | none => simp
  | some group_key =>
    simp only [Option.some.injEq, exists_and_left, exists_eq_left']
    cases hf : find_entry group_key acb.acl_group_entries with
    | none => simp
    | some p =>
      obtain ⟨i, e⟩ := p
      cases hw : e.write with
      | false => simp [hw]
      | true =>
        simp only [hw, if_true]
        rw [group_removes_safe]
        simp [hw]

theorem chb_validate_owner_safe {acb : ACB K H} {key : K} :
    Safe (CHB.validate_owner dht acb key sig) ↔
      (acb.world_writable = false → acb.owner_key ≠ key → Safe (removes dht acb key sig)) := by
  unfold CHB.validate_owner
  cases hw : acb.world_writable with
  | true => simp
  | false =>
    by_cases ho : acb.owner_key = key
    · simp [ho]
    · simp only [Bool.false_eq_true, if_false, if_neg ho]
      rw [safe_bind]
      simp [ho]

theorem validate_remove_safe {net : Network K H} {chb : CHB H} :
    Safe (chb._validate_remove dht net sig) ↔ ¬ ReachesNoIndex dht net chb sig := by
  unfold CHB._validate_remove ReachesNoIndex
  cases ho : chb.owner with
  | none => simp
  | some owner =>
    cases hk : sig.signature_key with
    | none => simp
    | some key =>
      cases hs : sig.signature with
      | none => simp
      | some signature =>
        cases hv : net.verify key signature chb.address with
        | false => simp [hv]
        | true =>
          simp only [hv, Bool.not_true, Bool.false_eq_true, if_false, safe_bind, safe_raised,
            true_and]
          cases hf : net.fetch owner with
          | error what => simp [raised, hf]
          | ok block =>
            simp only [raised, Except.ok.injEq, forall_eq']
            split
            next acb =>
              cases hp : acb.group_part with
              | some p => simp [hp, hf]
              | none =>
                simp only [Option.isSome_none, Bool.false_eq_true, if_false,
                  chb_validate_owner_safe, removes_safe]
                constructor
                · rintro h ⟨_, _, _, _, gk, i, e, g, ho', hk', hs', hv', hf', hp', hw, hne, hrest⟩
                  cases ho'
                  cases hk'
                  cases hs'
                  rw [hf] at hf'
                  cases hf'
                  exact h hw hne ⟨gk, i, e, g, hrest⟩
                · rintro h hw hne ⟨gk, i, e, g, hrest⟩
                  exact h ⟨owner, key, signature, acb, gk, i, e, g, rfl, rfl, rfl, hv, hf, hp, hw,
                    hne, hrest⟩
            next hblock =>
              simp only [safe_pure, true_iff]
              rintro ⟨_, _, _, acb, _, _, _, _, ho', -, -, -, hf', -⟩
              cases ho'
              rw [hf] at hf'
              cases hf'
              exact hblock acb rfl

/-- The four checks are safe, each as long as one kind of index does not come to be used. -/
theorem validation_is_safe_unless_an_unchecked_index_is_used [DecidableEq H] (dht : Dht K S H)
    (net : Network K H) (b before : ACB K H) (new_block : MutableBlock K H) (chb : CHB H)
    (sig : RemoveSignature K) (writing : Bool) :
    (Safe (b._validate dht writing) ↔ ¬ b.ReachesNegative dht) ∧
      (Safe (before._validate_new dht new_block) ↔ ¬ before.ReachesMissingGroup new_block) ∧
      (Safe (b._decrypt_data dht) ↔ ¬ b.ReachesUnrecorded dht) ∧
      (Safe (chb._validate_remove dht net sig) ↔ ¬ ReachesNoIndex dht net chb sig) :=
  ⟨ACB.validate_safe, ACB.validate_new_safe, ACB.decrypt_data_safe, validate_remove_safe⟩

end

/-- A block that the user 7 wrote as a member of the group 9, with a version for the group. -/
def group_written (version : Int) : ACB UInt8 UInt8 :=
  { edited [] with editor := 0, group_version := [version], data_signature := [20] }

/-- The version 0 is the one of the key 20. -/
example : (group_written 0)._validate (member 3) false = .ok .success := by decide

/-- The version -1 is read all the same. -/
theorem a_negative_version_is_read :
    ¬ ∀ (dht : Dht UInt8 UInt8 UInt8) (net : Network UInt8 UInt8) (b before : ACB UInt8 UInt8)
      (new_block : MutableBlock UInt8 UInt8) (chb : CHB UInt8) (sig : RemoveSignature UInt8)
      (writing : Bool),
      Safe (b._validate dht writing) ∧ Safe (before._validate_new dht new_block) ∧
        Safe (b._decrypt_data dht) ∧ Safe (chb._validate_remove dht net sig) := by
  intro h
  have hsafe := (h (member 3) ⟨fun _ _ _ => true, fun _ => .ok none⟩ (group_written (-1))
    (group_written 0) (.acb (group_written 0)) ⟨⟨2, 0⟩, none⟩ ⟨none, none, none, none⟩ false).1
  have hread : (group_written (-1))._validate (member 3) false = .error .out_of_bounds := by
    decide
  exact absurd (hsafe _ hread) (by decide)

end memo
