-- The cache of `Block::validate`. One flag says that a block was found valid,
-- whether for reading or for writing. New data takes it back; new rights and a
-- seal do not. It is transparent as long as nobody asks it about rights that
-- are not sealed, or for more than it was given for.
import Memo.SealSteps

open ops

namespace memo

section

variable {K S H : Type} [DecidableEq K] {dht : Dht K S H}

/-- Signatures are correct for their key alone; an empty buffer is none. -/
structure Ciphers.Sound (c : Ciphers K S H) : Prop where
  signs : c.Signs
  filled : ∀ v k p, c.sign v k p ≠ []
  empty : ∀ k p, c.verify k [] p = false

theorem Ciphers.Sound.verifies {c : Ciphers K S H} (h : c.Sound) (v : elle.Version) (k : K)
    (p : elle.Version → Signed K) : c.verify k (c.sign v k (p v)) p = true := by
  rw [h.signs]
  exact decide_eq_true rfl

/-- Each of the keys has the right, by its first entry. -/
def Granted (owner : K) (keys : List K) (write : Bool) (entries : List (ACLEntry K)) : Prop :=
  ∀ k ∈ keys, k ≠ owner →
    ∃ i e, find_entry k entries = some (i, e) ∧ e.read = true ∧ e.write = write

/-- The admin keys have the rights that a seal gives them. -/
structure ACB.Enforced (dht : Dht K S H) (b : ACB K H) : Prop where
  r : Granted b.owner_key dht.admin_keys.r false b.acl_entries
  w : Granted b.owner_key dht.admin_keys.w true b.acl_entries
  group_r : Granted b.owner_key dht.admin_keys.group_r false b.acl_group_entries
  group_w : Granted b.owner_key dht.admin_keys.group_w true b.acl_group_entries

/-- No entry of a group is inserted without the group being found: the new rights are noted by
then, or a token needs the group first, or it has its entry, or it is there. -/
def ACB.Fetches (dht : Dht K S H) (keys : List K) (b : ACB K H) : Prop :=
  b.acl_changed = true ∨ b.owner_token ≠ [] ∨
    ∀ k ∈ keys, (find_entry k b.acl_group_entries).isSome = true ∨ ∃ g, dht.group k = .ok g

/-- Who seals is the owner or, when there are no new rights, may write. -/
def ACB.Seals (dht : Dht K S H) (b : ACB K H) : Prop :=
  b.owner_private_key = true ∧ b.Fetches dht (dht.admin_keys.group_r ++ dht.admin_keys.group_w) ∨
    b.acl_changed = false ∧ b.Enforced dht ∧ b.Rightful dht

/-- A mutable block: with an owner alone, or with rights. -/
inductive MutableBlock (K H : Type) where
  | okb (b : OKB K H)
  | acb (b : ACB K H)

namespace MutableBlock

variable [DecidableEq H]

def validated : MutableBlock K H → Bool
  | .okb b => b.validated
  | .acb b => b.validated

/-- The block, with the flag of the cache. -/
def mark (v : Bool) : MutableBlock K H → MutableBlock K H
  | .okb b => .okb { b with validated := v }
  | .acb b => .acb { b with validated := v }

/-- `_validate(model, writing)`. -/
def _validate (dht : Dht K S H) (writing : Bool) :
    MutableBlock K H → Except Failure ValidationResult
  | .okb b => b._validate dht
  | .acb b => b._validate dht writing

/-- `Block::validate(model, writing)`. -/
def validate (dht : Dht K S H) (writing : Bool) :
    Op (MutableBlock K H) Failure ValidationResult := fun b =>
  if b.validated then (.ok .success, b)
  else
    match b._validate dht writing with
    | .ok res => (.ok res, b.mark (decide (res = .success)))
    | .error e => (.error e, b)

/-! ## The calls -/

inductive Call (K S : Type) where
  | validate (writing : Bool)
  | data (data : Buffer)
  | transform (transformation : Buffer → Buffer)
  | set_permissions (key : K) (read write : Bool)
  | set_group_permissions (key : K) (read write : Bool)
  | set_world_permissions (read write : Bool)
  | seal (version : Option Int) (secret : S)
  | clone

/-- A call of an ACB. An OKB has no such call. -/
def on_acb (x : Op (ACB K H) Failure Unit) : Op (MutableBlock K H) Failure Unit
  | .okb b => (.ok (), .okb b)
  | .acb b => ((x b).1, .acb (x b).2)

/-- A call of both kinds of block. -/
def on_both (x : Op (OKB K H) Failure Unit) (y : Op (ACB K H) Failure Unit) :
    Op (MutableBlock K H) Failure Unit
  | .okb b => ((x b).1, .okb (x b).2)
  | .acb b => ((y b).1, .acb (y b).2)

/-- A clone is a copy of all the fields, the flag of the cache with them. -/
def Call.run (dht : Dht K S H) : Call K S → Op (MutableBlock K H) Failure Unit
  | .validate writing => do
    let _ ← MutableBlock.validate dht writing
    pure ()
  | .data d => on_both (Op.modify (OKB.set_data d)) (ACB.set_data d)
  | .transform f =>
    on_both (fun b => OKB.transform_data (b._decrypt_data dht) f b) (ACB.transform_data dht f)
  | .set_permissions k r w => on_acb (ACB.set_permissions dht k r w)
  | .set_group_permissions k r w => on_acb (ACB.set_group_permissions dht k r w)
  | .set_world_permissions r w => on_acb (Op.modify (ACB._set_world_permissions r w))
  | .seal version secret => on_both (OKB._seal dht version) (ACB._seal dht version secret)
  | .clone => pure ()

/-- What a call must find on a block that is marked. To validate asks about sealed rights and, for
writing, about the admin keys that the mark does not cover. A group that is not found leaves its
entry behind, and a seal that is refused leaves a part of its work. -/
def Call.Meets (dht : Dht K S H) : MutableBlock K H → Call K S → Prop
  | .acb b, .validate writing => b.validated = true → b.acl_changed = false ∧
      (writing = true → b.world_writable = true ∨ b._validate_admin_keys dht = .success)
  | .acb b, .set_group_permissions k r w => b.validated = true → (r || w) = true →
      b.Fetches dht [k]
  | .acb b, .seal _ _ => b.validated = true → b.Seals dht
  | .okb b, .seal version _ => b.validated = true → b.owner_private_key = true ∨
      b.data_changed = false ∧ version = none ∧ b.next_seal_version.getD 0 = 0
  | _, _ => True

/-- The run of a list of calls. A call may throw: the block is then as the call left it. -/
def after_calls (dht : Dht K S H) (b : MutableBlock K H) (calls : List (Call K S)) :
    MutableBlock K H :=
  calls.foldl (fun b c => (c.run dht b).2) b

/-- No call runs into what is undefined, and each finds what it must. -/
def AllMeet (dht : Dht K S H) : MutableBlock K H → List (Call K S) → Prop
  | _, [] => True
  | b, c :: calls =>
    (∀ e, (c.run dht b).1 = .error e → e.undefined = false) ∧ c.Meets dht b ∧
      AllMeet dht (c.run dht b).2 calls

end MutableBlock

/-! ## What is valid -/

namespace OKB

variable [DecidableEq H]

/-- The address is that of the owner and the salt. -/
def Header (dht : Dht K S H) (b : OKB K H) : Prop :=
  Address.equal_unflagged b.address (hash_address dht b.owner_key b.salt) = true

/-- The owner signed. -/
def Certified (dht : Dht K S H) (sign : elle.Version → Signed K) (b : OKB K H) : Prop :=
  dht.validate_signatures = true →
    b.signature ≠ [] ∧ dht.ciphers.verify b.owner_key b.signature sign = true

omit [DecidableEq K] in
theorem validate_owner_success {sign : elle.Version → Signed K} {b : OKB K H} :
    b.validate_owner dht sign = .ok .success ↔ Header dht b ∧ Certified dht sign b := by
  unfold validate_owner Header Certified
  cases ha : Address.equal_unflagged b.address (hash_address dht b.owner_key b.salt) with
  | false => simp [ha]
  | true =>
    cases hv : dht.validate_signatures with
    | false => simp [ha]
    | true =>
      by_cases hs : b.signature = []
      · simp [ha, hs]
      · cases hk : dht.ciphers.verify b.owner_key b.signature sign <;> simp [ha, hs]

end OKB

namespace ACB

variable {b b' m m' m₁ m₂ m₃ : ACB K H} {k k₂ k₃ : Option K} {v : Option Int} {key : S}

theorem validate_success [DecidableEq H] {writing : Bool} :
    b._validate dht writing = .ok .success ↔
      (OKB.Header dht b.toOKB ∧ OKB.Certified dht b._sign b.toOKB) ∧
        (b.world_writable = true ∨ b.validate_author dht = .ok .success ∧
          (writing = true → b._validate_admin_keys dht = .success)) := by
  rw [← OKB.validate_owner_success]
  unfold _validate
  cases ho : b.toOKB.validate_owner dht b._sign with
  | error e => simp [bind, Except.bind]
  | ok res =>
    by_cases hr : res = .success
    · subst hr
      cases hw : b.world_writable with
      | true => simp [bind, Except.bind, pure, Except.pure]
      | false =>
        cases ha : b.validate_author dht with
        | error e => simp [bind, Except.bind]
        | ok res =>
          by_cases hres : res = .success
          · subst hres
            cases writing <;> simp [bind, Except.bind, pure, Except.pure]
          · simp [bind, Except.bind, pure, Except.pure, hres]
    · simp [bind, Except.bind, pure, Except.pure, hr]

omit [DecidableEq K] in
theorem sign_congr (h₁ : b'.salt = b.salt) (h₂ : b'.owner_key = b.owner_key)
    (h₃ : b'.version = b.version) (h₄ : permissions b'.acl_entries = permissions b.acl_entries)
    (h₅ : permissions b'.acl_group_entries = permissions b.acl_group_entries)
    (h₆ : b'.world_readable = b.world_readable) (h₇ : b'.world_writable = b.world_writable)
    (h₈ : b'.group_part = b.group_part) : b'._sign = b._sign := by
  funext v
  unfold _sign
  rw [h₁, h₂, h₃, h₄, h₅, h₆, h₇, h₈]

theorem seal_data_sign {k' : Option K} (h : seal_data dht key k b = (.ok k', b')) :
    b'._sign = b._sign ∧ b'.signature = b.signature ∧ b'.address = b.address ∧
      b'.owner_key = b.owner_key ∧ b'.salt = b.salt := by
  obtain ⟨users, author, groups, gv, author', hu, hg, hb, -⟩ := seal_data_ok h
  subst hb
  refine ⟨?_, rfl, rfl, rfl, rfl⟩
  exact sign_congr rfl rfl rfl (seal_users_rights hu) (seal_groups_ok hg).rights rfl rfl rfl

/-! ## Rights that are noted -/

theorem set_permissions_same {k : K} {w : Bool} {i : Nat} {e : ACLEntry K} (hk : k ≠ b.owner_key)
    (hf : find_entry k b.acl_entries = some (i, e)) (hr : e.read = true) (hw : e.write = w) :
    set_permissions dht k true w b = (.ok (), b) := by
  have he : ({ e with read := true, write := w } : ACLEntry K) = e := by rw [← hr, ← hw]
  unfold set_permissions
  rw [if_neg hk, hf]
  simp [he, hr, hw, set_of_getElem? (find_entry_some hf).1]

theorem set_group_permissions_same {k : K} {w : Bool} {i : Nat} {e : ACLEntry K}
    (hf : find_entry k b.acl_group_entries = some (i, e)) (hr : e.read = true) (hw : e.write = w) :
    set_group_permissions dht k true w b = (.ok (), b) := by
  have he : ({ e with read := true, write := w } : ACLEntry K) = e := by rw [← hr, ← hw]
  unfold set_group_permissions
  rw [hf]
  simp [he, hr, hw, set_of_getElem? (find_entry_some hf).1]

omit [DecidableEq K] in
theorem each_same {α : Type} {f : α → Op (ACB K H) Failure Unit} {l : List α}
    (hf : ∀ a ∈ l, f a b = (.ok (), b)) : each f l b = (.ok (), b) := by
  induction l with
  | nil => rfl
  | cons a l ih =>
    unfold each
    rw [Op.bind_of_ok (hf a List.mem_cons_self)]
    exact ih fun c hc => hf c (List.mem_cons_of_mem a hc)

theorem enforce_same (h : b.Enforced dht) :
    enforce_admin_keys dht b = (.ok (), b) := by
  have hu : ∀ keys w, Granted b.owner_key keys w b.acl_entries →
      each (fun k => set_permissions dht k true w) (keys.filter (· ≠ b.owner_key)) b =
        (.ok (), b) := by
    intro keys w hg
    apply each_same
    intro k hk
    obtain ⟨hmem, hne⟩ := List.mem_filter.1 hk
    obtain ⟨i, e, hf, hr, hw⟩ := hg k hmem (by simpa using hne)
    exact set_permissions_same (by simpa using hne) hf hr hw
  have hgroups : ∀ keys w, Granted b.owner_key keys w b.acl_group_entries →
      each (fun k => set_group_permissions dht k true w) (keys.filter (· ≠ b.owner_key)) b =
        (.ok (), b) := by
    intro keys w hg
    apply each_same
    intro k hk
    obtain ⟨hmem, hne⟩ := List.mem_filter.1 hk
    obtain ⟨i, e, hf, hr, hw⟩ := hg k hmem (by simpa using hne)
    exact set_group_permissions_same hf hr hw
  unfold enforce_admin_keys
  rw [Op.bind_of_ok (Op.get_apply b), Op.bind_of_ok (hu _ _ h.r), Op.bind_of_ok (hu _ _ h.w),
    Op.bind_of_ok (hgroups _ _ h.group_r)]
  exact hgroups _ _ h.group_w

/-- The block has new rights and says so, or is the one it was. -/
structure Flagged (b b' : ACB K H) : Prop where
  frame : b'.frame = b.frame
  same : b'.acl_changed = false → b' = b

omit [DecidableEq K] in
theorem Flagged.trans {b₁ b₂ b₃ : ACB K H} (h₁ : Flagged b₁ b₂) (h₂ : Flagged b₂ b₃) :
    Flagged b₁ b₃ := by
  refine ⟨h₂.frame.trans h₁.frame, ?_⟩
  intro h
  have h₃ := h₂.same h
  subst h₃
  exact h₁.same h

theorem set_permissions_flagged (dht : Dht K S H) (k : K) (r w : Bool) (b : ACB K H) :
    Flagged b (set_permissions dht k r w b).2 := by
  refine ⟨set_permissions_frame dht k r w b, ?_⟩
  intro h
  cases hx : set_permissions dht k r w b with
  | mk res b' =>
    rw [hx] at h
    cases res with
    | ok _ => exact set_permissions_unchanged hx h
    | error e =>
      unfold set_permissions at hx
      split at hx
      · cases hx; rfl
      · split at hx
        · split at hx
          · cases hx
          · split at hx
            · cases hx; rfl
            · cases hx
        · split at hx
          · cases hx
          · cases hx

theorem set_group_permissions_flagged {k : K} {r w : Bool}
    (hf : (r || w) = true → b.Fetches dht [k]) :
    Flagged b (set_group_permissions dht k r w b).2 := by
  refine ⟨set_group_permissions_frame dht k r w b, ?_⟩
  intro h
  cases hx : set_group_permissions dht k r w b with
  | mk res b' =>
    rw [hx] at h
    cases res with
    | ok _ => exact set_group_permissions_unchanged hx h
    | error e =>
      unfold set_group_permissions at hx
      split at hx
      next hn =>
        split at hx
        · cases hx
        next hrw =>
          split at hx
          · cases hx; rfl
          next token ht =>
            simp only at hx
            split at hx
            next what hg =>
              -- the entry stays without the version of its group
              cases hx
              have hrw' : (r || w) = true := by
                revert hrw
                cases r <;> cases w <;> simp
              rcases hf hrw' with hc | ho | hgs
              · rw [hc] at h
                cases h
              · exfalso
                unfold group_token at ht
                rw [if_neg ho] at ht
                split at ht
                · cases ht
                · split at ht
                  · cases ht
                  · rw [hg] at ht
                    cases ht
              · exfalso
                rcases hgs k (List.mem_singleton_self k) with hs | ⟨g, hg'⟩
                · rw [hn] at hs
                  cases hs
                · rw [hg] at hg'
                  cases hg'
            · cases hx
      next =>
        split at hx
        · split at hx
          · cases hx
          · cases hx; rfl
        · cases hx

theorem enforce_flagged (hf : b.Fetches dht (dht.admin_keys.group_r ++ dht.admin_keys.group_w)) :
    Flagged b (enforce_admin_keys dht b).2 := by
  apply enforce_keeps (I := Flagged b) _ _ b ⟨rfl, fun _ => rfl⟩
  · intro k w _ m hm
    exact hm.trans (set_permissions_flagged dht k true w m)
  · intro k w hk m hm
    apply hm.trans
    apply set_group_permissions_flagged
    intro _
    by_cases hc : m.acl_changed = true
    · exact Or.inl hc
    · have hmb := hm.same (by simpa using hc)
      subst hmb
      rcases hf with h | h | h
      · exact Or.inl h
      · exact Or.inr (Or.inl h)
      · refine Or.inr (Or.inr ?_)
        intro k' hk'
        rw [List.mem_singleton.1 hk']
        exact h k hk

/-! ## Seals of a valid block -/

variable [DecidableEq H]

/-- What the mark stands for: the address always, the signatures once the rights are sealed. -/
structure Covered (dht : Dht K S H) (b : ACB K H) : Prop where
  header : OKB.Header dht b.toOKB
  sealed : b.acl_changed = false → OKB.Certified dht b._sign b.toOKB ∧ AuthorPart dht b

/-- The rights are sealed. -/
structure Ready (dht : Dht K S H) (b : ACB K H) : Prop where
  header : OKB.Header dht b.toOKB
  certified : OKB.Certified dht b._sign b.toOKB
  unchanged : b.acl_changed = false

omit [DecidableEq K] in
theorem Covered.of_flagged (h : Covered dht b) (hf : Flagged b b') :
    Covered dht b' := by
  have haddress : b'.address = b.address :=
    (congrArg (·.address) hf.frame : b'.frame.address = b.frame.address)
  have howner : b'.owner_key = b.owner_key :=
    (congrArg (·.owner_key) hf.frame : b'.frame.owner_key = b.frame.owner_key)
  have hsalt : b'.salt = b.salt :=
    (congrArg (·.salt) hf.frame : b'.frame.salt = b.frame.salt)
  refine ⟨?_, ?_⟩
  · unfold OKB.Header
    rw [haddress, howner, hsalt]
    exact h.header
  · intro hc
    have hb := hf.same hc
    subst hb
    exact h.sealed hc

theorem seal_acl_ready {d : Bool} (hc : dht.ciphers.Sound) (hh : OKB.Header dht m.toOKB)
    (h : seal_acl dht d m = (.ok k, m')) : Ready dht m' := by
  obtain ⟨-, -, sig, hm, hs, -⟩ := seal_acl_ok h
  refine ⟨?_, ?_, by rw [hm]⟩
  · rw [hm]
    exact hh
  · intro hv
    have hsig : m'.signature =
        dht.ciphers.sign dht.version m'.owner_key (m'._sign dht.version) := by
      rw [hm] at hs ⊢
      exact hs hv
    rw [hsig]
    exact ⟨hc.filled _ _ _, hc.verifies _ _ _⟩

theorem Ready.of_seal_data {k' : Option K} (h : Ready dht m)
    (hs : seal_data dht key k m = (.ok k', m')) : Ready dht m' := by
  obtain ⟨hsign, hsig, haddress, howner, hsalt⟩ := seal_data_sign hs
  refine ⟨?_, ?_, ?_⟩
  · unfold OKB.Header
    rw [haddress, howner, hsalt]
    exact h.header
  · unfold OKB.Certified
    rw [hsign, hsig, howner]
    exact h.certified
  · obtain ⟨users, author, groups, gv, author', -, -, hm, -⟩ := seal_data_ok hs
    rw [hm]
    exact h.unchanged

theorem Ready.of_seal_author (h : Ready dht m) (hs : seal_author dht v k m = (.ok (), m')) :
    Ready dht m' := by
  obtain ⟨author, key, sig, -, -, hm, -⟩ := seal_author_ok hs
  rw [hm]
  exact { h with }

omit [DecidableEq K] in
theorem restart_ready {key : K} (h : Ready dht m) (hk : m.sign_key = some key)
    (hs : SignedBy dht key m) : restart_signatures dht m = (.ok (), m) := by
  have hfirst : restart_data_signature dht m = (.ok (), m) := by
    unfold restart_data_signature
    split
    next hv =>
      rw [Bool.and_eq_true] at hv
      rw [hk]
      simp only [sign_data, ← hs hv.1]
    next => rfl
  unfold restart_signatures
  rw [Op.bind_of_ok hfirst, Op.bind_of_ok (Op.get_apply m)]
  split
  next hv =>
    rw [Bool.and_eq_true, decide_eq_true_iff] at hv
    exact absurd hv.2 (h.certified hv.1).1
  next => rfl

omit [DecidableEq H] in
theorem unsigned_author (hc : dht.ciphers.Sound) (hv : dht.validate_signatures = true)
    (hd : m.data_signature = []) (ha : AuthorPart dht m) :
    m.world_writable = true := by
  have hverify : ∀ k reason, m.verify_data dht k reason ≠ .success := by
    intro k reason
    unfold verify_data
    rw [hd, hc.empty]
    nofun
  rcases ha with hw | ha
  · exact hw
  exfalso
  unfold validate_author at ha
  simp only [hv, if_true] at ha
  split at ha
  · exact hverify _ _ (Except.ok.inj ha)
  · split at ha
    · cases ha
    · split at ha
      · split at ha
        · cases ha
        · obtain ⟨e, -, ha⟩ := except_bind_ok ha
          split at ha
          · cases ha
          · unfold verify_group at ha
            split at ha
            · cases ha
            · split at ha
              · cases ha
              · obtain ⟨i, -, ha⟩ := except_bind_ok ha
                split at ha
                · cases ha
                · obtain ⟨key, -, ha⟩ := except_bind_ok ha
                  exact hverify _ _ (Except.ok.inj ha)
      · obtain ⟨e, -, ha⟩ := except_bind_ok ha
        split at ha
        · cases ha
        · exact hverify _ _ (Except.ok.inj ha)

theorem restart_covered (hc : dht.ciphers.Sound) (h : Ready dht m) (ha : AuthorPart dht m) :
    Covered dht (restart_signatures dht m).2 := by
  have hcovered : Covered dht m := ⟨h.header, fun _ => ⟨h.certified, ha⟩⟩
  have hsecond : ∀ m' : ACB K H, m'.signature = m.signature →
      (do
        let b ← Op.get
        if dht.validate_signatures && b.signature = [] then _seal_okb dht false else pure () :
        Op (ACB K H) Failure Unit) m' = (.ok (), m') := by
    intro m' hm'
    rw [Op.bind_of_ok (Op.get_apply m')]
    split
    next hv =>
      rw [Bool.and_eq_true, decide_eq_true_iff, hm'] at hv
      exact absurd hv.2 (h.certified hv.1).1
    next => rfl
  unfold restart_signatures
  by_cases hd : (dht.validate_signatures && decide (m.data_signature = [])) = true
  · cases hk : m.sign_key with
    | none =>
      have hfirst : restart_data_signature dht m = (.error (.assert_error "_sign_key"), m) := by
        unfold restart_data_signature
        rw [if_pos hd, hk]
      rw [Op.bind_of_error hfirst]
      exact hcovered
    | some key =>
      have hfirst : restart_data_signature dht m = (.ok (), sign_data dht key m) := by
        unfold restart_data_signature
        rw [if_pos hd, hk]
      rw [Op.bind_of_ok hfirst, hsecond (sign_data dht key m) rfl]
      rw [Bool.and_eq_true, decide_eq_true_iff] at hd
      have hw := unsigned_author hc hd.1 hd.2 ha
      exact ⟨h.header, fun _ => ⟨h.certified, Or.inl hw⟩⟩
  · have hfirst : restart_data_signature dht m = (.ok (), m) := by
      unfold restart_data_signature
      rw [if_neg hd]
    rw [Op.bind_of_ok hfirst, hsecond _ rfl]
    exact hcovered

/-! ## Seals that fail -/

omit [DecidableEq H] in
theorem seal_author_error {e : Failure} (h : seal_author dht v k m = (.error e, m')) :
    e.undefined = true ∨ ∃ author,
      find_author dht k { m with data_version := v.getD m.data_version } = .ok author ∧
        author.sign_key = none := by
  unfold seal_author at h
  rw [Op.bind_of_ok (Op.modify_apply _ _), Op.bind_of_ok (Op.get_apply _)] at h
  rcases Op.bind_eq_error h with h | ⟨author, m₁, hm₁, h⟩
  · left
    exact find_author_error (Op.ofExcept_eq_error h).1
  · right
    obtain ⟨ha, -⟩ := Op.ofExcept_eq_ok hm₁
    refine ⟨author, ha, ?_⟩
    rw [Op.bind_of_ok (Op.modify_apply _ _)] at h
    cases hk : author.sign_key with
    | none => rfl
    | some key =>
      rw [hk] at h
      cases hv : dht.validate_signatures with
      | true =>
        simp only [hv, if_true, Op.bind_of_ok (Op.modify_apply _ _)] at h
        cases h
      | false =>
        simp only [hv, Bool.false_eq_true, if_false] at h
        cases h

omit [DecidableEq H] in
theorem seal_data_signs (ho : m.owner_private_key = false)
    (hr : m.world_writable = true ∨ RightfulData dht m)
    (h : seal_data dht key none m = (.ok k, m')) : k ≠ none := by
  obtain ⟨users, author, groups, gv, author', hu, hg, -, hk⟩ := seal_data_ok h
  have hsigner := (seal_groups_ok hg).signer
  have hfirst : m.first_author none = ⟨m.editor, none⟩ := by simp [first_author, ho]
  rw [hfirst] at hu
  intro hn
  rw [hn] at hk
  rcases hr with hw | hr
  · rw [hw, Bool.and_true] at hk
    cases hs : author'.sign_key <;> simp [hs] at hk
  · have hnone : author'.sign_key = none := by
      split at hk
      · cases hk
      · exact hk.symm
    unfold RightfulData at hr
    cases hf : find_entry dht.keys m.acl_entries with
    | some p =>
      simp only [seal_users, hf, Prod.mk.injEq] at hu
      rw [hsigner, ← hu.2] at hnone
      cases hnone
    | none =>
      rw [hf] at hr
      obtain ⟨j, e, gkey, hfh, -⟩ := hr
      simp only [seal_users, hf, Prod.mk.injEq] at hu
      rw [hsigner, ← hu.2] at hnone
      simp [group_signer, hfh] at hnone

omit [DecidableEq H] in
theorem find_author_signs {v : Int} {author : Author K} (ho : m.owner_private_key = false)
    (hr : m.world_writable = true ∨ RightfulVersion dht m)
    (h : find_author dht none { m with data_version := v } = .ok author) :
    author.sign_key ≠ none := by
  simp only [find_author, ho, Bool.false_eq_true, if_false] at h
  cases hf : find_last_entry dht.keys m.acl_entries with
  | some p =>
    simp only [hf] at h
    cases h
    exact Option.some_ne_none _
  | none =>
    simp only [hf] at h
    obtain ⟨a, hl, h⟩ := except_bind_ok h
    rcases hr with hw | hr
    · rw [hw, Bool.and_true] at h
      cases h
      cases hs : a.sign_key <;> simp [hs]
    · unfold RightfulVersion at hr
      rw [hf] at hr
      obtain ⟨e, gkey, -, hh, -⟩ := hr
      have ha := last_group_ok hl
      rw [hh] at ha
      subst ha
      cases h
      exact Option.some_ne_none _

/-! ## A seal keeps what the mark stands for -/

theorem ready_of_steps {m₀ : ACB K H} (hc : dht.ciphers.Sound) (h₀ : Covered dht m₀)
    (hf : Flagged m₀ m₁) (h₂ : rights_step dht m₁ m₁ = (.ok k₂, m₂)) : Ready dht m₂ := by
  have h₁ := h₀.of_flagged hf
  unfold rights_step at h₂
  split at h₂
  next => exact seal_acl_ready hc h₁.header h₂
  next hacl =>
    cases h₂
    have hacl' : m₁.acl_changed = false := by simpa using hacl
    exact ⟨h₁.header, (h₁.sealed hacl').1, hacl'⟩

theorem Ready.of_data (h : Ready dht m₂)
    (h₃ : data_step dht key m₁ k₂ m₂ = (.ok k₃, m₃)) : Ready dht m₃ := by
  unfold data_step at h₃
  split at h₃
  · exact h.of_seal_data h₃
  · cases h₃
    exact h

omit [DecidableEq H] in
theorem signer_of_steps {v : Int} {author : Author K}
    (hr : m₁.owner_private_key = true ∨ m₁.acl_changed = false ∧ Rightful dht m₁)
    (h₂ : rights_step dht m₁ m₁ = (.ok k₂, m₂))
    (h₃ : data_step dht key m₁ k₂ m₂ = (.ok k₃, m₃))
    (ha : find_author dht k₃ { m₃ with data_version := v } = .ok author) :
    author.sign_key ≠ none := by
  cases k₃ with
  | some key' =>
    cases ha
    exact Option.some_ne_none _
  | none =>
    cases ho : m₁.owner_private_key with
    | true =>
      have ho₂ : m₂.owner_private_key = m₁.owner_private_key :=
        rights_step_keeps (g := (·.owner_private_key)) h₂ fun _ _ _ => rfl
      have ho₃ : m₃.owner_private_key = m₂.owner_private_key :=
        data_step_keeps (g := (·.owner_private_key)) h₃ fun _ _ _ _ => rfl
      rw [ho₂, ho] at ho₃
      simp only [find_author, ho₃, if_true] at ha
      cases ha
      exact Option.some_ne_none _
    | false =>
      rw [ho] at hr
      obtain ⟨hacl, hr⟩ := hr.resolve_left Bool.false_ne_true
      rw [rights_step, hacl] at h₂
      cases h₂
      unfold Rightful at hr
      rw [ho] at hr
      replace hr := hr.resolve_left Bool.false_ne_true
      cases hd : m₁.data_changed with
      | true =>
        rw [data_step, if_pos hd] at h₃
        rw [if_pos hd] at hr
        exact absurd rfl (seal_data_signs ho hr h₃)
      | false =>
        rw [data_step, hd] at h₃
        rw [hd] at hr
        cases h₃
        exact find_author_signs ho hr ha

omit [DecidableEq H] in
theorem enforce_seals (hs : b.Seals dht) (next : Option Int) :
    Flagged { b with next_seal_version := next }
      (enforce_admin_keys dht { b with next_seal_version := next }).2 ∧
    ∀ m₁, enforce_admin_keys dht { b with next_seal_version := next } = (.ok (), m₁) →
      m₁.owner_private_key = true ∨ m₁.acl_changed = false ∧ Rightful dht m₁ := by
  rcases hs with ⟨ho, hf⟩ | ⟨hacl, hen, hr⟩
  · refine ⟨enforce_flagged hf, ?_⟩
    intro m₁ h₁
    have hframe := enforce_frame dht { b with next_seal_version := next }
    rw [h₁] at hframe
    exact Or.inl ((congrArg (·.owner_private_key) hframe).trans ho)
  · have hsame : enforce_admin_keys dht { b with next_seal_version := next } =
        (.ok (), { b with next_seal_version := next }) :=
      enforce_same { hen with }
    rw [hsame]
    refine ⟨⟨rfl, fun _ => rfl⟩, ?_⟩
    intro m₁ h₁
    cases h₁
    exact Or.inr ⟨hacl, hr⟩

theorem restart_of_steps {m₀ : ACB K H} (hc : dht.ciphers.Sound) (h₀ : Covered dht m₀)
    (hf : Flagged m₀ m₁) (hw : ¬(m₁.acl_changed || m₁.data_changed || v.isSome) = true)
    (h₂ : rights_step dht m₁ m₁ = (.ok k₂, m₂))
    (h₃ : data_step dht key m₁ k₂ m₂ = (.ok k₃, m₃)) :
    Covered dht (restart_signatures dht m₃).2 := by
  have hready := ready_of_steps hc h₀ hf h₂
  simp only [Bool.or_eq_true, not_or, Bool.not_eq_true] at hw
  obtain ⟨⟨hacl, hd⟩, -⟩ := hw
  rw [rights_step, hacl] at h₂
  cases h₂
  rw [data_step, hd] at h₃
  cases h₃
  exact restart_covered hc hready ((h₀.of_flagged hf).sealed hacl).2

theorem seal_covered {version : Option Int} (hc : dht.ciphers.Sound) (hb : Covered dht b)
    (hs : b.Seals dht) (h : _seal dht version key b = (.ok (), b')) :
    Covered dht b' := by
  have hright : Rightful dht b := by
    rcases hs with ⟨ho, -⟩ | ⟨-, -, hr⟩
    · exact Or.inl ho
    · exact hr
  obtain ⟨next, v, m₁, k₂, m₂, k₃, m₃, m₄, -, h₁, h₂, h₃, h₄, h₅⟩ := seal_ok h
  obtain ⟨hf, -⟩ := enforce_seals hs next
  rw [h₁] at hf
  have h₀ : Covered dht { b with next_seal_version := next } := ⟨hb.header, hb.sealed⟩
  by_cases hw : (m₁.acl_changed || m₁.data_changed || v.isSome) = true
  · have hauthor := (author_part_of_steps hc.signs hw h₁ h₂ h₃ h₄ h₅).2 hright
    rw [author_step, if_pos hw] at h₄
    have hready := ((ready_of_steps hc h₀ hf h₂).of_data h₃).of_seal_author h₄
    obtain ⟨author, k, sig, -, -, hm, hsigned⟩ := seal_author_ok h₄
    rw [restart_ready hready (by rw [hm]) hsigned] at h₅
    cases h₅
    exact ⟨hready.header, fun _ => ⟨hready.certified, hauthor⟩⟩
  · rw [author_step, if_neg hw] at h₄
    cases h₄
    have hrestart := restart_of_steps hc h₀ hf hw h₂ h₃
    rw [h₅] at hrestart
    exact hrestart

theorem failed_seal_covered {version : Option Int} {e : Failure} (hc : dht.ciphers.Sound)
    (hb : Covered dht b) (hs : b.Seals dht) (hu : e.undefined = false)
    (h : _seal dht version key b = (.error e, b')) : Covered dht b' := by
  have hnot : e.undefined ≠ true := by simp [hu]
  obtain ⟨next, v, hv, -⟩ := take_seal_version_ok version b
  obtain ⟨hf, hsigner⟩ := enforce_seals hs next
  have h₀ : Covered dht { b with next_seal_version := next } := ⟨hb.header, hb.sealed⟩
  unfold _seal at h
  rw [Op.bind_of_ok hv] at h
  rcases Op.bind_eq_error h with h₁ | ⟨_, m₁, h₁, h⟩
  · rw [h₁] at hf
    exact h₀.of_flagged hf
  rw [h₁] at hf
  rw [Op.bind_of_ok (Op.get_apply m₁)] at h
  rcases Op.bind_eq_error h with h₂ | ⟨k₂, m₂, h₂, h⟩
  · split at h₂
    next hacl =>
      -- the owner can sign
      have ho : m₁.owner_private_key = true := by
        rcases hsigner m₁ h₁ with ho | ⟨hn, -⟩
        · exact ho
        · rw [hacl] at hn
          cases hn
      unfold seal_acl at h₂
      rw [Op.bind_of_ok (Op.modify_apply _ _), Op.bind_of_ok (Op.modify_apply _ _)] at h₂
      have hsigned : ∃ m, _seal_okb dht true
          { m₁ with acl_changed := false,
                    editor := if m₁.owner_private_key then -1 else m₁.editor } = (.ok (), m) :=
        seal_okb_owner ho
      obtain ⟨m, hm⟩ := hsigned
      rw [Op.bind_of_ok hm, Op.bind_of_ok (Op.modify_apply _ _)] at h₂
      cases h₂
    next => cases h₂
  rcases Op.bind_eq_error h with h₃ | ⟨k₃, m₃, h₃, h⟩
  · split at h₃
    · exact absurd (seal_data_undefined h₃) hnot
    · cases h₃
  by_cases hw : (m₁.acl_changed || m₁.data_changed || v.isSome) = true
  · rw [if_pos hw] at h
    rcases Op.bind_eq_error h with h₄ | ⟨_, m₄, h₄, h₅⟩
    · rcases seal_author_error h₄ with hun | ⟨author, ha, hn⟩
      · exact absurd hun hnot
      · exact absurd hn (signer_of_steps (hsigner m₁ h₁) h₂ h₃ ha)
    · have hready := ((ready_of_steps hc h₀ hf h₂).of_data h₃).of_seal_author h₄
      obtain ⟨author, k, sig, -, -, hm, hsigned⟩ := seal_author_ok h₄
      rw [restart_ready hready (by rw [hm]) hsigned] at h₅
      cases h₅
  · rw [if_neg hw, Op.bind_of_ok (Op.pure_apply () m₃)] at h
    have hrestart := restart_of_steps hc h₀ hf hw h₂ h₃
    rw [h] at hrestart
    exact hrestart

end ACB

/-! ## A seal keeps the mark -/

/-- The flag of the cache has a value. -/
def OKB.Marked (v : Bool) (b : OKB K H) : Prop := b.validated = v

namespace OKB

omit [DecidableEq K] in
theorem seal_okb_mark (v : Bool) (sign : OKB K H → elle.Version → Signed K)
    (version : Option Int) (bump : Bool) :
    Op.Keeps (Marked v) (_seal_okb dht sign version bump) := by
  unfold _seal_okb
  apply Op.Keeps.bind
  · exact Op.Keeps.modify fun b hb => hb
  intro _
  apply Op.Keeps.get_bind
  intro b _
  apply Op.Keeps.ite
  · exact Op.Keeps.throw _
  apply Op.Keeps.ite
  · exact Op.Keeps.modify fun b hb => hb
  · exact Op.Keeps.pure ()

omit [DecidableEq K] in
theorem take_seal_version_mark (v : Bool) (version : Option Int) :
    Op.Keeps (Marked v) (take_seal_version version : Op (OKB K H) Failure (Option Int)) := by
  unfold take_seal_version
  apply Op.Keeps.get_bind
  intro b _
  split
  · apply Op.Keeps.ite
    · apply Op.Keeps.bind
      · exact Op.Keeps.modify fun b hb => hb
      · exact fun _ => Op.Keeps.pure _
    · exact Op.Keeps.pure _
  · exact Op.Keeps.pure _

omit [DecidableEq K] in
theorem seal_mark (v : Bool) (version : Option Int) : Op.Keeps (Marked v) (_seal dht version) := by
  unfold _seal
  apply Op.Keeps.bind
  · exact take_seal_version_mark v version
  intro version
  apply Op.Keeps.get_bind
  intro b _
  apply Op.Keeps.ite
  · apply Op.Keeps.bind
    · exact Op.Keeps.modify fun b hb => hb
    intro _
    apply Op.Keeps.bind
    · exact seal_okb_mark v _ version true
    · exact fun _ => Op.Keeps.modify fun b hb => hb
  · apply Op.Keeps.ite
    · exact seal_okb_mark v _ version true
    · exact Op.Keeps.pure ()

end OKB

namespace ACB

def Marked (v : Bool) (b : ACB K H) : Prop := b.validated = v

theorem seal_mark (v : Bool) (version : Option Int) (key : S) :
    Op.Keeps (Marked v) (_seal dht version key) := by
  intro b hb
  obtain ⟨next, w, htake, -⟩ := take_seal_version_ok version b
  have hmark : (_seal dht version key b).2.validated = b.validated :=
    congrArg (·.validated) (seal_aside dht key htake)
  exact hmark.trans hb

end ACB

/-! ## The law -/

namespace OKB

omit [DecidableEq K] in
theorem transform_unmarks (plain : Except Failure Buffer) (f : Buffer → Buffer) (b : OKB K H) :
    (transform_data plain f b).2 = b ∨ (transform_data plain f b).2.validated = false := by
  unfold transform_data
  rw [Op.bind_of_ok (Op.get_apply b)]
  cases b.decrypted plain with
  | error e => exact Or.inl rfl
  | ok b' => exact Or.inr rfl

omit [DecidableEq K] in
theorem take_version (version : Option Int) (b : OKB K H) :
    ∃ next v, take_seal_version version b = (.ok v, { b with next_seal_version := next }) ∧
      (version = none → b.next_seal_version.getD 0 = 0 → v = none) := by
  unfold take_seal_version
  rw [Op.bind_of_ok (Op.get_apply b)]
  cases version with
  | some w => exact ⟨b.next_seal_version, some w, rfl, nofun⟩
  | none =>
    cases hn : b.next_seal_version with
    | none =>
      refine ⟨none, none, ?_, fun _ _ => rfl⟩
      simp only [Op.pure_apply, ← hn]
    | some v =>
      by_cases hv : v = 0
      · refine ⟨some v, none, ?_, fun _ _ => rfl⟩
        simp only [if_neg (not_not.2 hv), Op.pure_apply, ← hn]
      · refine ⟨none, some v, ?_, fun _ h => absurd h hv⟩
        simp only [if_pos hv, Op.bind_of_ok (Op.modify_apply _ b), Op.pure_apply]

variable [DecidableEq H]

theorem owner_seals (version : Option Int) (bump : Bool) {b : OKB K H} (hc : dht.ciphers.Sound)
    (hh : Header dht b) (ho : b.owner_private_key = true) :
    ∃ b', _seal_okb dht _sign version bump b = (.ok (), b') ∧
      Header dht b' ∧ Certified dht b'._sign b' := by
  unfold _seal_okb
  rw [Op.bind_of_ok (Op.modify_apply _ b), Op.bind_of_ok (Op.get_apply _)]
  simp only [ho, Bool.not_true, Bool.false_eq_true, if_false]
  cases hv : dht.validate_signatures with
  | false =>
    refine ⟨_, rfl, hh, ?_⟩
    intro hv'
    rw [hv] at hv'
    cases hv'
  | true =>
    refine ⟨_, rfl, hh, ?_⟩
    intro _
    exact ⟨hc.filled _ _ _, hc.verifies dht.version b.owner_key _⟩

theorem seal_certified {version : Option Int} {b : OKB K H} (hc : dht.ciphers.Sound)
    (hh : Header dht b) (hb : Certified dht b._sign b)
    (hm : b.owner_private_key = true ∨
      b.data_changed = false ∧ version = none ∧ b.next_seal_version.getD 0 = 0) :
    Header dht (_seal dht version b).2 ∧
      Certified dht (_seal dht version b).2._sign (_seal dht version b).2 := by
  obtain ⟨next, v, hv, hnone⟩ := take_version version b
  unfold _seal
  rw [Op.bind_of_ok hv, Op.bind_of_ok (Op.get_apply _)]
  rcases hm with ho | ⟨hd, hn, hz⟩
  · simp only
    split
    · rw [Op.bind_of_ok (Op.modify_apply _ _)]
      obtain ⟨b', hb', hh', hcert⟩ := owner_seals v true
        (b := { b with next_seal_version := next,
                       data := dht.ciphers.encrypt false dht.keys b.data_plain }) hc hh ho
      rw [Op.bind_of_ok hb']
      exact ⟨hh', hcert⟩
    · split
      · obtain ⟨b', hb', hh', hcert⟩ := owner_seals v true
          (b := { b with next_seal_version := next }) hc hh ho
        rw [hb']
        exact ⟨hh', hcert⟩
      · exact ⟨hh, hb⟩
  · rw [hnone hn hz]
    simp only [hd, Bool.false_eq_true, if_false, Option.isSome_none]
    exact ⟨hh, hb⟩

end OKB

namespace MutableBlock

variable [DecidableEq H]

/-- The mark stands for what it says. -/
def Cached (dht : Dht K S H) : MutableBlock K H → Prop
  | .okb b => b.validated = true → OKB.Header dht b ∧ OKB.Certified dht b._sign b
  | .acb b => b.validated = true → b.Covered dht

variable {b : MutableBlock K H}

theorem validate_cached (writing : Bool) (h : Cached dht b) :
    Cached dht (validate dht writing b).2 := by
  unfold validate
  split
  · exact h
  · split
    next res hres =>
      by_cases hr : res = .success
      · subst hr
        cases b with
        | okb b =>
          intro _
          exact OKB.validate_owner_success.1 hres
        | acb b =>
          intro _
          obtain ⟨⟨hh, hcert⟩, ha⟩ := ACB.validate_success.1 hres
          exact ⟨hh, fun _ => ⟨hcert, ha.imp id And.left⟩⟩
      · rw [decide_eq_false hr]
        cases b with
        | okb b => nofun
        | acb b => nofun
    next => exact h

omit [DecidableEq K] in
theorem set_world_covered {r w : Bool} {b : ACB K H} (h : b.Covered dht) :
    (ACB._set_world_permissions r w b).Covered dht := by
  unfold ACB._set_world_permissions
  split
  · exact ⟨h.header, nofun⟩
  · exact h

theorem run_validate (writing : Bool) (b : MutableBlock K H) :
    ((Call.validate writing : Call K S).run dht b).2 = (validate dht writing b).2 := by
  change ((validate dht writing >>= fun _ => pure ()) b : Except Failure Unit × _).2 = _
  cases hx : validate dht writing b with
  | mk res b' =>
    cases res with
    | ok r =>
      rw [Op.bind_of_ok hx]
      rfl
    | error e => rw [Op.bind_of_error hx]

theorem call_cached {c : Call K S} (hc : dht.ciphers.Sound) (h : Cached dht b)
    (hu : ∀ e, (c.run dht b).1 = .error e → e.undefined = false) (hm : c.Meets dht b) :
    Cached dht (c.run dht b).2 := by
  match c, b with
  | .validate writing, b =>
    rw [run_validate]
    exact validate_cached writing h
  | .data d, .okb b => nofun
  | .data d, .acb b => nofun
  | .transform f, .okb b =>
    intro hv
    change (OKB.transform_data (b._decrypt_data dht) f b).2.validated = true at hv
    change OKB.Header dht (OKB.transform_data (b._decrypt_data dht) f b).2 ∧ OKB.Certified dht
      (OKB.transform_data (b._decrypt_data dht) f b).2._sign
      (OKB.transform_data (b._decrypt_data dht) f b).2
    rcases OKB.transform_unmarks (b._decrypt_data dht) f b with he | he
    · rw [he] at hv ⊢
      exact h hv
    · rw [he] at hv
      cases hv
  | .transform f, .acb b =>
    intro hv
    change (OKB.transform_data (b._decrypt_data dht) f b.toOKB).2.validated = true at hv
    change ACB.Covered dht
      { b with toOKB := (OKB.transform_data (b._decrypt_data dht) f b.toOKB).2 }
    rcases OKB.transform_unmarks (b._decrypt_data dht) f b.toOKB with he | he
    · rw [he] at hv ⊢
      exact h hv
    · rw [he] at hv
      cases hv
  | .set_permissions k r w, .okb b => exact h
  | .set_permissions k r w, .acb b =>
    intro hv
    have hf := ACB.set_permissions_flagged dht k r w b
    exact (h ((congrArg (·.validated) hf.frame).symm.trans hv)).of_flagged hf
  | .set_group_permissions k r w, .okb b => exact h
  | .set_group_permissions k r w, .acb b =>
    intro hv
    have hvb : b.validated = true :=
      (congrArg (·.validated) (ACB.set_group_permissions_frame dht k r w b)).symm.trans hv
    exact (h hvb).of_flagged (ACB.set_group_permissions_flagged (hm hvb))
  | .set_world_permissions r w, .okb b => exact h
  | .set_world_permissions r w, .acb b =>
    intro hv
    have hvb : b.validated = true := by
      change (ACB._set_world_permissions r w b).validated = true at hv
      unfold ACB._set_world_permissions at hv
      split at hv <;> exact hv
    exact set_world_covered (h hvb)
  | .seal version secret, .okb b =>
    intro hv
    have hvb : b.validated = true := (OKB.seal_mark b.validated version b rfl).symm.trans hv
    obtain ⟨hh, hcert⟩ := h hvb
    exact OKB.seal_certified hc hh hcert (hm hvb)
  | .seal version secret, .acb b =>
    intro hv
    have hvb : b.validated = true :=
      (ACB.seal_mark b.validated version secret b rfl).symm.trans hv
    change ACB.Covered dht (ACB._seal dht version secret b).2
    cases hx : ACB._seal dht version secret b with
    | mk res b' =>
      cases res with
      | ok _ => exact ACB.seal_covered hc (h hvb) (hm hvb) hx
      | error e =>
        have hundefined : e.undefined = false := hu e (congrArg Prod.fst hx)
        exact ACB.failed_seal_covered hc (h hvb) (hm hvb) hundefined hx
  | .clone, b => exact h

theorem calls_cached {calls : List (Call K S)} (hc : dht.ciphers.Sound) (h : Cached dht b)
    (hm : AllMeet dht b calls) : Cached dht (after_calls dht b calls) := by
  induction calls generalizing b with
  | nil => exact h
  | cons c calls ih =>
    obtain ⟨hu, hc', hrest⟩ := hm
    exact ih (call_cached hc h hu hc') hrest

theorem AllMeet.split {before after : List (Call K S)} (h : AllMeet dht b (before ++ after)) :
    AllMeet dht b before ∧ AllMeet dht (after_calls dht b before) after := by
  induction before generalizing b with
  | nil => exact ⟨trivial, h⟩
  | cons c before ih =>
    obtain ⟨hu, hc, hrest⟩ := h
    obtain ⟨h₁, h₂⟩ := ih hrest
    exact ⟨⟨hu, hc, h₁⟩, h₂⟩

theorem marked_valid {writing : Bool} (h : Cached dht b) (hv : b.validated = true)
    (hm : (Call.validate writing : Call K S).Meets dht b) :
    b._validate dht writing = .ok .success := by
  cases b with
  | okb b => exact OKB.validate_owner_success.2 (h hv)
  | acb b =>
    obtain ⟨hacl, hadmin⟩ := hm hv
    have hcovered := h hv
    obtain ⟨hcert, ha⟩ := hcovered.sealed hacl
    apply ACB.validate_success.2
    refine ⟨⟨hcovered.header, hcert⟩, ?_⟩
    rcases ha with hw | ha
    · exact Or.inl hw
    · cases writing with
      | false => exact Or.inr ⟨ha, nofun⟩
      | true =>
        rcases hadmin rfl with hw | hk
        · exact Or.inl hw
        · exact Or.inr ⟨ha, fun _ => hk⟩

/-- As long as every call finds what it must on a marked block, the cache answers what the checks
would. -/
theorem the_validation_cache_is_transparent (hc : dht.ciphers.Sound) (b : MutableBlock K H)
    (hb : b.validated = false) (before after : List (Call K S)) (writing : Bool)
    (hm : AllMeet dht b (before ++ .validate writing :: after)) :
    (validate dht writing (after_calls dht b before)).1 = .ok .success ↔
      (after_calls dht b before)._validate dht writing = .ok .success := by
  have h₀ : Cached dht b := by
    cases b with
    | okb b | acb b =>
      intro hv
      exact absurd (hb.symm.trans hv) nofun
  obtain ⟨hbefore, -, hmeets, -⟩ := hm.split
  have hcached := calls_cached hc h₀ hbefore
  unfold validate
  cases hv : (after_calls dht b before).validated with
  | true =>
    rw [if_pos rfl]
    simp only [marked_valid hcached hv hmeets]
  | false =>
    rw [if_neg nofun]
    split
    next res hres => rw [hres]
    next e he => rw [he]

end MutableBlock

end

theorem plain_ciphers_sound : plain_ciphers.Sound := by
  refine ⟨plain_ciphers_sign, ?_, ?_⟩
  · intro v k p
    simp [plain_ciphers]
  · intro k p
    simp [plain_ciphers]

/-- The block of the user 1, who gave the user 7 the right to read. -/
def shared_block : ACB UInt8 UInt8 :=
  { edited [⟨7, true, false, [7, 5]⟩] with data_changed := false, owner_private_key := true }

/-- The owner validates the block, gives the user 7 the right to write and seals the block. -/
def grant : List (MutableBlock.Call UInt8 UInt8) :=
  [.validate false, .set_permissions 7 true true, .seal none 6]

/-- The mark of the first validation outlives the new rights, and the seal makes it good. -/
theorem a_sealed_grant_is_valid :
    (MutableBlock.validate (member 1) true
      (MutableBlock.after_calls (member 1) (.acb shared_block) grant)).1 = .ok .success ↔
    (MutableBlock.after_calls (member 1) (.acb shared_block) grant)._validate (member 1) true =
      .ok .success := by
  apply MutableBlock.the_validation_cache_is_transparent plain_ciphers_sound (.acb shared_block)
    rfl grant [] true
  refine ⟨(fun _ h => nomatch h), (fun h => nomatch h), ?_⟩
  refine ⟨(fun _ h => nomatch h), trivial, ?_⟩
  refine ⟨(fun _ h => nomatch h), fun _ => Or.inl ⟨rfl, Or.inl rfl⟩, ?_⟩
  exact ⟨(fun _ h => nomatch h), fun _ => ⟨rfl, fun _ => Or.inr rfl⟩, trivial⟩

/-- A network with an admin, the user 3. -/
def administered : Dht UInt8 UInt8 UInt8 := { member 1 with admin_keys := ⟨[3], [], [], []⟩ }

/-- A block without the key of the admin is found valid for reading: from then on it is said to be
valid for writing too. -/
theorem a_mark_for_reading_serves_a_write :
    ¬ ∀ (dht : Dht UInt8 UInt8 UInt8) (b : MutableBlock UInt8 UInt8)
      (before : List (MutableBlock.Call UInt8 UInt8)) (writing : Bool), dht.ciphers.Sound →
      b.validated = false →
      ((MutableBlock.validate dht writing (MutableBlock.after_calls dht b before)).1 =
          .ok .success ↔
        (MutableBlock.after_calls dht b before)._validate dht writing = .ok .success) := by
  intro h
  have hcached := (h administered (.acb shared_block) [.validate false] true plain_ciphers_sound
    rfl).1 rfl
  have hchecked : (MutableBlock.after_calls administered (.acb shared_block)
      [.validate false])._validate administered true = .ok (.failure "Missing admin R key 3") := by
    decide
  rw [hchecked] at hcached
  cases hcached

end memo
