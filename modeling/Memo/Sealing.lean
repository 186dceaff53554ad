-- Who signs a sealed block, and whether the validation of the block agrees. The
-- editor is searched for in two ways, for new data and for a new version of the
-- same data; neither of them looks at the right to write.
import Memo.ACB

open ops

namespace memo

section

variable {K S H : Type} [DecidableEq K] {dht : Dht K S H} {b b' : ACB K H}

/-! ## Entries and keys -/

theorem find_entry_some {key : K} {entries : List (ACLEntry K)} {i : Nat} {e : ACLEntry K}
    (h : find_entry key entries = some (i, e)) : entries[i]? = some e ∧ e.key = key := by
  induction entries generalizing i with
  | nil => cases h
  | cons a es ih =>
    unfold find_entry at h
    split at h
    next hk =>
      cases h
      exact ⟨rfl, hk⟩
    next =>
      obtain ⟨⟨j, x⟩, hj, hp⟩ := Option.map_eq_some_iff.1 h
      cases hp
      exact ih hj

variable {α : Type}

theorem set_of_getElem? {l : List α} {i : Nat} {a : α} (h : l[i]? = some a) :
    l.set i a = l := by
  apply List.ext_getElem?
  intro j
  by_cases hj : i = j
  · subst hj
    have hi : i < l.length := by
      by_contra hge
      rw [List.getElem?_eq_none (by omega)] at h
      cases h
    rw [List.getElem?_set_self hi, h]
  · rw [List.getElem?_set_ne hj]

theorem back_ok {l : List α} {a : α} (h : back l = .ok a) : l.getLast? = some a := by
  unfold back at h
  split at h
  next x hx =>
    cases h
    exact hx
  next => cases h

theorem index_ok {l : List α} {i : Int} {a : α} :
    index l i = .ok a ↔ 0 ≤ i ∧ l[i.toNat]? = some a := by
  unfold index
  by_cases hi : 0 ≤ i
  · cases h : l[i.toNat]? with
    | none => simp [hi]
    | some x => simp [hi]
  · simp [hi]

theorem except_bind_ok {β : Type} {x : Except Failure α} {f : α → Except Failure β} {r : β}
    (h : (x >>= f) = .ok r) : ∃ a, x = .ok a ∧ f a = .ok r := by
  cases x with
  | error e => cases h
  | ok a => exact ⟨a, rfl, h⟩

/-- A signature is correct for the key that made it, and rejected for any other. -/
def Ciphers.Signs (c : Ciphers K S H) : Prop :=
  ∀ v k key (payload : elle.Version → Signed K),
    c.verify k (c.sign v key (payload v)) payload = decide (k = key)

namespace ACB

/-! ## Rights that stay -/

theorem set_permissions_unchanged {k : K} {r w : Bool}
    (h : set_permissions dht k r w b = (.ok (), b')) (hb : b'.acl_changed = false) : b' = b := by
  unfold set_permissions at h
  split at h
  · cases h
  · split at h
    · split at h
      · cases h; rfl
      · split at h
        · cases h
        · cases h; cases hb
    next i e hf =>
      split at h
      · cases h; cases hb
      · cases h
        simp only [Bool.or_eq_false_iff, bne_eq_false_iff_eq] at hb
        obtain ⟨⟨hc, hr⟩, hw⟩ := hb
        have he : ({ e with read := r, write := w } : ACLEntry K) = e := by rw [← hr, ← hw]
        simp only [he, set_of_getElem? (find_entry_some hf).1, hr, hw, bne_self_eq_false,
          Bool.or_false]

theorem set_group_permissions_unchanged {k : K} {r w : Bool}
    (h : set_group_permissions dht k r w b = (.ok (), b')) (hb : b'.acl_changed = false) :
    b' = b := by
  unfold set_group_permissions at h
  split at h
  · split at h
    · cases h; rfl
    · split at h
      · cases h
      · simp only at h
        split at h
        · cases h
        · cases h; cases hb
  next i e hf =>
    split at h
    · split at h
      · cases h; cases hb
      · cases h
    · cases h
      simp only [Bool.or_eq_false_iff, bne_eq_false_iff_eq] at hb
      obtain ⟨⟨hc, hr⟩, hw⟩ := hb
      have he : ({ e with read := r, write := w } : ACLEntry K) = e := by rw [← hr, ← hw]
      simp only [he, set_of_getElem? (find_entry_some hf).1, hr, hw, bne_self_eq_false,
        Bool.or_false]

omit [DecidableEq K] in
theorem each_unchanged {f : α → Op (ACB K H) Failure Unit}
    (hf : ∀ a (b b' : ACB K H), f a b = (.ok (), b') → b'.acl_changed = false → b' = b) {l : List α}
    (h : each f l b = (.ok (), b')) (hb : b'.acl_changed = false) : b' = b := by
  induction l generalizing b with
  | nil =>
    cases h
    rfl
  | cons a l ih =>
    obtain ⟨_, m, hm, hr⟩ := Op.bind_eq_ok h
    have hm' := ih hr
    subst hm'
    exact hf a b b' hm hb

/-- The block without its rights. -/
def frame (b : ACB K H) : ACB K H :=
  { b with acl_entries := [], acl_group_entries := [], group_version := [], acl_changed := false }

theorem set_permissions_frame (dht : Dht K S H) (k : K) (r w : Bool) (b : ACB K H) :
    (set_permissions dht k r w b).2.frame = b.frame := by
  unfold set_permissions
  split
  · rfl
  · split
    · split
      · rfl
      · split <;> rfl
    · split <;> rfl

theorem set_group_permissions_frame (dht : Dht K S H) (k : K) (r w : Bool) (b : ACB K H) :
    (set_group_permissions dht k r w b).2.frame = b.frame := by
  unfold set_group_permissions
  split
  · split
    · rfl
    · split
      · rfl
      · simp only
        split <;> rfl
  · split
    · split <;> rfl
    · rfl

omit [DecidableEq K] in
theorem each_keeps {I : ACB K H → Prop} {f : α → Op (ACB K H) Failure Unit} {l : List α}
    (hf : ∀ a ∈ l, Op.Keeps I (f a)) : Op.Keeps I (each f l) := by
  induction l with
  | nil => exact Op.Keeps.pure ()
  | cons a l ih =>
    unfold each
    apply Op.Keeps.bind (hf a List.mem_cons_self)
    intro _
    exact ih fun c hc => hf c (List.mem_cons_of_mem a hc)

theorem enforce_keeps {I : ACB K H → Prop}
    (hu : ∀ k w, k ∈ dht.admin_keys.r ++ dht.admin_keys.w →
      Op.Keeps I (set_permissions dht k true w))
    (hg : ∀ k w, k ∈ dht.admin_keys.group_r ++ dht.admin_keys.group_w →
      Op.Keeps I (set_group_permissions dht k true w)) :
    Op.Keeps I (enforce_admin_keys dht) := by
  have hmem {k owner : K} {keys : List K} (hk : k ∈ keys.filter (· ≠ owner)) : k ∈ keys :=
    (List.mem_filter.1 hk).1
  unfold enforce_admin_keys
  apply Op.Keeps.get_bind
  intro b hb
  apply Op.Keeps.bind (each_keeps fun k hk => hu k false (List.mem_append_left _ (hmem hk)))
  intro _
  apply Op.Keeps.bind (each_keeps fun k hk => hu k true (List.mem_append_right _ (hmem hk)))
  intro _
  apply Op.Keeps.bind (each_keeps fun k hk => hg k false (List.mem_append_left _ (hmem hk)))
  intro _
  exact each_keeps fun k hk => hg k true (List.mem_append_right _ (hmem hk))

theorem enforce_frame (dht : Dht K S H) (b : ACB K H) :
    (enforce_admin_keys dht b).2.frame = b.frame := by
  apply enforce_keeps (I := fun m => m.frame = b.frame) _ _ b rfl
  · intro k w _ m hm
    exact (set_permissions_frame dht k true w m).trans hm
  · intro k w _ m hm
    exact (set_group_permissions_frame dht k true w m).trans hm

theorem enforce_unchanged (h : enforce_admin_keys dht b = (.ok (), b'))
    (hb : b'.acl_changed = false) : b' = b := by
  unfold enforce_admin_keys at h
  rw [Op.bind_of_ok (Op.get_apply b)] at h
  obtain ⟨_, m₁, h₁, h⟩ := Op.bind_eq_ok h
  obtain ⟨_, m₂, h₂, h⟩ := Op.bind_eq_ok h
  obtain ⟨_, m₃, h₃, h₄⟩ := Op.bind_eq_ok h
  have e₄ := each_unchanged (fun _ _ _ => set_group_permissions_unchanged) h₄ hb
  subst e₄
  have e₃ := each_unchanged (fun _ _ _ => set_group_permissions_unchanged) h₃ hb
  subst e₃
  have e₂ := each_unchanged (fun _ _ _ => set_permissions_unchanged) h₂ hb
  subst e₂
  exact each_unchanged (fun _ _ _ => set_permissions_unchanged) h₁ hb

/-! ## The parts of sealing -/

omit [DecidableEq K] in
theorem take_seal_version_ok (version : Option Int) (b : ACB K H) :
    ∃ next v, on_okb (OKB.take_seal_version version) b =
      (.ok v, { b with next_seal_version := next }) ∧ (version.isSome → v.isSome) := by
  simp only [on_okb, OKB.take_seal_version, Op.bind_of_ok (Op.get_apply b.toOKB)]
  cases version with
  | some w => exact ⟨b.next_seal_version, some w, rfl, fun _ => rfl⟩
  | none =>
    cases hn : b.next_seal_version with
    | none => exact ⟨none, none, by simp only [Op.pure_apply, ← hn], nofun⟩
    | some v =>
      by_cases hv : v = 0
      · refine ⟨some v, none, ?_, nofun⟩
        simp only [if_neg (not_not.2 hv), Op.pure_apply, ← hn]
      · refine ⟨none, some v, ?_, nofun⟩
        simp only [if_pos hv, Op.bind_of_ok (Op.modify_apply _ b.toOKB), Op.pure_apply]

omit [DecidableEq K] in
theorem _seal_okb_ok {bump : Bool} (h : _seal_okb dht bump b = (.ok (), b')) :
    b.owner_private_key = true ∧
      ∃ sig, b' = { b with version := if bump then b.version + 1 else b.version,
                           signature := sig } ∧
        (dht.validate_signatures = true →
          sig = dht.ciphers.sign dht.version b.owner_key (b'._sign dht.version)) ∧
        (dht.validate_signatures = false → sig = b.signature) := by
  simp only [_seal_okb, on_okb, OKB._seal_okb, Op.bind_of_ok (Op.modify_apply _ b.toOKB),
    Op.bind_of_ok (Op.get_apply _), Option.getD_none] at h
  cases hp : b.owner_private_key with
  | false =>
    simp [hp] at h
  | true =>
    cases hv : dht.validate_signatures with
    | false =>
      simp only [hp, hv, Bool.not_true, Bool.false_eq_true, if_false, Op.pure_apply,
        Prod.mk.injEq, true_and] at h
      exact ⟨rfl, b.signature, h.symm, nofun, fun _ => rfl⟩
    | true =>
      simp only [hp, hv, Bool.not_true, Bool.false_eq_true, if_false, if_true, Op.modify_apply,
        Prod.mk.injEq, true_and] at h
      subst h
      exact ⟨rfl, _, rfl, fun _ => rfl, nofun⟩

omit [DecidableEq K] in
theorem seal_okb_owner {bump : Bool} (ho : b.owner_private_key = true) :
    ∃ m, _seal_okb dht bump b = (.ok (), m) := by
  simp only [_seal_okb, on_okb, OKB._seal_okb, Op.bind_of_ok (Op.modify_apply _ b.toOKB),
    Op.bind_of_ok (Op.get_apply _), ho, Bool.not_true, Bool.false_eq_true, if_false]
  split <;> exact ⟨_, rfl⟩

variable {entries es es' : List (ACLEntry K)} {e : ACLEntry K} {author author' : Author K}
  {v version : Option Int} {k k₂ k₃ : Option K} {use_encrypt : Bool} {m m₁ m₂ m₃ m₄ : ACB K H}
  {key : K} {secret : Buffer} {i : Nat}

omit [DecidableEq K] in
theorem seal_acl_ok {data_changed : Bool} (h : seal_acl dht data_changed b = (.ok k, b')) :
    b.owner_private_key = true ∧ k = some b.owner_key ∧
      ∃ sig, b' = { b with acl_changed := false, editor := -1, version := b.version + 1,
                           signature := sig,
                           data_version := if data_changed then b.data_version
                             else b.data_version + 1 } ∧
        (dht.validate_signatures = true →
          sig = dht.ciphers.sign dht.version b.owner_key (b'._sign dht.version)) ∧
        (dht.validate_signatures = false → sig = b.signature) := by
  unfold seal_acl at h
  rw [Op.bind_of_ok (Op.modify_apply _ _), Op.bind_of_ok (Op.modify_apply _ _)] at h
  obtain ⟨_, m, hm, h⟩ := Op.bind_eq_ok h
  obtain ⟨ho, sig, hb, hs, hn⟩ := _seal_okb_ok hm
  rw [Op.bind_of_ok (Op.modify_apply _ _), Op.bind_of_ok (Op.get_apply _)] at h
  simp only at ho
  simp only [if_pos ho] at hb
  subst hb
  rw [if_pos ho] at h
  cases h
  exact ⟨ho, rfl, sig, rfl, hs, hn⟩

/-- The block with new data, from what sealing the entries gave. -/
def with_data (dht : Dht K S H) (key : S) (users groups : List (ACLEntry K))
    (group_version : List Int) (editor : Int) (b : ACB K H) : ACB K H :=
  let seal_version := token_version dht
  let use_encrypt := decide ((⟨0, 7, 0⟩ : elle.Version) ≤ seal_version)
  let secret := dht.ciphers.secret_buffer seal_version key
  { b with data_version := b.data_version + 1
           editor
           seal_version
           owner_token := dht.ciphers.encrypt use_encrypt b.owner_key secret
           acl_entries := users
           acl_group_entries := groups
           group_version
           data := if b.world_readable then b.data_plain
             else dht.ciphers.encipher key b.data_plain
           data_changed := false }

/-- Who is the author before the entries are looked at. -/
def first_author (sign_key : Option K) (b : ACB K H) : Author K :=
  if b.owner_private_key then ⟨-1, some b.owner_key⟩ else ⟨b.editor, sign_key⟩

theorem seal_data_ok {key : S} {sign_key : Option K}
    (h : seal_data dht key sign_key b = (.ok k, b')) :
    ∃ users author groups gv author',
      seal_users dht (decide ((⟨0, 7, 0⟩ : elle.Version) ≤ token_version dht))
        (dht.ciphers.secret_buffer (token_version dht) key) b.acl_entries
        (b.first_author sign_key) = (users, author) ∧
      seal_groups dht (decide ((⟨0, 7, 0⟩ : elle.Version) ≤ token_version dht))
        (dht.ciphers.secret_buffer (token_version dht) key) b.acl_entries.length 0
        b.acl_group_entries b.group_version author = .ok (groups, gv, author') ∧
      b' = b.with_data dht key users groups gv author'.editor ∧
      k = if author'.sign_key.isNone && b.world_writable then some dht.keys
        else author'.sign_key := by
  unfold seal_data at h
  rw [Op.bind_of_ok (Op.get_apply _)] at h
  obtain ⟨⟨groups, gv, author'⟩, m, hm, h⟩ := Op.bind_eq_ok h
  obtain ⟨hg, hm⟩ := Op.ofExcept_eq_ok hm
  subst hm
  simp only [Op.bind_of_ok (Op.modify_apply _ _)] at h
  cases h
  exact ⟨_, _, groups, gv, author', rfl, hg, rfl, rfl⟩

theorem seal_data_error {key : S} {e : Failure} (h : seal_data dht key k b = (.error e, b')) :
    b' = b := by
  unfold seal_data at h
  rw [Op.bind_of_ok (Op.get_apply b)] at h
  rcases Op.bind_eq_error h with h | ⟨a, m, hm, h⟩
  · exact (Op.ofExcept_eq_error h).2
  · obtain ⟨groups, gv, author⟩ := a
    simp only [Op.bind_of_ok (Op.modify_apply _ _)] at h
    cases h

/-- The data of the block is signed by a key. -/
def SignedBy (dht : Dht K S H) (key : K) (b : ACB K H) : Prop :=
  dht.validate_signatures = true →
    b.data_signature = dht.ciphers.sign dht.version key (b._data_sign dht.version)

theorem seal_author_ok {sign_key : Option K}
    (h : seal_author dht version sign_key b = (.ok (), b')) :
    ∃ author key sig,
      find_author dht sign_key { b with data_version := version.getD b.data_version } =
        .ok author ∧
      author.sign_key = some key ∧
      b' = { b with data_version := version.getD b.data_version, editor := author.editor,
                    data_signature := sig, sign_key := some key } ∧
      SignedBy dht key b' := by
  unfold seal_author at h
  rw [Op.bind_of_ok (Op.modify_apply _ _), Op.bind_of_ok (Op.get_apply _)] at h
  obtain ⟨author, m, hm, h⟩ := Op.bind_eq_ok h
  obtain ⟨ha, hm⟩ := Op.ofExcept_eq_ok hm
  subst hm
  rw [Op.bind_of_ok (Op.modify_apply _ _)] at h
  cases hk : author.sign_key with
  | none =>
    rw [hk] at h
    cases h
  | some key =>
    rw [hk] at h
    cases hv : dht.validate_signatures with
    | true =>
      simp only [hv, if_true, Op.bind_of_ok (Op.modify_apply _ _)] at h
      cases h
      exact ⟨author, key, _, ha, hk, rfl, fun _ => rfl⟩
    | false =>
      simp only [hv, Bool.false_eq_true, if_false] at h
      cases h
      refine ⟨author, key, b.data_signature, ha, hk, rfl, fun hv' => ?_⟩
      rw [hv] at hv'
      cases hv'

omit [DecidableEq K] in
theorem restart_signatures_ok (hs : SignedBy dht key b) (hk : b.sign_key = some key)
    (h : restart_signatures dht b = (.ok (), b')) :
    ∃ sig, b' = { b with signature := sig } ∧
      (b.signature ≠ [] ∨ dht.validate_signatures = false → sig = b.signature) ∧
      (dht.validate_signatures = true → b.signature = [] →
        sig = dht.ciphers.sign dht.version b.owner_key (b'._sign dht.version)) := by
  have hfirst : restart_data_signature dht b = (.ok (), b) := by
    unfold restart_data_signature
    split
    next hv =>
      rw [Bool.and_eq_true] at hv
      rw [hk]
      simp only [sign_data, ← hs hv.1]
    next => rfl
  unfold restart_signatures at h
  rw [Op.bind_of_ok hfirst, Op.bind_of_ok (Op.get_apply b)] at h
  split at h
  next hv =>
    rw [Bool.and_eq_true, decide_eq_true_iff] at hv
    obtain ⟨ho, sig, hb, hsig, -⟩ := _seal_okb_ok h
    refine ⟨sig, hb, ?_, fun _ _ => hsig hv.1⟩
    intro hne
    rw [hv.1, hv.2] at hne
    simp at hne
  next hv =>
    cases h
    refine ⟨b.signature, rfl, fun _ => rfl, fun hv' he => ?_⟩
    rw [hv', he] at hv
    simp at hv

/-- The block without what sealing writes. -/
def aside (b : ACB K H) : ACB K H :=
  { b with data := [], data_changed := false, version := 0, signature := [], editor := 0,
           owner_token := [], acl_changed := false, acl_entries := [], acl_group_entries := [],
           group_version := [], data_version := 0, data_signature := [], sign_key := none,
           seal_version := ⟨0, 0, 0⟩ }

omit [DecidableEq K] in
theorem seal_okb_aside (dht : Dht K S H) (bump : Bool) (b : ACB K H) :
    (_seal_okb dht bump b).2.aside = b.aside := by
  simp only [_seal_okb, on_okb, OKB._seal_okb, Op.bind_of_ok (Op.modify_apply _ b.toOKB),
    Op.bind_of_ok (Op.get_apply _)]
  split
  · rfl
  · split <;> rfl

omit [DecidableEq K] in
theorem seal_acl_aside (a : ACB K H) (d : Bool) :
    Op.Keeps (fun m => m.aside = a) (seal_acl dht d) := by
  unfold seal_acl
  apply Op.Keeps.bind
  · exact Op.Keeps.modify fun m hm => hm
  intro _
  apply Op.Keeps.bind
  · exact Op.Keeps.modify fun m hm => hm
  intro _
  apply Op.Keeps.bind
  · exact fun m hm => (seal_okb_aside dht true m).trans hm
  intro _
  apply Op.Keeps.bind
  · exact Op.Keeps.modify fun m hm => hm
  intro _
  apply Op.Keeps.get_bind
  intro m _
  exact Op.Keeps.pure _

theorem seal_data_aside (a : ACB K H) (key : S) (sign_key : Option K) :
    Op.Keeps (fun m => m.aside = a) (seal_data dht key sign_key) := by
  unfold seal_data
  apply Op.Keeps.get_bind
  intro m _
  apply Op.Keeps.bind
  · exact Op.Keeps.ofExcept _
  intro _
  apply Op.Keeps.bind
  · exact Op.Keeps.modify fun m hm => hm
  · exact fun _ => Op.Keeps.pure _

theorem seal_author_aside (a : ACB K H) (version : Option Int) (sign_key : Option K) :
    Op.Keeps (fun m => m.aside = a) (seal_author dht version sign_key) := by
  unfold seal_author
  apply Op.Keeps.bind
  · exact Op.Keeps.modify fun m hm => hm
  intro _
  apply Op.Keeps.get_bind
  intro m _
  apply Op.Keeps.bind
  · exact Op.Keeps.ofExcept _
  intro author
  apply Op.Keeps.bind
  · exact Op.Keeps.modify fun m hm => hm
  intro _
  split
  · exact Op.Keeps.throw _
  · apply Op.Keeps.ite
    · apply Op.Keeps.bind
      · exact Op.Keeps.modify fun m hm => hm
      · exact fun _ => Op.Keeps.modify fun m hm => hm
    · exact Op.Keeps.modify fun m hm => hm

omit [DecidableEq K] in
theorem restart_aside (a : ACB K H) :
    Op.Keeps (fun m => m.aside = a) (restart_signatures dht) := by
  unfold restart_signatures
  apply Op.Keeps.bind
  · intro m hm
    unfold restart_data_signature
    split
    · split <;> exact hm
    · exact hm
  intro _
  apply Op.Keeps.get_bind
  intro m _
  apply Op.Keeps.ite
  · exact fun m hm => (seal_okb_aside dht false m).trans hm
  · exact Op.Keeps.pure ()

theorem seal_aside (dht : Dht K S H) (key : S)
    (h : on_okb (OKB.take_seal_version version) b = (.ok v, m)) :
    (_seal dht version key b).2.aside = m.aside := by
  unfold _seal
  rw [Op.bind_of_ok h]
  refine (Op.Keeps.bind (I := fun m' => m'.aside = m.aside) ?_ fun _ => ?_) m rfl
  · intro m' hm'
    rw [← hm']
    exact (congrArg aside (enforce_frame dht m') :
      (enforce_admin_keys dht m').2.frame.aside = m'.frame.aside)
  apply Op.Keeps.get_bind
  intro m' _
  apply Op.Keeps.bind
  · apply Op.Keeps.ite
    · exact seal_acl_aside _ _
    · exact Op.Keeps.pure none
  intro k
  apply Op.Keeps.bind
  · apply Op.Keeps.ite
    · exact seal_data_aside _ key k
    · exact Op.Keeps.pure k
  intro k
  apply Op.Keeps.bind
  · apply Op.Keeps.ite
    · exact seal_author_aside _ v k
    · exact Op.Keeps.pure ()
  · exact fun _ => restart_aside _

/-! ## The author of new data -/

/-- The key of the group of an entry that we hold. -/
def held_key (dht : Dht K S H) (e : ACLEntry K) : Option K :=
  match dht.group e.key with
  | .ok g =>
    match g.group_keys with
    | .ok keys => keys.getLast?
    | .error _ => none
  | .error _ => none

/-- The first group that we hold the key of. -/
def first_held (dht : Dht K S H) : List (ACLEntry K) → Option (Nat × ACLEntry K × K)
  | [] => none
  | e :: es =>
    match held_key dht e with
    | some key => some (0, e, key)
    | none => (first_held dht es).map fun p => (p.1 + 1, p.2)

/-- The version of the key of a group that is recorded when new data is sealed. -/
def next_version (dht : Dht K S H) (group_version : List Int) (i : Nat) (e : ACLEntry K) :
    Option Int :=
  match dht.group e.key with
  | .ok g => if e.read then some (g.version - 1) else group_version[i]?
  | .error _ => group_version[i]?

/-- The author after a group: the one there was, or else a member of the group. -/
def next_author (author found : Author K) (held : Option K) : Author K :=
  match author.sign_key, held with
  | none, some key => { found with sign_key := some key }
  | _, _ => author

/-- What sealing does to a group entry, to the recorded versions and to the author. -/
structure GroupSealed (dht : Dht K S H) (use_encrypt : Bool) (secret : Buffer) (users idx : Nat)
    (e : ACLEntry K) (gv : List Int) (author : Author K) (e' : ACLEntry K) (gv' : List Int)
    (author' : Author K) : Prop where
  rights : e'.key = e.key ∧ e'.read = e.read ∧ e'.write = e.write
  token : ∀ g, dht.group e.key = .ok g → e.read = true → ∃ k, g.public_keys.getLast? = some k ∧
    e'.token = dht.ciphers.encrypt use_encrypt k secret
  size : gv'.length = gv.length
  recorded : gv'[idx]? = next_version dht gv idx e
  others : ∀ j, j ≠ idx → gv'[j]? = gv[j]?
  signer : author' = next_author author ⟨users + idx, none⟩ (held_key dht e)

omit [DecidableEq K] in
theorem group_author_ok {g : Group K} {editor : Int} (hg : dht.group e.key = .ok g)
    (h : group_author g editor author = .ok author') :
    author' = next_author author ⟨editor, none⟩ (held_key dht e) := by
  unfold group_author at h
  cases hs : author.sign_key with
  | some k =>
    rw [hs] at h
    cases h
    simp [next_author, hs]
  | none =>
    rw [hs] at h
    unfold Group.current_key at h
    cases hks : g.group_keys with
    | error what =>
      rw [hks] at h
      cases h
      simp [next_author, held_key, hg, hks]
    | ok keys =>
      simp only [hks] at h
      cases hb : back keys with
      | error what =>
        rw [hb] at h
        cases h
      | ok key =>
        rw [hb] at h
        cases h
        simp [next_author, held_key, hg, hks, back_ok hb, hs]

omit [DecidableEq K] in
theorem seal_group_ok {users idx : Nat} {e' : ACLEntry K} {gv gv' : List Int}
    (h : seal_group dht use_encrypt secret users idx e gv author = .ok (e', gv', author')) :
    GroupSealed dht use_encrypt secret users idx e gv author e' gv' author' := by
  unfold seal_group at h
  cases hg : dht.group e.key with
  | error what =>
    rw [hg] at h
    cases h
    refine ⟨⟨rfl, rfl, rfl⟩, fun g hg' => ?_, rfl, ?_, fun _ _ => rfl, ?_⟩
    · rw [hg] at hg'
      cases hg'
    · simp [next_version, hg]
    · cases hs : author.sign_key <;> simp [next_author, held_key, hg, hs]
  | ok g =>
    rw [hg] at h
    obtain ⟨⟨e₁, gv₁⟩, h₁, h⟩ := except_bind_ok h
    obtain ⟨author₁, h₂, h⟩ := except_bind_ok h
    cases h
    have hsigner := group_author_ok hg h₂
    unfold refresh_group at h₁
    cases hr : e.read with
    | false =>
      rw [hr] at h₁
      cases h₁
      refine ⟨⟨rfl, rfl, rfl⟩, fun _ _ hr' => ?_, rfl, ?_, fun _ _ => rfl, hsigner⟩
      · rw [hr] at hr'
        cases hr'
      · simp [next_version, hg, hr]
    | true =>
      rw [hr] at h₁
      obtain ⟨k, hk, h₁⟩ := except_bind_ok h₁
      split at h₁
      next hlt =>
        cases h₁
        refine ⟨⟨rfl, hr.symm, rfl⟩, ?_, List.length_set .., ?_, ?_, hsigner⟩
        · intro g' hg' _
          rw [hg] at hg'
          cases hg'
          exact ⟨k, back_ok hk, rfl⟩
        · simp [next_version, hg, hr, List.getElem?_set_self hlt]
        · intro j hj
          exact List.getElem?_set_ne (Ne.symm hj)
      next => cases h₁

/-- The author after the groups: the one there was, or else a member of the first group that we
hold the key of. -/
def group_signer (dht : Dht K S H) (users idx : Nat) (entries : List (ACLEntry K))
    (author : Author K) : Author K :=
  match author.sign_key, first_held dht entries with
  | none, some (j, _, key) => ⟨users + (idx + j : Nat), some key⟩
  | _, _ => author

omit [DecidableEq K] in
theorem group_signer_cons (users idx : Nat) (e : ACLEntry K) (es : List (ACLEntry K))
    (author : Author K) :
    group_signer dht users (idx + 1) es (next_author author ⟨users + idx, none⟩ (held_key dht e)) =
      group_signer dht users idx (e :: es) author := by
  cases hs : author.sign_key with
  | some k => simp [group_signer, next_author, hs]
  | none =>
    cases hh : held_key dht e with
    | some key => simp [group_signer, next_author, first_held, hs, hh]
    | none =>
      cases hf : first_held dht es with
      | none => simp [group_signer, next_author, first_held, hs, hh, hf]
      | some p =>
        simp [group_signer, next_author, first_held, hs, hh, hf]
        omega

/-- What sealing does to the group entries, to the recorded versions and to the author. -/
structure GroupsSealed (dht : Dht K S H) (use_encrypt : Bool) (secret : Buffer) (users idx : Nat)
    (es : List (ACLEntry K)) (gv : List Int) (author : Author K) (es' : List (ACLEntry K))
    (gv' : List Int) (author' : Author K) : Prop where
  rights : permissions es' = permissions es
  token : ∀ (i : Nat) (e e' : ACLEntry K), es[i]? = some e → es'[i]? = some e' →
    ∀ g, dht.group e.key = .ok g → e.read = true → ∃ k, g.public_keys.getLast? = some k ∧
      e'.token = dht.ciphers.encrypt use_encrypt k secret
  size : gv'.length = gv.length
  recorded : ∀ (i : Nat) (e : ACLEntry K), es[i]? = some e →
    gv'[idx + i]? = next_version dht gv (idx + i) e
  before : ∀ j, j < idx → gv'[j]? = gv[j]?
  signer : author' = group_signer dht users idx es author

omit [DecidableEq K] in
theorem seal_groups_ok {users idx : Nat} {gv gv' : List Int}
    (h : seal_groups dht use_encrypt secret users idx es gv author = .ok (es', gv', author')) :
    GroupsSealed dht use_encrypt secret users idx es gv author es' gv' author' := by
  induction es generalizing idx gv author es' with
  | nil =>
    cases h
    refine ⟨rfl, nofun, rfl, nofun, fun _ _ => rfl, ?_⟩
    cases hs : author'.sign_key <;> simp [group_signer, first_held, hs]
  | cons e es ih =>
    unfold seal_groups at h
    obtain ⟨⟨e₁, gv₁, author₁⟩, h₁, h⟩ := except_bind_ok h
    obtain ⟨⟨es₂, gv₂, author₂⟩, h₂, h⟩ := except_bind_ok h
    cases h
    have hone := seal_group_ok h₁
    have hrest := ih h₂
    -- the later groups read the versions that are behind the one just written
    have hsame : ∀ i e', es[i]? = some e' →
        next_version dht gv₁ (idx + 1 + i) e' = next_version dht gv (idx + 1 + i) e' := by
      intro i e' _
      unfold next_version
      rw [hone.others _ (by omega)]
    refine ⟨?_, ?_, hrest.size.trans hone.size, ?_, ?_, ?_⟩
    · have hr := hrest.rights
      unfold permissions at hr ⊢
      rw [List.map_cons, List.map_cons, hr, hone.rights.1, hone.rights.2.1, hone.rights.2.2]
    · intro i a a' ha ha'
      cases i with
      | zero =>
        cases ha
        cases ha'
        exact hone.token
      | succ i => exact hrest.token i a a' ha ha'
    · intro i a ha
      cases i with
      | zero =>
        cases ha
        rw [Nat.add_zero, hrest.before idx (by omega)]
        exact hone.recorded
      | succ i =>
        have hi := hrest.recorded i a ha
        rw [hsame i a ha] at hi
        rw [show idx + (i + 1) = idx + 1 + i by omega]
        exact hi
    · intro j hj
      rw [hrest.before j (by omega), hone.others j (by omega)]
    · rw [hrest.signer, hone.signer, group_signer_cons]

/-! ## What the validation says of an author -/

/-- The public key of the group of an entry, at a version. -/
def public_key (dht : Dht K S H) (e : ACLEntry K) (version : Option Int) : Option K :=
  match dht.group e.key, version with
  | .ok g, some v => if 0 ≤ v then g.public_keys[v.toNat]? else none
  | _, _ => none

theorem verify_data_success {k : K} {reason : String} (hc : dht.ciphers.Signs)
    (hv : dht.validate_signatures = true) (hs : SignedBy dht key b) :
    b.verify_data dht k reason = .success ↔ k = key := by
  unfold verify_data
  rw [hs hv, hc]
  by_cases hk : k = key <;> simp [hk]

theorem validate_author_owner (hc : dht.ciphers.Signs) (hed : b.editor = -1)
    (hs : SignedBy dht b.owner_key b) : b.validate_author dht = .ok .success := by
  unfold validate_author
  rw [if_pos hed]
  cases hv : dht.validate_signatures with
  | false => rfl
  | true =>
    rw [if_pos rfl]
    exact congrArg Except.ok ((verify_data_success hc hv hs).2 rfl)

theorem validate_author_user (hc : dht.ciphers.Signs) (hed : b.editor = i)
    (he : b.acl_entries[i]? = some e) (hs : SignedBy dht e.key b) :
    b.validate_author dht = .ok .success ↔ e.write = true := by
  have hi : i < b.acl_entries.length := (List.getElem?_eq_some_iff.1 he).1
  have hindex : index b.acl_entries b.editor = .ok e := by
    rw [hed]
    exact index_ok.2 ⟨by omega, by simpa using he⟩
  unfold validate_author
  rw [if_neg (by omega), if_neg (by omega), if_neg (by omega), hindex]
  cases hw : e.write with
  | false => simp [Bind.bind, Except.bind, hw, pure, Except.pure]
  | true =>
    cases hv : dht.validate_signatures with
    | false => simp [Bind.bind, Except.bind, hw, pure, Except.pure]
    | true =>
      simp [Bind.bind, Except.bind, hw, pure, Except.pure, verify_data_success hc hv hs]

theorem verify_key_success (hc : dht.ciphers.Signs) (hv : dht.validate_signatures = true)
    (hs : SignedBy dht key b) (g : Group K) (v : Int) :
    (do
      let key_index ← (Except.ok v : Except Failure Int)
      if (g.public_keys.length : Int) ≤ key_index then pure (.failure "group key out of range")
      else do
        let key ← index g.public_keys key_index
        pure (b.verify_data dht key "Invalid group key signature")) =
        (Except.ok .success : Except Failure ValidationResult) ↔
      (if 0 ≤ v then g.public_keys[v.toNat]? else none) = some key := by
  by_cases hle : (g.public_keys.length : Int) ≤ v
  · have hnone : g.public_keys[v.toNat]? = none := List.getElem?_eq_none (by omega)
    simp [Bind.bind, Except.bind, hle, hnone, pure, Except.pure]
  · by_cases hpos : 0 ≤ v
    · have hlt : v.toNat < g.public_keys.length := by omega
      have hindex : index g.public_keys v = .ok g.public_keys[v.toNat] :=
        index_ok.2 ⟨hpos, by simp [hlt]⟩
      simp [Bind.bind, Except.bind, hle, hpos, hindex, pure, Except.pure,
        verify_data_success hc hv hs, List.getElem?_eq_getElem hlt]
    · have hindex : index g.public_keys v = .error .out_of_bounds := by simp [index, hpos]
      simp [Bind.bind, Except.bind, hle, hpos, hindex]

theorem verify_group_success (hc : dht.ciphers.Signs) (hv : dht.validate_signatures = true)
    (hs : SignedBy dht key b) :
    b.verify_group dht e i = .ok .success ↔
      public_key dht e b.group_version[i]? = some key := by
  unfold verify_group public_key
  cases hg : dht.group e.key with
  | error what => simp
  | ok g =>
    by_cases hi : i < b.group_version.length
    · have hindex : index b.group_version i = .ok b.group_version[i] :=
        index_ok.2 ⟨by omega, by simp [hi]⟩
      simp only [if_neg (show ¬(b.group_version.length : Int) ≤ i by omega), hindex,
        List.getElem?_eq_getElem hi]
      exact verify_key_success hc hv hs g _
    · simp only [if_pos (show (b.group_version.length : Int) ≤ i by omega),
        List.getElem?_eq_none (Nat.le_of_not_lt hi)]
      simp

theorem validate_author_group (hc : dht.ciphers.Signs) (hed : b.editor = b.acl_entries.length + i)
    (he : b.acl_group_entries[i]? = some e) (hs : SignedBy dht key b) :
    b.validate_author dht = .ok .success ↔ e.write = true ∧
      (dht.validate_signatures = true →
        public_key dht e b.group_version[i]? = some key) := by
  have hi : i < b.acl_group_entries.length := (List.getElem?_eq_some_iff.1 he).1
  have hgindex : b.editor - b.acl_entries.length = i := by omega
  have hindex : index b.acl_group_entries i = .ok e := index_ok.2 ⟨by omega, by simpa using he⟩
  unfold validate_author
  rw [if_neg (by omega), if_neg (by omega), if_pos (by omega)]
  simp only [hgindex, if_neg (show ¬(b.acl_group_entries.length : Int) ≤ i by omega), hindex]
  cases hw : e.write with
  | false => simp [Bind.bind, Except.bind, hw, pure, Except.pure]
  | true =>
    cases hv : dht.validate_signatures with
    | false => simp [Bind.bind, Except.bind, hw, pure, Except.pure]
    | true =>
      simp [Bind.bind, Except.bind, hw, verify_group_success hc hv hs]

/-! ## The author of the same data -/

theorem find_last_entry_some (h : find_last_entry key entries = some (i, e)) :
    entries[i]? = some e ∧ e.key = key := by
  induction entries generalizing i with
  | nil => cases h
  | cons a es ih =>
    unfold find_last_entry at h
    split at h
    next j x hx =>
      cases h
      exact ih hx
    next =>
      split at h
      next hk =>
        cases h
        exact ⟨rfl, hk⟩
      next => cases h

/-- The key that we hold of the last group that has one. -/
def last_held (dht : Dht K S H) (entries : List (ACLEntry K)) : Option K :=
  (entries.filterMap (held_key dht)).getLast?

omit [DecidableEq K] in
theorem last_group_ok {idx : Nat} (h : last_group dht idx es author = .ok author') :
    author' = match last_held dht es with
      | some key => ⟨idx, some key⟩
      | none => author := by
  induction es generalizing author with
  | nil =>
    cases h
    rfl
  | cons e es ih =>
    have hskip : held_key dht e = none → last_held dht (e :: es) = last_held dht es := by
      intro hh
      simp [last_held, hh]
    unfold last_group at h
    split at h
    next what hg =>
      rw [hskip (by simp [held_key, hg])]
      exact ih h
    next g hg =>
      obtain ⟨k, hk, h⟩ := except_bind_ok h
      unfold Group.current_key at hk
      cases hks : g.group_keys with
      | error what =>
        rw [hks] at hk
        cases hk
        rw [hskip (by simp [held_key, hg, hks])]
        exact ih h
      | ok keys =>
        simp only [hks] at hk
        cases hb : back keys with
        | error what =>
          rw [hb] at hk
          cases hk
        | ok key =>
          rw [hb] at hk
          cases hk
          have hh : held_key dht e = some key := by simp [held_key, hg, hks, back_ok hb]
          have hr := ih h
          simp only [last_held, List.filterMap_cons, hh, List.getLast?_cons] at hr ⊢
          rw [hr]
          cases (es.filterMap (held_key dht)).getLast? <;> rfl

omit [DecidableEq K] in
theorem first_held_some (h : first_held dht es = some (i, e, key)) : es[i]? = some e := by
  induction es generalizing i with
  | nil => cases h
  | cons a es ih =>
    unfold first_held at h
    split at h
    next k hk =>
      cases h
      rfl
    next =>
      obtain ⟨⟨j, x⟩, hj, hp⟩ := Option.map_eq_some_iff.1 h
      cases hp
      exact ih hj

/-! ## The run of a seal -/

/-- The steps of `_seal` behind the admin keys. They test the block `m` that these left. -/
def rights_step (dht : Dht K S H) (m : ACB K H) : Op (ACB K H) Failure (Option K) :=
  if m.acl_changed then seal_acl dht m.data_changed else pure none

def data_step (dht : Dht K S H) (key : S) (m : ACB K H) (sign_key : Option K) :
    Op (ACB K H) Failure (Option K) :=
  if m.data_changed then seal_data dht key sign_key else pure sign_key

def author_step (dht : Dht K S H) (version : Option Int) (m : ACB K H) (sign_key : Option K) :
    Op (ACB K H) Failure Unit :=
  if m.acl_changed || m.data_changed || version.isSome then seal_author dht version sign_key
  else pure ()

/-! What a step does not set, it leaves. -/

section

variable {β : Type} {g : ACB K H → β}

omit [DecidableEq K] in
theorem rights_step_keeps (h : rights_step dht m b = (.ok k, b'))
    (hg : ∀ version signature data_version, g { b with
      acl_changed := false, editor := -1, version, signature, data_version } = g b) :
    g b' = g b := by
  unfold rights_step at h
  split at h
  · obtain ⟨-, -, sig, hb, -⟩ := seal_acl_ok h
    rw [hb, hg]
  · cases h
    rfl

theorem data_step_keeps {key : S} {sign_key : Option K}
    (h : data_step dht key m sign_key b = (.ok k, b'))
    (hg : ∀ users groups gv editor, g (b.with_data dht key users groups gv editor) = g b) :
    g b' = g b := by
  unfold data_step at h
  split at h
  · obtain ⟨users, author, groups, gv, author', -, -, hb, -⟩ := seal_data_ok h
    rw [hb, hg]
  · cases h
    rfl

theorem author_step_keeps {sign_key : Option K}
    (h : author_step dht version m sign_key b = (.ok (), b'))
    (hg : ∀ data_version editor data_signature sign_key, g { b with
      data_version, editor, data_signature, sign_key } = g b) : g b' = g b := by
  unfold author_step at h
  split at h
  · obtain ⟨author, key, sig, -, -, hb, -⟩ := seal_author_ok h
    rw [hb, hg]
  · cases h
    rfl

end

theorem seal_steps {key : S} {m₀ : ACB K H}
    (hv : on_okb (OKB.take_seal_version version) b = (.ok v, m₀))
    (h : _seal dht version key b = (.ok (), b')) :
    ∃ m₁ k₂ m₂ k₃ m₃ m₄, enforce_admin_keys dht m₀ = (.ok (), m₁) ∧
      rights_step dht m₁ m₁ = (.ok k₂, m₂) ∧
      data_step dht key m₁ k₂ m₂ = (.ok k₃, m₃) ∧
      author_step dht v m₁ k₃ m₃ = (.ok (), m₄) ∧
      restart_signatures dht m₄ = (.ok (), b') := by
  unfold _seal at h
  rw [Op.bind_of_ok hv] at h
  obtain ⟨_, m₁, h₁, h⟩ := Op.bind_eq_ok h
  rw [Op.bind_of_ok (Op.get_apply _)] at h
  obtain ⟨k₂, m₂, h₂, h⟩ := Op.bind_eq_ok h
  obtain ⟨k₃, m₃, h₃, h⟩ := Op.bind_eq_ok h
  obtain ⟨_, m₄, h₄, h₅⟩ := Op.bind_eq_ok h
  exact ⟨m₁, k₂, m₂, k₃, m₃, m₄, h₁, h₂, h₃, h₄, h₅⟩

theorem seal_ok {key : S} (h : _seal dht version key b = (.ok (), b')) :
    ∃ next v m₁ k₂ m₂ k₃ m₃ m₄, (version.isSome → v.isSome) ∧
      enforce_admin_keys dht { b with next_seal_version := next } = (.ok (), m₁) ∧
      rights_step dht m₁ m₁ = (.ok k₂, m₂) ∧
      data_step dht key m₁ k₂ m₂ = (.ok k₃, m₃) ∧
      author_step dht v m₁ k₃ m₃ = (.ok (), m₄) ∧
      restart_signatures dht m₄ = (.ok (), b') := by
  obtain ⟨next, v, hv, hsome⟩ := take_seal_version_ok version b
  obtain ⟨m₁, k₂, m₂, k₃, m₃, m₄, hsteps⟩ := seal_steps hv h
  exact ⟨next, v, m₁, k₂, m₂, k₃, m₃, m₄, hsome, hsteps⟩

theorem seal_data_owner {key : S} {k' : Option K} (ho : b.owner_private_key = true)
    (h : seal_data dht key k b = (.ok k', b')) :
    k' = some b.owner_key ∧ b'.editor = -1 := by
  obtain ⟨users, author, groups, gv, author', hu, hg, hb, hk⟩ := seal_data_ok h
  have hauthor : author = ⟨-1, some b.owner_key⟩ := by
    simp only [seal_users, first_author, ho, if_true, Prod.mk.injEq] at hu
    exact hu.2.symm
  have hauthor' : author' = ⟨-1, some b.owner_key⟩ := by
    rw [(seal_groups_ok hg).signer, hauthor]
    rfl
  subst hauthor'
  subst hb
  exact ⟨hk, rfl⟩

theorem sealed_by_owner {key : S} (ho : m₁.owner_private_key = true)
    (h₂ : rights_step dht m₁ m₁ = (.ok k₂, m₂))
    (h₃ : data_step dht key m₁ k₂ m₂ = (.ok k₃, m₃))
    (h₄ : seal_author dht v k₃ m₃ = (.ok (), m₄)) :
    m₄.editor = -1 ∧ m₄.sign_key = some m₄.owner_key ∧ SignedBy dht m₄.owner_key m₄ := by
  have e₂ : m₂.owner_private_key = true ∧
      (k₂ = none ∨ k₂ = some m₂.owner_key ∧ m₂.editor = -1) := by
    unfold rights_step at h₂
    split at h₂
    · obtain ⟨-, hk, sig, hm, -⟩ := seal_acl_ok h₂
      subst hm
      exact ⟨ho, Or.inr ⟨hk, rfl⟩⟩
    · cases h₂
      exact ⟨ho, Or.inl rfl⟩
  have e₃ : m₃.owner_private_key = true ∧
      (k₃ = none ∨ k₃ = some m₃.owner_key ∧ m₃.editor = -1) := by
    unfold data_step at h₃
    split at h₃
    · have hd := seal_data_owner e₂.1 h₃
      obtain ⟨users, author, groups, gv, author', -, -, hm, -⟩ := seal_data_ok h₃
      rw [hm] at hd ⊢
      exact ⟨e₂.1, Or.inr hd⟩
    · cases h₃
      exact e₂
  obtain ⟨author, k, sig, ha, hk, hm, hs⟩ := seal_author_ok h₄
  have hauthor : author = ⟨-1, some m₃.owner_key⟩ := by
    rcases e₃.2 with hn | ⟨hn, hed⟩
    · rw [hn] at ha
      simp only [find_author, e₃.1, if_true] at ha
      cases ha
      rfl
    · rw [hn] at ha
      simp only [find_author, hed] at ha
      cases ha
      rfl
  subst hauthor
  cases hk
  subst hm
  exact ⟨rfl, rfl, hs⟩

/-! ## The law -/

/-- The author part of `_validate` succeeds. -/
def AuthorPart (dht : Dht K S H) (b : ACB K H) : Prop :=
  b.world_writable = true ∨ b.validate_author dht = .ok .success

/-- Who seals new data may write by the entry that is picked: the first user entry of its key or,
without one, the first group that it holds the key of. The group must then also read, unless the
version that is recorded for it is the current one. -/
def RightfulData (dht : Dht K S H) (b : ACB K H) : Prop :=
  match find_entry dht.keys b.acl_entries with
  | some (_, e) => e.write = true
  | none => ∃ i e key, first_held dht b.acl_group_entries = some (i, e, key) ∧ e.write = true ∧
      (dht.validate_signatures = true →
        public_key dht e (next_version dht b.group_version i e) = some key)

/-- Who seals the same data at a version may write by the entry that is picked: the last user entry
of its key or, without one, the first group of the list, with the key of the last group that it
holds the key of. -/
def RightfulVersion (dht : Dht K S H) (b : ACB K H) : Prop :=
  match find_last_entry dht.keys b.acl_entries with
  | some (_, e) => e.write = true
  | none => ∃ e key, b.acl_group_entries[0]? = some e ∧
      last_held dht b.acl_group_entries = some key ∧ e.write = true ∧
      (dht.validate_signatures = true → public_key dht e b.group_version[0]? = some key)

def Rightful (dht : Dht K S H) (b : ACB K H) : Prop :=
  b.owner_private_key = true ∨ b.world_writable = true ∨
    if b.data_changed then RightfulData dht b else RightfulVersion dht b

omit [DecidableEq K] in
theorem permissions_getElem (h : permissions es' = permissions es) (he : es[i]? = some e) :
    ∃ e', es'[i]? = some e' ∧ e'.key = e.key ∧ e'.read = e.read ∧ e'.write = e.write := by
  have hi := congrArg (·[i]?) h
  simp only [permissions, List.getElem?_map, he, Option.map_some] at hi
  obtain ⟨e', he', heq⟩ := Option.map_eq_some_iff.1 hi
  simp only [Prod.mk.injEq] at heq
  exact ⟨e', he', heq⟩

theorem find_entry_none :
    find_entry key entries = none ↔ ∀ e ∈ entries, e.key ≠ key := by
  induction entries with
  | nil => simp [find_entry]
  | cons e es ih =>
    by_cases hk : e.key = key
    · simp [find_entry, hk]
    · simp [find_entry, hk, ih]

theorem find_last_entry_none :
    find_last_entry key entries = none ↔ ∀ e ∈ entries, e.key ≠ key := by
  induction entries with
  | nil => simp [find_last_entry]
  | cons e es ih =>
    cases hl : find_last_entry key es with
    | some p =>
      simp only [find_last_entry, hl, List.mem_cons, forall_eq_or_imp]
      rw [hl] at ih
      simp only [reduceCtorEq, false_iff] at ih ⊢
      exact fun h => ih h.2
    | none =>
      have hnone := ih.1 hl
      by_cases hk : e.key = key
      · simp [find_last_entry, hl, hk]
      · simp only [find_last_entry, hl, if_neg hk, List.mem_cons, forall_eq_or_imp, true_iff]
        exact ⟨hk, hnone⟩

theorem seal_users_rights {users : List (ACLEntry K)}
    (h : seal_users dht use_encrypt secret entries author = (users, author')) :
    permissions users = permissions entries := by
  simp only [seal_users, Prod.mk.injEq] at h
  rw [← h.1]
  simp only [permissions, List.map_map]
  apply List.map_congr_left
  intro e _
  simp only [Function.comp_apply]
  split <;> rfl

omit [DecidableEq K] in
theorem mem_key_of_permissions (h : permissions es' = permissions es) (hk : ∀ e ∈ es, e.key ≠ key) :
    ∀ e ∈ es', e.key ≠ key := by
  have hkeys : es'.map (·.key) = es.map (·.key) := by
    have := congrArg (List.map Prod.fst) h
    simpa [permissions, List.map_map, Function.comp_def] using this
  intro e he
  have hm : e.key ∈ es.map (·.key) := hkeys ▸ List.mem_map_of_mem he
  obtain ⟨a, ha, hae⟩ := List.mem_map.1 hm
  rw [← hae]
  exact hk a ha

omit [DecidableEq K] in
theorem held_keys_of_permissions (h : permissions es' = permissions es) :
    es'.map (held_key dht) = es.map (held_key dht) := by
  have hheld : ∀ l : List (ACLEntry K), l.map (held_key dht) =
      (permissions l).map fun p => held_key dht ⟨p.1, p.2.1, p.2.2, []⟩ := by
    intro l
    simp only [permissions, List.map_map]
    rfl
  rw [hheld, hheld, h]

omit [DecidableEq K] in
theorem first_held_none :
    first_held dht es = none ↔ ∀ e ∈ es, held_key dht e = none := by
  induction es with
  | nil => simp [first_held]
  | cons e es ih =>
    cases hh : held_key dht e with
    | some k => simp [first_held, hh]
    | none => simp [first_held, hh, ih]

omit [DecidableEq K] in
theorem last_held_none :
    last_held dht es = none ↔ ∀ e ∈ es, held_key dht e = none := by
  simp [last_held]

theorem find_author_none (ho : b.owner_private_key = false) (hw : b.world_writable = false)
    (hu : ∀ e ∈ b.acl_entries, e.key ≠ dht.keys)
    (hg : ∀ e ∈ b.acl_group_entries, held_key dht e = none)
    (h : find_author dht none b = .ok author) : author.sign_key = none := by
  simp only [find_author, ho, Bool.false_eq_true, if_false, find_last_entry_none.2 hu] at h
  obtain ⟨a, ha, h⟩ := except_bind_ok h
  rw [last_group_ok ha, last_held_none.2 hg] at h
  simp only [hw, Bool.and_false, Bool.false_eq_true, if_false] at h
  cases h
  rfl

theorem sealed_data_by_other {key : S} (hc : dht.ciphers.Signs) (ho : m.owner_private_key = false)
    (hw : m.world_writable = false) (h₃ : seal_data dht key none m = (.ok k, m₃))
    (h₄ : seal_author dht v k m₃ = (.ok (), m₄)) :
    m₄.validate_author dht = .ok .success ↔ RightfulData dht m := by
  obtain ⟨users, author, groups, gv, author', hu, hg, hm₃, hk⟩ := seal_data_ok h₃
  obtain ⟨author₄, key₄, sig, ha, hkey₄, hm₄, hs⟩ := seal_author_ok h₄
  have hsealed := seal_groups_ok hg
  have husers := seal_users_rights hu
  rw [hw, Bool.and_false] at hk
  simp only [Bool.false_eq_true, if_false] at hk
  have hfirst : m.first_author none = ⟨m.editor, none⟩ := by simp [first_author, ho]
  rw [hfirst] at hu
  have hlength : users.length = m.acl_entries.length := by
    simpa [permissions] using congrArg List.length husers
  unfold RightfulData
  cases hf : find_entry dht.keys m.acl_entries with
  | some p =>
    obtain ⟨i, e⟩ := p
    obtain ⟨hi, hek⟩ := find_entry_some hf
    have hauthor : author = ⟨i, some dht.keys⟩ := by
      simp only [seal_users, hf, Prod.mk.injEq] at hu
      exact hu.2.symm
    have hauthor' : author' = ⟨i, some dht.keys⟩ := by
      rw [hsealed.signer, hauthor]
      rfl
    subst hauthor'
    subst hk
    rw [hm₃] at ha
    cases ha
    cases hkey₄
    rw [hm₃] at hm₄
    obtain ⟨e', he', hkey', -, hwrite⟩ := permissions_getElem husers hi
    change m₄.validate_author dht = .ok .success ↔ e.write = true
    rw [← hwrite]
    apply validate_author_user (i := i) hc
    · rw [hm₄]; rfl
    · rw [hm₄]; exact he'
    · rw [hkey', hek]; exact hs
  | none =>
    have hauthor : author = ⟨m.editor, none⟩ := by
      simp only [seal_users, hf, Prod.mk.injEq] at hu
      exact hu.2.symm
    rw [hauthor] at hsealed
    cases hfh : first_held dht m.acl_group_entries with
    | none =>
      exfalso
      have hauthor' : author' = ⟨m.editor, none⟩ := by
        rw [hsealed.signer]
        simp [group_signer, hfh]
      rw [hauthor'] at hk
      subst hk
      have hnone : author₄.sign_key = none := by
        apply find_author_none _ _ _ _ ha
        · rw [hm₃]; exact ho
        · rw [hm₃]; exact hw
        · rw [hm₃]
          exact mem_key_of_permissions husers (find_entry_none.1 hf)
        · rw [hm₃]
          have hheld : groups.map (held_key dht) = m.acl_group_entries.map (held_key dht) :=
            held_keys_of_permissions hsealed.rights
          intro e he
          have hmem : held_key dht e ∈ m.acl_group_entries.map (held_key dht) := by
            rw [← hheld]
            exact List.mem_map_of_mem he
          obtain ⟨a, hma, hae⟩ := List.mem_map.1 hmem
          rw [← hae]
          exact first_held_none.1 hfh a hma
      rw [hnone] at hkey₄
      cases hkey₄
    | some p =>
      obtain ⟨i, e, gkey⟩ := p
      have hauthor' : author' = ⟨m.acl_entries.length + (i : Nat), some gkey⟩ := by
        rw [hsealed.signer]
        simp [group_signer, hfh]
      subst hauthor'
      subst hk
      rw [hm₃] at ha
      cases ha
      cases hkey₄
      rw [hm₃] at hm₄
      have hi := first_held_some hfh
      obtain ⟨e', he', hkey', -, hwrite⟩ := permissions_getElem hsealed.rights hi
      have hrec := hsealed.recorded i e hi
      rw [Nat.zero_add] at hrec
      have hgroup : public_key dht e' m₄.group_version[i]? =
          public_key dht e (next_version dht m.group_version i e) := by
        rw [hm₄]
        simp only [public_key, with_data, hkey', hrec]
      rw [validate_author_group (i := i) (e := e') hc _ _ hs, hwrite, hgroup]
      · simp
      · rw [hm₄]
        simp only [with_data, hlength]
      · rw [hm₄]; exact he'

theorem sealed_version_by_other (hc : dht.ciphers.Signs) (ho : m.owner_private_key = false)
    (hw : m.world_writable = false) (h₄ : seal_author dht v none m = (.ok (), m₄)) :
    m₄.validate_author dht = .ok .success ↔ RightfulVersion dht m := by
  obtain ⟨author, key, sig, ha, hk, hm₄, hs⟩ := seal_author_ok h₄
  unfold RightfulVersion
  simp only [find_author, ho, Bool.false_eq_true, if_false] at ha
  cases hf : find_last_entry dht.keys m.acl_entries with
  | some p =>
    obtain ⟨i, e⟩ := p
    obtain ⟨hi, hek⟩ := find_last_entry_some hf
    simp only [hf] at ha
    cases ha
    cases hk
    apply validate_author_user (i := i) hc
    · rw [hm₄]
    · rw [hm₄]; exact hi
    · rw [hek]; exact hs
  | none =>
    simp only [hf] at ha
    obtain ⟨a, hl, ha⟩ := except_bind_ok ha
    have ha' : author = a := by
      rw [hw, Bool.and_false] at ha
      cases ha
      rfl
    subst ha'
    have hlast := last_group_ok hl
    cases hh : last_held dht m.acl_group_entries with
    | none =>
      simp only [hh] at hlast
      rw [hlast] at hk
      cases hk
    | some gkey =>
      simp only [hh] at hlast
      subst hlast
      cases hk
      cases hz : m.acl_group_entries[0]? with
      | none =>
        rw [List.getElem?_eq_none_iff, Nat.le_zero, List.length_eq_zero_iff] at hz
        rw [hz] at hh
        cases hh
      | some e =>
        rw [validate_author_group (i := 0) (e := e) hc _ _ hs]
        · rw [hm₄]; simp
        · rw [hm₄]; rfl
        · rw [hm₄]; exact hz

theorem sealed_world {key : S}
    (h₂ : rights_step dht m₁ m₁ = (.ok k₂, m₂))
    (h₃ : data_step dht key m₁ k₂ m₂ = (.ok k₃, m₃))
    (h₄ : seal_author dht v k₃ m₃ = (.ok (), m₄)) : m₄.world_writable = m₁.world_writable := by
  have e₂ : m₂.world_writable = m₁.world_writable := rights_step_keeps h₂ fun _ _ _ => rfl
  have e₃ : m₃.world_writable = m₂.world_writable := data_step_keeps h₃ fun _ _ _ _ => rfl
  obtain ⟨author, k, sig, -, -, hm, -⟩ := seal_author_ok h₄
  rw [hm, e₃, e₂]

theorem author_part_of_steps {key : S} {next : Option Int} (hc : dht.ciphers.Signs)
    (hwrites : (m₁.acl_changed || m₁.data_changed || v.isSome) = true)
    (h₁ : enforce_admin_keys dht { b with next_seal_version := next } = (.ok (), m₁))
    (h₂ : rights_step dht m₁ m₁ = (.ok k₂, m₂))
    (h₃ : data_step dht key m₁ k₂ m₂ = (.ok k₃, m₃))
    (h₄ : author_step dht v m₁ k₃ m₃ = (.ok (), m₄))
    (h₅ : restart_signatures dht m₄ = (.ok (), b')) : AuthorPart dht b' ↔ Rightful dht b := by
  have hframe := enforce_frame dht { b with next_seal_version := next }
  rw [h₁] at hframe
  have howner : m₁.owner_private_key = b.owner_private_key :=
    congrArg (·.owner_private_key) hframe
  have hworld : m₁.world_writable = b.world_writable := congrArg (·.world_writable) hframe
  rw [author_step, if_pos hwrites] at h₄
  -- the signatures that are restarted are not of the author part
  have hrestart : AuthorPart dht b' ↔ AuthorPart dht m₄ := by
    obtain ⟨author, k, sig, -, -, hm, hs⟩ := seal_author_ok h₄
    obtain ⟨sig', hb, -⟩ := restart_signatures_ok hs (by rw [hm]) h₅
    subst hb
    exact Iff.rfl
  rw [hrestart]
  have hworld₄ := (sealed_world h₂ h₃ h₄).trans hworld
  unfold AuthorPart Rightful
  rw [hworld₄]
  cases hbw : b.world_writable with
  | true => simp
  | false =>
    cases hbo : b.owner_private_key with
    | true =>
      obtain ⟨hed, -, hs⟩ := sealed_by_owner (howner.trans hbo) h₂ h₃ h₄
      simp [validate_author_owner hc hed hs]
    | false =>
      -- who is not the owner cannot have changed the rights
      have hacl : m₁.acl_changed = false := by
        by_contra hne
        rw [rights_step, if_pos (by simpa using hne)] at h₂
        have ho := (seal_acl_ok h₂).1
        rw [howner, hbo] at ho
        cases ho
      have hm₁ := enforce_unchanged h₁ hacl
      rw [rights_step, hacl] at h₂
      cases h₂
      subst hm₁
      simp only [Bool.false_eq_true, false_or]
      cases hbd : b.data_changed with
      | true =>
        rw [data_step, if_pos hbd] at h₃
        rw [if_pos rfl]
        exact sealed_data_by_other (m := { b with next_seal_version := next }) hc hbo hbw h₃ h₄
      | false =>
        rw [data_step, if_neg (by simp [hbd])] at h₃
        rw [if_neg (by simp)]
        cases h₃
        exact sealed_version_by_other (m := { b with next_seal_version := next }) hc hbo hbw h₄

/-- A sealed write validates in its author part, exactly when who sealed it may write by the entry
that sealing picked for it. -/
theorem a_sealed_write_validates_for_a_rightful_author (hc : dht.ciphers.Signs)
    (version : Option Int) (key : S) (b b' : ACB K H)
    (hw : b.data_changed = true ∨ version.isSome = true)
    (h : _seal dht version key b = (.ok (), b')) : AuthorPart dht b' ↔ Rightful dht b := by
  obtain ⟨next, v, m₁, k₂, m₂, k₃, m₃, m₄, hv, h₁, h₂, h₃, h₄, h₅⟩ := seal_ok h
  have hframe := enforce_frame dht { b with next_seal_version := next }
  rw [h₁] at hframe
  have hchanged : m₁.data_changed = b.data_changed := congrArg (·.data_changed) hframe
  apply author_part_of_steps hc _ h₁ h₂ h₃ h₄ h₅
  rw [hchanged]
  rcases hw with hd | hs
  · simp [hd]
  · simp [hv hs]

/-- Who may write, as the entries say it. -/
def WriteAccess (dht : Dht K S H) (b : ACB K H) : Prop :=
  b.owner_private_key = true ∨ b.world_writable = true ∨
    (∃ e ∈ b.acl_entries, e.key = dht.keys ∧ e.write = true) ∨
    ∃ e ∈ b.acl_group_entries, (held_key dht e).isSome = true ∧ e.write = true

end ACB

end

/-- Ciphers where a key is a byte, and what it closes is marked with it. -/
def plain_ciphers : Ciphers UInt8 UInt8 UInt8 where
  sign _ key _ := [key]
  verify key sig _ := sig = [key]
  encrypt _ key b := key :: b
  decrypt _ key b :=
    match b with
    | [] => .error "empty token"
    | k :: b => if k = key then .ok b else .error "wrong key"
  secret_buffer _ s := [s]
  secret_of _ b :=
    match b with
    | [s] => .ok s
    | _ => .error "not a secret"
  encipher s b := s :: b
  decipher s b :=
    match b with
    | [] => .error "empty data"
    | k :: b => if k = s then .ok b else .error "wrong secret"
  hash key _ := (key, 0)
  show_address a := toString a.value
  show_key k := toString k

theorem plain_ciphers_sign : plain_ciphers.Signs := by
  intro v k key payload
  simp [plain_ciphers, eq_comm]

/-- A node of a key, that is in the group 9, whose key is 20. -/
def member (key : UInt8) : Dht UInt8 UInt8 UInt8 where
  keys := key
  version := ⟨0, 8, 0⟩
  validate_signatures := true
  token_encrypt := true
  admin_keys := ⟨[], [], [], []⟩
  group k := if k = 9 then .ok ⟨[20], .ok [20]⟩ else .error "missing block"
  ciphers := plain_ciphers

/-- A stored block of the user 1, with new data. -/
def edited (entries : List (ACLEntry UInt8)) : ACB UInt8 UInt8 where
  address := ⟨1, 0⟩
  data := [5, 100]
  owner := ⟨0, 0⟩
  validated := false
  data_changed := true
  next_seal_version := none
  salt := []
  owner_key := 1
  version := 0
  signature := [1]
  owner_private_key := false
  data_plain := [101]
  data_decrypted := true
  editor := -1
  owner_token := [1, 5]
  acl_changed := false
  acl_entries := entries
  acl_group_entries := [⟨9, true, true, [20, 5]⟩]
  group_version := [0]
  data_version := 0
  data_signature := [1]
  world_readable := false
  world_writable := false
  deleted := false
  sign_key := none
  seal_version := ⟨0, 8, 0⟩
  group_part := none

/-- The user 7 only has the group. -/
theorem a_writing_group_seals :
    ACB.AuthorPart (member 7) (ACB._seal (member 7) none 6 (edited [])).2 := by
  apply (ACB.a_sealed_write_validates_for_a_rightful_author plain_ciphers_sign none 6 (edited [])
    _ (Or.inl rfl) rfl).2
  exact Or.inr (Or.inr ⟨0, _, 20, rfl, rfl, fun _ => rfl⟩)

/-- The user 7 may also read by an entry of its own: sealing picks that entry, which may not
write. -/
theorem a_reading_entry_hides_a_writing_group :
    ¬ ∀ (dht : Dht UInt8 UInt8 UInt8) (version : Option Int) (key : UInt8)
      (b b' : ACB UInt8 UInt8), dht.ciphers.Signs → ACB.WriteAccess dht b →
      b.data_changed = true ∨ version.isSome = true → ACB._seal dht version key b = (.ok (), b') →
      ACB.AuthorPart dht b' := by
  intro h
  have hpart := h (member 7) none 6 (edited [⟨7, true, false, [7, 5]⟩]) _ plain_ciphers_sign
    (Or.inr (Or.inr (Or.inr ⟨_, List.mem_singleton_self _, rfl, rfl⟩))) (Or.inl rfl) rfl
  rcases hpart with hp | hp
  · cases hp
  · cases hp

end memo
