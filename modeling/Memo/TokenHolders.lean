-- Who holds a token that opens to the secret of the data, through all that the
-- owner does to the rights and to the data of a block. A token is made when an
-- entry is added and when the data is sealed; a right that is taken away or given
-- later leaves it as it is.
import Memo.Contents
import Memo.Runs

open ops runs

namespace memo

section

variable {K P : Type}

/-! ## Lists of rights -/

/-- A right to read, with what was made for its holder. -/
structure Right (K P : Type) where
  key : K
  read : Bool
  made : P

/-- What setting the rights of a key does to a list. -/
inductive Edits (key : K) (read write : Bool) (new : P → Prop) :
    List (Right K P) → List (Right K P) → Prop
  | same {l : List (Right K P)} (hr : read = false) : Edits key read write new l l
  | add {l : List (Right K P)} {p : P} (hk : ∀ e ∈ l, e.key ≠ key)
      (hrw : read = true ∨ write = true) (hp : new p) :
      Edits key read write new l (l ++ [⟨key, read, p⟩])
  | drop {l : List (Right K P)} (i : Nat) (hr : read = false) :
      Edits key read write new l (l.eraseIdx i)
  | set {l : List (Right K P)} {i : Nat} (former : Bool) {p : P}
      (hi : l[i]? = some ⟨key, former, p⟩) (hrw : read = true ∨ write = true) :
      Edits key read write new l (l.set i ⟨key, read, p⟩)

/-- What is `good` was made for who may read and for the admins, what is `bad` for the others. -/
structure Allotted (admins : List K) (good bad : K → P → Prop) (l : List (Right K P)) : Prop where
  nodup : (l.map Right.key).Nodup
  good : ∀ e ∈ l, e.read = true ∨ e.key ∈ admins → good e.key e.made
  bad : ∀ e ∈ l, e.read = false → e.key ∉ admins → bad e.key e.made

/-- The entry of a key may read. -/
def ReadBy (l : List (Right K P)) (key : K) : Prop := ∀ e ∈ l, e.key = key → e.read = true

variable {key : K} {read write : Bool} {new : P → Prop} {l l' : List (Right K P)}
  {admins : List K} {good bad : K → P → Prop}

theorem Edits.nodup (h : Edits key read write new l l') (hl : (l.map Right.key).Nodup) :
    (l'.map Right.key).Nodup := by
  cases h with
  | same => exact hl
  | add hk =>
    rw [List.map_append, List.nodup_append]
    refine ⟨hl, List.nodup_singleton _, ?_⟩
    intro a ha a' ha' heq
    obtain ⟨e, he, rfl⟩ := List.mem_map.mp ha
    rw [List.map_singleton, List.mem_singleton] at ha'
    exact hk e he (heq.trans ha')
  | drop i => exact hl.sublist ((List.eraseIdx_sublist ..).map _)
  | set former hi =>
    rw [List.map_set, set_of_getElem?]
    · exact hl
    · rw [List.getElem?_map, hi]
      rfl

theorem Edits.allotted (h : Edits key read write new l l') (hl : Allotted admins good bad l)
    (hnew : (∀ e ∈ l, e.key ≠ key) → read = true ∨ write = true → ∀ p, new p →
      (read = true ∨ key ∈ admins → good key p) ∧ (read = false → key ∉ admins → bad key p))
    (hset : read = true ∨ write = true → ∀ e ∈ l, e.key = key → e.read = read ∨ key ∈ admins) :
    Allotted admins good bad l' := by
  refine ⟨h.nodup hl.nodup, ?_, ?_⟩
  · intro e he hmay
    cases h with
    | same => exact hl.good e he hmay
    | add hk hrw hp =>
      rcases List.mem_append.mp he with he | he
      · exact hl.good e he hmay
      · rw [List.mem_singleton.mp he] at hmay ⊢
        exact (hnew hk hrw _ hp).1 hmay
    | drop i => exact hl.good e (List.mem_of_mem_eraseIdx he) hmay
    | @set i former p hi hrw =>
      rcases List.mem_or_eq_of_mem_set he with he | rfl
      · exact hl.good e he hmay
      · have hmem := List.mem_of_getElem? hi
        refine hl.good ⟨key, former, p⟩ hmem ?_
        rcases hset hrw _ hmem rfl with hsame | hadmin
        · exact hmay.imp_left hsame.trans
        · exact Or.inr hadmin
  · intro e he hr hno
    cases h with
    | same => exact hl.bad e he hr hno
    | add hk hrw hp =>
      rcases List.mem_append.mp he with he | he
      · exact hl.bad e he hr hno
      · rw [List.mem_singleton.mp he] at hr hno ⊢
        exact (hnew hk hrw _ hp).2 hr hno
    | drop i => exact hl.bad e (List.mem_of_mem_eraseIdx he) hr hno
    | @set i former p hi hrw =>
      rcases List.mem_or_eq_of_mem_set he with he | rfl
      · exact hl.bad e he hr hno
      · have hmem := List.mem_of_getElem? hi
        rcases hset hrw _ hmem rfl with hsame | hadmin
        · exact hl.bad ⟨key, former, p⟩ hmem (hsame.trans hr) hno
        · exact absurd hadmin hno

theorem Edits.granted (h : Edits key true write new l l') {key' : K} (hl : ReadBy l key') :
    ReadBy l' key' := by
  intro e he hk
  cases h with
  | same hr => cases hr
  | add =>
    rcases List.mem_append.mp he with he | he
    · exact hl e he hk
    · rw [List.mem_singleton.mp he]
  | drop i hr => cases hr
  | set former hi =>
    rcases List.mem_or_eq_of_mem_set he with he | rfl
    · exact hl e he hk
    · rfl

theorem Edits.grants (h : Edits key true write new l l') (hl : (l.map Right.key).Nodup) :
    ReadBy l' key := by
  intro e he hk
  cases h with
  | same hr => cases hr
  | add hnone =>
    rcases List.mem_append.mp he with he | he
    · exact absurd hk (hnone e he)
    · rw [List.mem_singleton.mp he]
  | drop i hr => cases hr
  | @set i former p hi hrw =>
    obtain ⟨j, hj⟩ := List.mem_iff_getElem?.mp he
    have hlt := (List.getElem?_eq_some_iff.mp hi).1
    by_cases hij : i = j
    · subst hij
      rw [List.getElem?_set_self hlt] at hj
      cases hj
      rfl
    · -- the keys are distinct, so there is no other entry of the key
      rw [List.getElem?_set_ne hij] at hj
      have hsame : (l.map Right.key)[i]? = (l.map Right.key)[j]? := by
        rw [List.getElem?_map, List.getElem?_map, hi, hj, Option.map_some, Option.map_some, hk]
      exact absurd ((List.getElem?_inj (by rwa [List.length_map]) hl).mp hsame) hij

theorem Allotted.listed (h : Allotted [] good bad l) (hgranted : ∀ k ∈ admins, ReadBy l k) :
    Allotted admins good bad l := by
  refine ⟨h.nodup, fun e he hmay => h.good e he (Or.inl ?_), fun e he hr _ =>
    h.bad e he hr List.not_mem_nil⟩
  rcases hmay with hr | hadmin
  · exact hr
  · exact hgranted e.key hadmin e he rfl

theorem Allotted.enforced (h : Allotted admins good bad l)
    (hgranted : ∀ k ∈ admins, ReadBy l k) : Allotted [] good bad l := by
  refine ⟨h.nodup, fun e he hmay => h.good e he (Or.inl ?_), fun e he hr _ => h.bad e he hr ?_⟩
  · exact hmay.resolve_right List.not_mem_nil
  · intro hadmin
    rw [hgranted e.key hadmin e he rfl] at hr
    cases hr

end

section

variable {K S H : Type} {dht : Dht K S H} {b b' m m' : ACB K H}

/-! ## Ciphers and groups -/

/-- What is encrypted opens to nothing else, and the empty buffer to nothing. -/
structure Ciphers.Exact (c : Ciphers K S H) : Prop where
  only : ∀ u u' k k' m m', c.decrypt u' k' (c.encrypt u k m) = .ok m' → m' = m
  empty : ∀ u k m, c.decrypt u k [] ≠ .ok m

/-- A node that sees some of the key pairs of the groups: `pub` gives them by version. -/
structure Sees (c : Ciphers K S H) (pub : K → Nat → Option K) (dht : Dht K S H) : Prop where
  ciphers : dht.ciphers = c
  keyed : ∀ key g, dht.group key = .ok g → g.public_keys ≠ []
  public_keys : ∀ key g, dht.group key = .ok g →
    ∀ (v : Nat) k, g.public_keys[v]? = some k → pub key v = some k
  group_keys : ∀ key g keys, dht.group key = .ok g → g.group_keys = .ok keys →
    ∀ (v : Nat) k, keys[v]? = some k → pub key v = some k

/-- A token holds a secret. -/
def OpensTo (c : Ciphers K S H) (token secret : Buffer) : Prop :=
  ∃ u k, c.decrypt u k token = .ok secret

/-- The token of a group holds a secret, for the members of a version. -/
def OpensAt (c : Ciphers K S H) (pub : K → Nat → Option K) (u : Bool) (key : K)
    (made : Buffer × Int) (secret : Buffer) : Prop :=
  0 ≤ made.2 ∧ ∃ k, pub key made.2.toNat = some k ∧ c.decrypt u k made.1 = .ok secret

variable {c : Ciphers K S H} {pub : K → Nat → Option K} {secret : Buffer}

namespace ACB

/-! ## The entries of a block as lists of rights -/

def users (b : ACB K H) : List (Right K Buffer) :=
  b.acl_entries.map fun e => ⟨e.key, e.read, e.token⟩

/-- A token of a group is for the version that is recorded. -/
def group_right (e : ACLEntry K) (v : Int) : Right K (Buffer × Int) := ⟨e.key, e.read, e.token, v⟩

def groups (b : ACB K H) : List (Right K (Buffer × Int)) :=
  List.zipWith group_right b.acl_group_entries b.group_version

variable {i : Nat} {read write : Bool} {key : K} {e : ACLEntry K} {version : Option Int}
  {entries es es' : List (ACLEntry K)} {r : Except Failure Unit}

theorem groups_getElem? {a : Right K (Buffer × Int)} : b.groups[i]? = some a ↔
    ∃ e v, b.acl_group_entries[i]? = some e ∧ b.group_version[i]? = some v ∧
      a = group_right e v := by
  rw [groups, List.getElem?_zipWith_eq_some]
  simp only [eq_comm]

theorem mem_groups {a : Right K (Buffer × Int)} : a ∈ b.groups ↔
    ∃ (i : Nat) (e : ACLEntry K) (v : Int), b.acl_group_entries[i]? = some e ∧
      b.group_version[i]? = some v ∧ a = group_right e v := by
  simp only [List.mem_iff_getElem?, groups_getElem?]

theorem groups_eraseIdx (b : ACB K H) (i : Nat) :
    List.zipWith group_right (b.acl_group_entries.eraseIdx i) (b.group_version.eraseIdx i) =
      b.groups.eraseIdx i := by
  apply List.ext_getElem?
  intro j
  simp only [groups, List.getElem?_zipWith, List.getElem?_eraseIdx]
  by_cases hj : j < i
  · simp only [if_pos hj]
  · simp only [if_neg hj]

theorem groups_set {v : Int} (hv : b.group_version[i]? = some v) (e : ACLEntry K) :
    List.zipWith group_right (b.acl_group_entries.set i e) b.group_version =
      b.groups.set i (group_right e v) := by
  apply List.ext_getElem?
  intro j
  simp only [groups, List.getElem?_zipWith, List.getElem?_set, List.length_zipWith, lt_min_iff]
  by_cases hij : i = j
  · subst hij
    by_cases hi : i < b.acl_group_entries.length
    · obtain ⟨hlt, rfl⟩ := List.getElem?_eq_some_iff.mp hv
      simp [hi, hlt]
    · simp [hi]
  · simp [hij]

variable [DecidableEq K]

theorem set_permissions_edits (h : set_permissions dht key read write b = (.ok (), b')) :
    Edits key read write (fun t => b.user_token dht key = .ok t) b.users b'.users := by
  unfold set_permissions at h
  split at h
  · cases h
  split at h
  next hnone =>
    split at h
    next hrw =>
      cases h
      exact .same (by simp_all)
    next hrw =>
      split at h
      · cases h
      next token htoken =>
        cases h
        simp only [users, List.map_append, List.map_singleton]
        refine .add ?_ (by simpa [or_iff_not_imp_left] using hrw) htoken
        intro e he
        obtain ⟨a, ha, rfl⟩ := List.mem_map.mp he
        exact find_entry_none.mp hnone a ha
  next i e hf =>
    obtain ⟨hi, rfl⟩ := find_entry_some hf
    split at h
    next hrw =>
      cases h
      simp only [users, ← List.eraseIdx_map]
      exact .drop i (by simp_all)
    next hrw =>
      cases h
      simp only [users, List.map_set]
      refine .set e.read ?_ (by simpa [or_iff_not_imp_left] using hrw)
      rw [List.getElem?_map, hi]
      rfl

theorem set_group_permissions_edits (hs : b.Sized)
    (h : set_group_permissions dht key read write b = (.ok (), b')) :
    Edits key read write (fun p => b.group_token dht key = .ok p.1 ∧
      ∃ g, dht.group key = .ok g ∧ p.2 = g.version - 1) b.groups b'.groups := by
  unfold set_group_permissions at h
  split at h
  next hnone =>
    split at h
    next hrw =>
      cases h
      exact .same (by simp_all)
    next hrw =>
      split at h
      · cases h
      next token htoken =>
        simp only at h
        split at h
        · cases h
        next g hg =>
          cases h
          simp only [groups]
          rw [List.zipWith_append hs.size.symm]
          refine .add (p := (token, g.version - 1)) ?_
            (by simpa [or_iff_not_imp_left] using hrw) ⟨htoken, g, hg, rfl⟩
          intro e he
          obtain ⟨i, a, v, ha, -, rfl⟩ := mem_groups.mp he
          exact find_entry_none.mp hnone a (List.mem_of_getElem? ha)
  next i e hf =>
    obtain ⟨hi, rfl⟩ := find_entry_some hf
    split at h
    next hrw =>
      split at h
      next hlt =>
        cases h
        simp only [groups, groups_eraseIdx]
        exact .drop i (by simp_all)
      · cases h
    next hrw =>
      cases h
      have hlt : i < b.group_version.length := by
        rw [hs.size]
        exact (List.getElem?_eq_some_iff.mp hi).1
      have hv := List.getElem?_eq_getElem hlt
      simp only [groups, groups_set hv]
      refine .set e.read ?_ (by simpa [or_iff_not_imp_left] using hrw)
      exact groups_getElem?.mpr ⟨e, _, hi, hv, rfl⟩

/-! ## The rights of the admins -/

/-- The admins who are not the owner: users and groups. -/
def enforced (admin_keys : AdminKeys K) (owner : K) : List K × List K :=
  ((admin_keys.r ++ admin_keys.w).filter (· ≠ owner),
    (admin_keys.group_r ++ admin_keys.group_w).filter (· ≠ owner))

/-- The block `m` has the rights of an allotted list, and else what `b` has. -/
structure Allots (b : ACB K H) (admins : List K × List K) (good bad : K → Buffer → Prop)
    (good' bad' : K → Buffer × Int → Prop) (m : ACB K H) : Prop where
  framed : m.frame = b.frame
  sized : m.Sized
  users : Allotted admins.1 good bad m.users
  groups : Allotted admins.2 good' bad' m.groups

variable {admins : List K × List K} {good bad : K → Buffer → Prop}
  {good' bad' : K → Buffer × Int → Prop} {aks : AdminKeys K}

omit [DecidableEq K] in
theorem user_token_frame (hf : m.frame = b.frame) (key : K) :
    m.user_token dht key = b.user_token dht key := by
  change m.frame.user_token dht key = b.frame.user_token dht key
  rw [hf]

omit [DecidableEq K] in
theorem group_token_frame (hf : m.frame = b.frame) (key : K) :
    m.group_token dht key = b.group_token dht key := by
  change m.frame.group_token dht key = b.frame.group_token dht key
  rw [hf]

theorem Allots.set_permissions (h : Allots b admins good bad good' bad' m)
    (hs : ACB.set_permissions dht key read write m = (.ok (), m'))
    (hnew : (∀ e ∈ m.users, e.key ≠ key) → read = true ∨ write = true →
      ∀ t, b.user_token dht key = .ok t → (read = true ∨ key ∈ admins.1 → good key t) ∧
        (read = false → key ∉ admins.1 → bad key t))
    (hset : read = true ∨ write = true → ∀ e ∈ m.users, e.key = key →
      e.read = read ∨ key ∈ admins.1) : Allots b admins good bad good' bad' m' := by
  have hframe := set_permissions_frame dht key read write m
  have hsized : (ACB.set_permissions dht key read write m).2.Sized := set_permissions_sized h.sized
  have hgroups := set_permissions_groups dht key read write m
  rw [hs] at hframe hsized hgroups
  have hedits := set_permissions_edits hs
  rw [user_token_frame h.framed] at hedits
  refine ⟨hframe.trans h.framed, hsized, hedits.allotted h.users hnew hset, ?_⟩
  rw [ACB.groups, hgroups.1, hgroups.2]
  exact h.groups

theorem set_group_permissions_returned (hm : m.Sized)
    (hkeys : ∀ g, dht.group key = .ok g → g.public_keys ≠ [])
    (h : set_group_permissions dht key read write m = (.ok (), m')) :
    m'.Sized ∧ m'.acl_entries = m.acl_entries := by
  unfold set_group_permissions at h
  split at h
  next hnone =>
    split at h
    · cases h
      exact ⟨hm, rfl⟩
    · split at h
      · cases h
      next token htoken =>
        simp only at h
        split at h
        · cases h
        next g hg =>
          cases h
          have hpos := List.length_pos_iff.mpr (hkeys g hg)
          refine ⟨⟨?_, ?_⟩, rfl⟩
          · simp [hm.size]
          · intro v hv
            rcases List.mem_append.mp hv with hv | hv
            · exact hm.versions v hv
            · rw [List.mem_singleton.mp hv]
              unfold Group.version
              omega
  next i e hf =>
    split at h
    · split at h
      · cases h
        refine ⟨⟨?_, fun v hv => hm.versions v (List.mem_of_mem_eraseIdx hv)⟩, rfl⟩
        simp only [List.length_eraseIdx, hm.size]
      · cases h
    · cases h
      exact ⟨⟨by simp [hm.size], hm.versions⟩, rfl⟩

theorem Allots.set_group_permissions (h : Allots b admins good bad good' bad' m)
    (hkeys : ∀ g, dht.group key = .ok g → g.public_keys ≠ [])
    (hs : ACB.set_group_permissions dht key read write m = (.ok (), m'))
    (hnew : (∀ e ∈ m.groups, e.key ≠ key) → read = true ∨ write = true →
      ∀ t g, b.group_token dht key = .ok t → dht.group key = .ok g →
        (read = true ∨ key ∈ admins.2 → good' key (t, g.version - 1)) ∧
          (read = false → key ∉ admins.2 → bad' key (t, g.version - 1)))
    (hset : read = true ∨ write = true → ∀ e ∈ m.groups, e.key = key →
      e.read = read ∨ key ∈ admins.2) : Allots b admins good bad good' bad' m' := by
  have hframe := set_group_permissions_frame dht key read write m
  rw [hs] at hframe
  obtain ⟨hsized, hentries⟩ := set_group_permissions_returned h.sized hkeys hs
  have hedits := set_group_permissions_edits h.sized hs
  rw [group_token_frame h.framed] at hedits
  refine ⟨hframe.trans h.framed, hsized, ?_, hedits.allotted h.groups ?_ hset⟩
  · rw [ACB.users, hentries]
    exact h.users
  · rintro hk hrw p ⟨ht, g, hg, hv⟩
    have hnew' := hnew hk hrw p.1 g ht hg
    rwa [← hv] at hnew'

omit [DecidableEq K] in
theorem each_returned {α : Type} {f : α → Op (ACB K H) Failure Unit} {I : ACB K H → Prop}
    {D : α → ACB K H → Prop} {l : List α}
    (hf : ∀ a ∈ l, ∀ m m', I m → f a m = (.ok (), m') → I m' ∧ D a m' ∧ ∀ c, D c m → D c m')
    (hb : I b) (h : each f l b = (.ok (), b')) :
    I b' ∧ (∀ a ∈ l, D a b') ∧ ∀ c, D c b → D c b' := by
  induction l generalizing b with
  | nil =>
    cases h
    exact ⟨hb, nofun, fun _ hc => hc⟩
  | cons a l ih =>
    obtain ⟨_, m, hm, hrest⟩ := Op.bind_eq_ok h
    obtain ⟨hI, hD, hkeep⟩ := hf a List.mem_cons_self b m hb hm
    obtain ⟨hI', hD', hkeep'⟩ := ih (fun c hc => hf c (List.mem_cons_of_mem a hc)) hI hrest
    refine ⟨hI', ?_, fun c hc => hkeep' c (hkeep c hc)⟩
    intro c hc
    rcases List.mem_cons.mp hc with rfl | hc
    · exact hkeep' c hD
    · exact hD' c hc

theorem Allots.grants (h : Allots b admins good bad good' bad' m)
    (hnew : ∀ t, b.user_token dht key = .ok t → good key t) (hk : key ∈ admins.1)
    (hs : ACB.set_permissions dht key true write m = (.ok (), m')) :
    Allots b admins good bad good' bad' m' ∧ ReadBy m'.users key ∧
      ∀ c, ReadBy m.users c → ReadBy m'.users c := by
  have hedits := set_permissions_edits hs
  refine ⟨h.set_permissions hs ?_ fun _ _ _ _ => Or.inr hk, hedits.grants h.users.nodup, ?_⟩
  · exact fun _ _ t ht => ⟨fun _ => hnew t ht, nofun⟩
  · exact fun c hc => hedits.granted hc

theorem Allots.grants_group (h : Allots b admins good bad good' bad' m)
    (hkeys : ∀ g, dht.group key = .ok g → g.public_keys ≠ [])
    (hnew : ∀ t g, b.group_token dht key = .ok t → dht.group key = .ok g →
      good' key (t, g.version - 1)) (hk : key ∈ admins.2)
    (hs : ACB.set_group_permissions dht key true write m = (.ok (), m')) :
    (Allots b admins good bad good' bad' m' ∧ m'.users = m.users) ∧ ReadBy m'.groups key ∧
      ∀ c, ReadBy m.groups c → ReadBy m'.groups c := by
  have hedits := set_group_permissions_edits h.sized hs
  refine ⟨⟨h.set_group_permissions hkeys hs ?_ fun _ _ _ _ => Or.inr hk, ?_⟩,
    hedits.grants h.groups.nodup, fun c hc => hedits.granted hc⟩
  · exact fun _ _ t g ht hg => ⟨fun _ => hnew t g ht hg, nofun⟩
  · rw [ACB.users, (set_group_permissions_returned h.sized hkeys hs).2]
    rfl

theorem Allots.grants_each {keys : List K} (h : Allots b admins good bad good' bad' m)
    (hnew : ∀ k t, b.user_token dht k = .ok t → good k t) (hk : ∀ k ∈ keys, k ∈ admins.1)
    (hs : each (fun k => ACB.set_permissions dht k true write) keys m = (.ok (), m')) :
    Allots b admins good bad good' bad' m' ∧ (∀ k ∈ keys, ReadBy m'.users k) ∧
      ∀ c, ReadBy m.users c → ReadBy m'.users c := by
  refine each_returned (I := Allots b admins good bad good' bad')
    (D := fun k m => ReadBy m.users k) ?_ h hs
  intro k hmem m m' hm hs
  exact hm.grants (hnew k) (hk k hmem) hs

theorem Allots.grants_groups_each {keys : List K} (h : Allots b admins good bad good' bad' m)
    (hkeys : ∀ key g, dht.group key = .ok g → g.public_keys ≠ [])
    (hnew : ∀ k t g, b.group_token dht k = .ok t → dht.group k = .ok g →
      good' k (t, g.version - 1)) (hk : ∀ k ∈ keys, k ∈ admins.2)
    (hs : each (fun k => ACB.set_group_permissions dht k true write) keys m = (.ok (), m')) :
    (Allots b admins good bad good' bad' m' ∧ m'.users = m.users) ∧
      (∀ k ∈ keys, ReadBy m'.groups k) ∧ ∀ c, ReadBy m.groups c → ReadBy m'.groups c := by
  refine each_returned (I := fun x => Allots b admins good bad good' bad' x ∧ x.users = m.users)
    (D := fun k m => ReadBy m.groups k) ?_ ⟨h, rfl⟩ hs
  rintro k hmem x x' ⟨hx, husers⟩ hs
  obtain ⟨⟨hx', husers'⟩, hrest⟩ := hx.grants_group (hkeys k) (hnew k) (hk k hmem) hs
  exact ⟨⟨hx', husers'.trans husers⟩, hrest⟩

theorem enforce_allots (h : Allots b (enforced dht.admin_keys b.owner_key) good bad good' bad' m)
    (hkeys : ∀ key g, dht.group key = .ok g → g.public_keys ≠ [])
    (hu : ∀ k t, b.user_token dht k = .ok t → good k t)
    (hg : ∀ k t g, b.group_token dht k = .ok t → dht.group k = .ok g →
      good' k (t, g.version - 1))
    (hs : enforce_admin_keys dht m = (.ok (), m')) :
    Allots b ([], []) good bad good' bad' m' ∧
      (∀ k ∈ (enforced dht.admin_keys b.owner_key).1, ReadBy m'.users k) ∧
      ∀ k ∈ (enforced dht.admin_keys b.owner_key).2, ReadBy m'.groups k := by
  have howner : m.owner_key = b.owner_key := congrArg (·.owner_key) h.framed
  unfold enforce_admin_keys at hs
  rw [Op.bind_of_ok (Op.get_apply m)] at hs
  simp only [howner] at hs
  obtain ⟨_, m₁, h₁, hs⟩ := Op.bind_eq_ok hs
  obtain ⟨_, m₂, h₂, hs⟩ := Op.bind_eq_ok hs
  obtain ⟨_, m₃, h₃, h₄⟩ := Op.bind_eq_ok hs
  have hsub {keys all : List K} (hk : ∀ k ∈ keys, k ∈ all) :
      ∀ k ∈ keys.filter (· ≠ b.owner_key), k ∈ all.filter (· ≠ b.owner_key) := fun k hmem =>
    List.mem_filter.mpr ⟨hk k (List.mem_filter.mp hmem).1, (List.mem_filter.mp hmem).2⟩
  obtain ⟨a₁, d₁, -⟩ := h.grants_each hu (hsub fun k => List.mem_append_left _) h₁
  obtain ⟨a₂, d₂, k₂⟩ := a₁.grants_each hu (hsub fun k => List.mem_append_right _) h₂
  obtain ⟨⟨a₃, u₃⟩, d₃, -⟩ :=
    a₂.grants_groups_each hkeys hg (hsub fun k => List.mem_append_left _) h₃
  obtain ⟨⟨a₄, u₄⟩, d₄, k₄⟩ :=
    a₃.grants_groups_each hkeys hg (hsub fun k => List.mem_append_right _) h₄
  have husers : ∀ k ∈ (enforced dht.admin_keys b.owner_key).1, ReadBy m'.users k := by
    rw [u₄, u₃]
    intro k hk
    obtain ⟨hmem, hne⟩ := List.mem_filter.mp hk
    rcases List.mem_append.mp hmem with hmem | hmem
    · exact k₂ k (d₁ k (List.mem_filter.mpr ⟨hmem, hne⟩))
    · exact d₂ k (List.mem_filter.mpr ⟨hmem, hne⟩)
  have hgroups : ∀ k ∈ (enforced dht.admin_keys b.owner_key).2, ReadBy m'.groups k := by
    intro k hk
    obtain ⟨hmem, hne⟩ := List.mem_filter.mp hk
    rcases List.mem_append.mp hmem with hmem | hmem
    · exact k₄ k (d₃ k (List.mem_filter.mpr ⟨hmem, hne⟩))
    · exact d₄ k (List.mem_filter.mpr ⟨hmem, hne⟩)
  exact ⟨⟨a₄.framed, a₄.sized, a₄.users.enforced husers, a₄.groups.enforced hgroups⟩, husers,
    hgroups⟩

/-! ## Changes and seals -/

/-- What the owner changes before a seal. -/
inductive Change (K : Type) where
  | set_permissions (key : K) (read write : Bool)
  | set_group_permissions (key : K) (read write : Bool)
  | data (data : Buffer)
  | transform (transformation : Buffer → Buffer)

def Change.run (dht : Dht K S H) : Change K → Op (ACB K H) Failure Unit
  | .set_permissions key read write => ACB.set_permissions dht key read write
  | .set_group_permissions key read write => ACB.set_group_permissions dht key read write
  | .data d => set_data d
  | .transform f => transform_data dht f

/-- A change, and the seal after it. The node may see other groups than before, and run another
version. The secret is the one that is generated for new data. -/
structure Turn (K S H : Type) where
  dht : Dht K S H
  change : Change K
  version : Option Int
  secret : S

def turn (b : ACB K H) (t : Turn K S H) : Option (ACB K H) :=
  match _seal t.dht t.version t.secret (t.change.run t.dht b).2 with
  | (.ok _, b') => some b'
  | (.error _, _) => none

/-- A block that was just made by its owner. -/
structure Created (b : ACB K H) : Prop where
  owner : b.owner_private_key = true
  token : b.owner_token = []
  changed : b.data_changed = true
  users : b.acl_entries = []
  groups : b.acl_group_entries = []
  versions : b.group_version = []

/-! ## Who can decipher -/

/-- A key of the node, and a token of the block that is meant for it. -/
def Tries (dht : Dht K S H) (b : ACB K H) (key : K) (token : Buffer) : Prop :=
  key = dht.keys ∧ b.owner_key = dht.keys ∧ token = b.owner_token ∨
    key = dht.keys ∧ (∃ e ∈ b.acl_entries, e.key = dht.keys ∧ token = e.token) ∨
    ∃ i e, b.acl_group_entries[i]? = some e ∧ member_key dht b.group_version i e = some key ∧
      token = e.token

/-- The node can decipher the data: it is in clear, or one of its keys gives the secret. -/
def Deciphers (dht : Dht K S H) (b : ACB K H) (secret : Buffer) : Prop :=
  b.world_readable = true ∨
    ∃ key token, Tries dht b key token ∧
      dht.ciphers.decrypt b.use_encrypt key token = .ok secret

/-- The secret of the data is in the tokens of the readers, and in no other. -/
structure ForReaders (c : Ciphers K S H) (pub : K → Nat → Option K) (b : ACB K H)
    (secret : Buffer) : Prop where
  owner : c.decrypt b.use_encrypt b.owner_key b.owner_token = .ok secret
  data : ∃ key plain, c.secret_of b.use_encrypt secret = .ok key ∧
    b.data = if b.world_readable then plain else c.encipher key plain
  users : ∀ e ∈ b.acl_entries,
    (e.read = true → c.decrypt b.use_encrypt e.key e.token = .ok secret) ∧
      (OpensTo c e.token secret → e.read = true)
  groups : ∀ (i : Nat) e, b.acl_group_entries[i]? = some e →
    (e.read = true → ∃ v, b.group_version[i]? = some v ∧
        OpensAt c pub b.use_encrypt e.key (e.token, v) secret) ∧
      (OpensTo c e.token secret → e.read = true)
  access : ∀ dht, Sees c pub dht → (Deciphers dht b secret ↔ ReadAccess dht b)

/-- What the network promises at each step: the groups are as they are seen, the admins stay, and a
secret that is generated is in no token. -/
structure Turn.Sound (c : Ciphers K S H) (pub : K → Nat → Option K) (aks : AdminKeys K)
    (b : ACB K H) (t : Turn K S H) : Prop where
  sees : Sees c pub t.dht
  admins : t.dht.admin_keys = aks
  fresh : ∀ token ∈ b.owner_token :: (b.acl_entries ++ b.acl_group_entries).map (·.token),
    ¬ OpensTo c token (c.secret_buffer (token_version t.dht) t.secret)

/-- A right to read is set for a new entry, or as it was, or for an admin. -/
def Fits (key : K) (read : Bool) (entries : List (ACLEntry K)) (admins : List K) : Prop :=
  key ∈ admins ∨
    match find_entry key entries with
    | none => read = true
    | some (_, e) => e.read = read

/-- What a change must meet. Of a block that was never sealed, the groups can be fetched. Of one
that was, a new entry may read, and an entry that stays keeps its right to read; new data finds the
groups that may read. -/
def Change.Meets (dht : Dht K S H) (b : ACB K H) : Change K → Prop
  | .set_permissions key read write =>
    read = true ∨ write = true → b.owner_token = [] ∨ key = b.owner_key ∨
      Fits key read b.acl_entries (enforced dht.admin_keys b.owner_key).1
  | .set_group_permissions key read write =>
    read = true ∨ write = true →
      if b.owner_token = [] then ∃ g, dht.group key = .ok g
      else Fits key read b.acl_group_entries (enforced dht.admin_keys b.owner_key).2
  | .data _ => Reachable dht (enforced dht.admin_keys b.owner_key).2 b
  | .transform _ => Reachable dht (enforced dht.admin_keys b.owner_key).2 b

/-! ## A block whose tokens are right -/

/-- A block of which we are the owner, with the secret of its data for its readers alone. -/
structure Held (c : Ciphers K S H) (pub : K → Nat → Option K) (aks : AdminKeys K) (b : ACB K H)
    (secret : Buffer) : Prop where
  owner : b.owner_private_key = true
  pushed : b.owner_token ≠ []
  sized : b.Sized
  token : c.decrypt b.use_encrypt b.owner_key b.owner_token = .ok secret
  data : ∃ key plain, c.secret_of b.use_encrypt secret = .ok key ∧
    b.data = if b.world_readable then plain else c.encipher key plain
  users : Allotted [] (fun k t => c.decrypt b.use_encrypt k t = .ok secret)
    (fun _ t => ¬ OpensTo c t secret) b.users
  groups : Allotted [] (fun k p => OpensAt c pub b.use_encrypt k p secret)
    (fun _ p => ¬ OpensTo c p.1 secret) b.groups
  admins : (∀ k ∈ (enforced aks b.owner_key).1, ReadBy b.users k) ∧
    ∀ k ∈ (enforced aks b.owner_key).2, ReadBy b.groups k

theorem Held.of_outer (h : Held c pub aks b secret) (ho : b'.outer = b.outer) :
    Held c pub aks b' secret := by
  simp only [outer, core, Prod.mk.injEq] at ho
  obtain ⟨⟨howner, hkey, htoken, hversion, hdata⟩, hu, hg, hv, hw⟩ := ho
  have huse : b'.use_encrypt = b.use_encrypt := by rw [use_encrypt, hversion]; rfl
  constructor
  · rw [howner]; exact h.owner
  · rw [htoken]; exact h.pushed
  · exact ⟨by rw [hv, hg]; exact h.sized.size, by rw [hv]; exact h.sized.versions⟩
  · rw [huse, hkey, htoken]; exact h.token
  · rw [huse, hdata, hw]; exact h.data
  · rw [huse, ACB.users, hu]; exact h.users
  · rw [huse, ACB.groups, hg, hv]; exact h.groups
  · rw [hkey, ACB.users, hu, ACB.groups, hg, hv]; exact h.admins

theorem Held.user (h : Held c pub aks b secret) (he : e ∈ b.acl_entries) :
    (e.read = true → c.decrypt b.use_encrypt e.key e.token = .ok secret) ∧
      (OpensTo c e.token secret → e.read = true) := by
  have hmem : (⟨e.key, e.read, e.token⟩ : Right K Buffer) ∈ b.users :=
    List.mem_map.mpr ⟨e, he, rfl⟩
  refine ⟨fun hr => h.users.good _ hmem (Or.inl hr), fun hopens => ?_⟩
  cases hr : e.read with
  | true => rfl
  | false => exact absurd hopens (h.users.bad _ hmem hr List.not_mem_nil)

theorem Held.group (h : Held c pub aks b secret) (he : b.acl_group_entries[i]? = some e) :
    (e.read = true → ∃ v, b.group_version[i]? = some v ∧
        OpensAt c pub b.use_encrypt e.key (e.token, v) secret) ∧
      (OpensTo c e.token secret → e.read = true) := by
  have hlt : i < b.group_version.length := by
    rw [h.sized.size]
    exact (List.getElem?_eq_some_iff.mp he).1
  have hv := List.getElem?_eq_getElem hlt
  have hmem := mem_groups.mpr ⟨i, e, _, he, hv, rfl⟩
  refine ⟨fun hr => ⟨_, hv, h.groups.good _ hmem (Or.inl hr)⟩, fun hopens => ?_⟩
  cases hr : e.read with
  | true => rfl
  | false => exact absurd hopens (h.groups.bad _ hmem hr List.not_mem_nil)

omit [DecidableEq K] in
theorem member_key_pub (hs : Sees c pub dht) {group_version : List Int} {v : Int}
    (hv : group_version[i]? = some v) (h : member_key dht group_version i e = some key) :
    pub e.key v.toNat = some key := by
  unfold member_key at h
  rw [hv] at h
  cases hg : dht.group e.key with
  | error what =>
    rw [hg] at h
    cases h
  | ok g =>
    simp only [hg] at h
    cases hk : g.group_keys with
    | error what =>
      rw [hk] at h
      cases h
    | ok keys =>
      rw [hk] at h
      exact hs.group_keys e.key g keys hg hk v.toNat key h

theorem Held.access (h : Held c pub aks b secret) (hs : Sees c pub dht) :
    Deciphers dht b secret ↔ ReadAccess dht b := by
  unfold Deciphers ReadAccess
  rw [hs.ciphers]
  constructor
  · rintro (hw | ⟨key, token, htries, hopens⟩)
    · exact Or.inl hw
    · rcases htries with ⟨-, ho, -⟩ | ⟨-, e, he, hk, rfl⟩ | ⟨i, e, he, hm, rfl⟩
      · exact Or.inr (Or.inl ho)
      · exact Or.inr (Or.inr (Or.inl ⟨e, he, hk, (h.user he).2 ⟨_, _, hopens⟩⟩))
      · exact Or.inr (Or.inr (Or.inr ⟨i, e, he, (h.group he).2 ⟨_, _, hopens⟩, by rw [hm]; rfl⟩))
  · rintro (hw | ho | ⟨e, he, hk, hr⟩ | ⟨i, e, he, hr, hm⟩)
    · exact Or.inl hw
    · exact Or.inr ⟨dht.keys, b.owner_token, Or.inl ⟨rfl, ho, rfl⟩, ho ▸ h.token⟩
    · refine Or.inr ⟨dht.keys, e.token, Or.inr (Or.inl ⟨rfl, e, he, hk, rfl⟩), ?_⟩
      rw [← hk]
      exact (h.user he).1 hr
    · obtain ⟨key, hkey⟩ := Option.isSome_iff_exists.mp hm
      obtain ⟨v, hv, -, k, hpub, hopens⟩ := (h.group he).1 hr
      refine Or.inr ⟨key, e.token, Or.inr (Or.inr ⟨i, e, he, hkey, rfl⟩), ?_⟩
      rw [member_key_pub hs hv hkey, Option.some.injEq] at hpub
      rw [hpub]
      exact hopens

theorem Held.for_readers (h : Held c pub aks b secret) : ForReaders c pub b secret :=
  ⟨h.token, h.data, fun _ he => h.user he, fun _ _ he => h.group he, fun _ hs => h.access hs⟩

/-! ## A seal -/

theorem seal_parts {key : S} (h : _seal dht version key b = (.ok (), b')) :
    ∃ next m₁ k₂ m₂ k₃ m₃,
      enforce_admin_keys dht { b with next_seal_version := next } = (.ok (), m₁) ∧
      m₂.outer = m₁.outer ∧
      data_step dht key m₁ k₂ m₂ = (.ok k₃, m₃) ∧
      b'.outer = m₃.outer ∧ b'.data_changed = false := by
  obtain ⟨next, v, m₁, k₂, m₂, k₃, m₃, m₄, -, h₁, h₂, h₃, h₄, h₅⟩ := seal_ok h
  have e₂ : m₂.outer = m₁.outer := rights_step_keeps h₂ fun _ _ _ => rfl
  have hchanged₂ : m₂.data_changed = m₁.data_changed :=
    rights_step_keeps (g := (·.data_changed)) h₂ fun _ _ _ => rfl
  have e₃ : m₃.data_changed = false := by
    unfold data_step at h₃
    split at h₃
    · obtain ⟨users, author, groups, gv, author', -, -, hb, -⟩ := seal_data_ok h₃
      rw [hb]
      rfl
    next hno =>
      cases h₃
      rw [hchanged₂]
      exact Bool.not_eq_true _ ▸ hno
  have e₄ : m₄.outer = m₃.outer := author_step_keeps h₄ fun _ _ _ _ => rfl
  have hchanged₄ : m₄.data_changed = m₃.data_changed :=
    author_step_keeps (g := (·.data_changed)) h₄ fun _ _ _ _ => rfl
  have e₅ := restart_same dht m₄
  rw [h₅] at e₅
  refine ⟨next, m₁, k₂, m₂, k₃, m₃, h₁, e₂, h₃, e₅.2.trans e₄, ?_⟩
  have hchanged : b'.data_changed = m₄.data_changed := congrArg (·.2.2.2.2.2) e₅.1
  rw [hchanged, hchanged₄, e₃]

omit [DecidableEq K] in
theorem Allots.next (h : Allots b admins good bad good' bad' m) (next : Option Int) :
    Allots { b with next_seal_version := next } admins good bad good' bad'
      { m with next_seal_version := next } :=
  ⟨congrArg (fun x : ACB K H => { x with next_seal_version := next }) h.framed,
    ⟨h.sized.size, h.sized.versions⟩, h.users, h.groups⟩

theorem user_token_opens (hs : Sees c pub dht) (h : Held c pub aks b secret) {token : Buffer}
    (ht : b.user_token dht key = .ok token) :
    token = c.encrypt b.use_encrypt key secret := by
  simp only [user_token, if_neg h.pushed, h.owner, Bool.not_true, Bool.false_eq_true, if_false,
    hs.ciphers, h.token, raised, bind, Except.bind, pure, Except.pure, Except.ok.injEq] at ht
  exact ht.symm

theorem group_token_opens (hs : Sees c pub dht) (h : Held c pub aks b secret) {token : Buffer}
    {g : Group K} (ht : b.group_token dht key = .ok token) (hg : dht.group key = .ok g) :
    ∃ k, g.public_keys.getLast? = some k ∧ token = c.encrypt b.use_encrypt k secret := by
  simp only [group_token, if_neg h.pushed, h.owner, Bool.not_true, Bool.false_eq_true, if_false,
    hs.ciphers, h.token, hg] at ht
  unfold Group.current_public_key at ht
  cases hb : back g.public_keys with
  | error e =>
    rw [hb] at ht
    cases ht
  | ok k =>
    rw [hb] at ht
    cases ht
    exact ⟨k, back_ok hb, rfl⟩

omit [DecidableEq K] in
theorem opens_at_last (hc : c.Inverse) (hs : Sees c pub dht) {k : K} {g : Group K} {u : Bool}
    (hg : dht.group key = .ok g) (hk : g.public_keys.getLast? = some k) :
    OpensAt c pub u key (c.encrypt u k secret, g.version - 1) secret := by
  obtain ⟨h0, hk'⟩ := last_version hk
  exact ⟨h0, k, hs.public_keys key g hg _ k hk', hc.decrypt_encrypt _ _ _⟩

/-- A block with new rights, and the tokens of `b` or others that open the same secret. -/
abbrev Shares (c : Ciphers K S H) (pub : K → Nat → Option K) (aks : AdminKeys K) (b : ACB K H)
    (secret : Buffer) : ACB K H → Prop :=
  Allots b (enforced aks b.owner_key) (fun k t => c.decrypt b.use_encrypt k t = .ok secret)
    (fun _ t => ¬ OpensTo c t secret) (fun k p => OpensAt c pub b.use_encrypt k p secret)
    fun _ p => ¬ OpensTo c p.1 secret

/-- A block with new rights, and no token that opens the secret that it will have. -/
abbrev Hides (c : Ciphers K S H) (dht : Dht K S H) (aks : AdminKeys K) (b : ACB K H)
    (secret : Buffer) : ACB K H → Prop :=
  Allots b (enforced aks b.owner_key) (fun _ t => ¬ OpensTo c t secret)
    (fun _ t => ¬ OpensTo c t secret) (fun k p => ¬ OpensTo c p.1 secret ∧ ∃ g, dht.group k = .ok g)
    fun _ p => ¬ OpensTo c p.1 secret

theorem seal_same_secret {key : S} (hc : c.Inverse) (hs : Sees c pub dht)
    (h : Held c pub aks b secret) (haks : dht.admin_keys = aks) (hd : b.data_changed = false)
    (hm : Shares c pub aks b secret m) (hseal : _seal dht version key m = (.ok (), b')) :
    Held c pub aks b' secret ∧ b'.data_changed = false := by
  obtain ⟨next, m₁, k₂, m₂, k₃, m₃, h₁, e₂, h₃, e₃, hchanged⟩ := seal_parts hseal
  have huser : ∀ k t, b.user_token dht k = .ok t →
      c.decrypt b.use_encrypt k t = .ok secret := by
    intro k t ht
    rw [user_token_opens hs h ht]
    exact hc.decrypt_encrypt _ _ _
  have hgroup : ∀ k t g, b.group_token dht k = .ok t → dht.group k = .ok g →
      OpensAt c pub b.use_encrypt k (t, g.version - 1) secret := by
    intro k t g ht hg
    obtain ⟨key, hkey, rfl⟩ := group_token_opens hs h ht hg
    exact opens_at_last hc hs hg hkey
  subst haks
  obtain ⟨hm₁, hadmins⟩ := enforce_allots (hm.next next) hs.keyed huser hgroup h₁
  have hcore : m₁.core = b.core := (congrArg core hm₁.framed : m₁.frame.core = _)
  have hd₁ : m₁.data_changed = false := (congrArg (·.data_changed) hm₁.framed).trans hd
  have hworld : m₁.world_readable = b.world_readable := congrArg (·.world_readable) hm₁.framed
  rw [data_step, hd₁, if_neg (by decide)] at h₃
  cases h₃
  refine ⟨Held.of_outer (b := m₁) ?_ (e₃.trans e₂), hchanged⟩
  simp only [core, Prod.mk.injEq] at hcore
  obtain ⟨howner, hkey, htoken, hversion, hdata⟩ := hcore
  have huse : m₁.use_encrypt = b.use_encrypt := by rw [use_encrypt, hversion]; rfl
  constructor
  · rw [howner]; exact h.owner
  · rw [htoken]; exact h.pushed
  · exact hm₁.sized
  · rw [huse, hkey, htoken]; exact h.token
  · rw [huse, hdata, hworld]; exact h.data
  · rw [huse]; exact hm₁.users
  · rw [huse]; exact hm₁.groups
  · rw [hkey]; exact hadmins

omit [DecidableEq K] in
theorem seal_groups_unread {use_encrypt : Bool} {users idx : Nat} {gv gv' : List Int}
    {author author' : Author K}
    (h : seal_groups dht use_encrypt secret users idx es gv author = .ok (es', gv', author'))
    {e' : ACLEntry K} (he : es[i]? = some e) (he' : es'[i]? = some e') (hr : e.read = false) :
    e' = e := by
  induction es generalizing idx gv author es' i with
  | nil => cases he
  | cons a es ih =>
    unfold seal_groups at h
    obtain ⟨⟨a₁, gv₁, author₁⟩, h₁, h⟩ := except_bind_ok h
    obtain ⟨⟨es₂, gv₂, author₂⟩, h₂, h⟩ := except_bind_ok h
    cases h
    cases i with
    | succ i => exact ih h₂ he he'
    | zero =>
      cases he
      cases he'
      unfold seal_group at h₁
      cases hg : dht.group e.key with
      | error what =>
        rw [hg] at h₁
        cases h₁
        rfl
      | ok g =>
        rw [hg] at h₁
        obtain ⟨p, hp, h₁⟩ := except_bind_ok h₁
        obtain ⟨author₂, -, h₁⟩ := except_bind_ok h₁
        unfold refresh_group at hp
        rw [hr] at hp
        cases hp
        cases h₁
        rfl

omit [DecidableEq K] in
theorem users_keys (b : ACB K H) : b.users.map Right.key = b.acl_entries.map (·.key) := by
  rw [users, List.map_map]
  rfl

omit [DecidableEq K] in
theorem groups_keys (hs : b.Sized) :
    b.groups.map Right.key = b.acl_group_entries.map (·.key) := by
  apply List.ext_getElem?
  intro i
  rw [groups, List.getElem?_map, List.getElem?_map, List.getElem?_zipWith]
  cases he : b.acl_group_entries[i]? with
  | none => rfl
  | some e =>
    have hlt : i < b.group_version.length := by
      rw [hs.size]
      exact (List.getElem?_eq_some_iff.mp he).1
    rw [List.getElem?_eq_getElem hlt]
    rfl

omit [DecidableEq K] in
theorem keys_of_permissions (h : permissions es' = permissions es) :
    es'.map (·.key) = es.map (·.key) := by
  have hkeys := congrArg (List.map Prod.fst) h
  simpa [permissions, List.map_map, Function.comp_def] using hkeys

omit [DecidableEq K] in
theorem granted_users :
    ReadBy b.users key ↔ ∀ e ∈ b.acl_entries, e.key = key → e.read = true := by
  simp only [ReadBy, users, List.forall_mem_map]

omit [DecidableEq K] in
theorem granted_groups (hs : b.Sized) :
    ReadBy b.groups key ↔ ∀ e ∈ b.acl_group_entries, e.key = key → e.read = true := by
  constructor
  · intro h e he
    obtain ⟨i, hi⟩ := List.mem_iff_getElem?.mp he
    have hlt : i < b.group_version.length := by
      rw [hs.size]
      exact (List.getElem?_eq_some_iff.mp hi).1
    exact h _ (mem_groups.mpr ⟨i, e, _, hi, List.getElem?_eq_getElem hlt, rfl⟩)
  · intro h a ha
    obtain ⟨i, e, v, he, -, rfl⟩ := mem_groups.mp ha
    exact h e (List.mem_of_getElem? he)

omit [DecidableEq K] in
theorem granted_of_permissions (h : permissions es' = permissions es)
    (hg : ∀ e ∈ es, e.key = key → e.read = true) :
    ∀ e ∈ es', e.key = key → e.read = true := by
  intro e he hk
  obtain ⟨i, hi⟩ := List.mem_iff_getElem?.mp he
  obtain ⟨a, ha, hkey, hread, -⟩ := permissions_getElem h.symm hi
  rw [← hread]
  exact hg a (List.mem_of_getElem? ha) (hkey.trans hk)

theorem seal_users_unread {u : Bool} {us : List (ACLEntry K)} {author author' : Author K}
    (h : seal_users dht u secret entries author = (us, author')) (he : e ∈ us)
    (hr : e.read = false) : e ∈ entries := by
  simp only [seal_users, Prod.mk.injEq] at h
  rw [← h.1] at he
  obtain ⟨a, ha, rfl⟩ := List.mem_map.mp he
  cases hread : a.read with
  | true =>
    simp only [hread, if_true] at hr
    cases hr
  | false =>
    rw [if_neg (by simp)]
    exact ha

theorem held_of_sealed {key : S} {k k' : Option K} {plain : Buffer} (hc : c.Inverse)
    (hs : Sees c pub dht) (hsecret : secret = c.secret_buffer (token_version dht) key)
    (hsized : b.Sized) (hu : Allotted [] (fun _ t => ¬ OpensTo c t secret)
      (fun _ t => ¬ OpensTo c t secret) b.users)
    (hg : Allotted [] (fun k p => ¬ OpensTo c p.1 secret ∧ ∃ g, dht.group k = .ok g)
      (fun _ p => ¬ OpensTo c p.1 secret) b.groups)
    (hadmins : (∀ k ∈ (enforced aks b.owner_key).1, ReadBy b.users k) ∧
      ∀ k ∈ (enforced aks b.owner_key).2, ReadBy b.groups k)
    (hpub : Published dht b' plain) (h : seal_data dht key k b = (.ok k', b')) :
    Held c pub aks b' secret := by
  obtain ⟨us, author, gs, gv, author', hus, hgs, rfl, -⟩ := seal_data_ok h
  have hrights := (seal_groups_ok hgs).rights
  obtain ⟨secret', key', hsealed, htokens⟩ := hpub.read
  have htoken : c.decrypt (b.with_data dht key us gs gv author'.editor).use_encrypt b.owner_key
      (b.with_data dht key us gs gv author'.editor).owner_token = .ok secret := by
    rw [hsecret, ← hs.ciphers]
    exact (hs.ciphers ▸ hc : dht.ciphers.Inverse).decrypt_encrypt _ _ _
  obtain rfl : secret' = secret := by
    have hboth := hsealed.token
    rw [hs.ciphers] at hboth
    exact Except.ok.inj (hboth.symm.trans htoken)
  refine ⟨hpub.owner, hpub.pushed, hpub.sized, htoken, ⟨key, b.data_plain, ?_, ?_⟩, ⟨?_, ?_, ?_⟩,
    ⟨?_, ?_, ?_⟩, ⟨?_, ?_⟩⟩
  · rw [hsecret]
    exact hc.secret_of_buffer _ _
  · rw [← hs.ciphers]
    rfl
  · rw [users_keys]
    have hkeys := keys_of_permissions (seal_users_rights hus)
    change (us.map (·.key)).Nodup
    rw [hkeys, ← users_keys]
    exact hu.nodup
  · intro e he hmay
    obtain ⟨a, ha, rfl⟩ := List.mem_map.mp he
    rw [← hs.ciphers]
    exact htokens.users a ha hmay
  · intro e he hr _
    obtain ⟨a, ha, rfl⟩ := List.mem_map.mp he
    have hmem : (⟨a.key, a.read, a.token⟩ : Right K Buffer) ∈ b.users :=
      List.mem_map.mpr ⟨a, seal_users_unread hus ha hr, rfl⟩
    exact hu.bad _ hmem hr List.not_mem_nil
  · rw [groups_keys hpub.sized]
    change (gs.map (·.key)).Nodup
    rw [keys_of_permissions hrights, ← groups_keys hsized]
    exact hg.nodup
  · intro e he hmay
    obtain ⟨i, a, v, ha, hv, rfl⟩ := mem_groups.mp he
    obtain ⟨v', hv', g, pk, hgroup, h0, hpk, hopens⟩ := htokens.groups i a ha hmay
    rw [hv, Option.some.injEq] at hv'
    subst hv'
    rw [hs.ciphers] at hopens
    exact ⟨h0, pk, hs.public_keys a.key g hgroup _ pk hpk, hopens⟩
  · intro e he hr _
    obtain ⟨i, a, v, ha, hv, rfl⟩ := mem_groups.mp he
    obtain ⟨a', ha', -, hread, -⟩ := permissions_getElem hrights.symm ha
    have hr' : a'.read = false := hread.trans hr
    obtain rfl := seal_groups_unread hgs ha' ha hr'
    have hlt : i < b.group_version.length := by
      rw [hsized.size]
      exact (List.getElem?_eq_some_iff.mp ha').1
    have hmem := mem_groups.mpr ⟨i, a, _, ha', List.getElem?_eq_getElem hlt, rfl⟩
    exact fun hopens => hg.bad _ hmem hr List.not_mem_nil hopens
  · intro k hk
    rw [granted_users]
    exact granted_of_permissions (seal_users_rights hus) (granted_users.mp (hadmins.1 k hk))
  · intro k hk
    rw [granted_groups hpub.sized]
    exact granted_of_permissions hrights ((granted_groups hsized).mp (hadmins.2 k hk))

theorem seal_new_secret {key : S} (hc : c.Inverse) (hs : Sees c pub dht)
    (ho : b.owner_private_key = true) (hd : b.data_changed = true)
    (hsecret : secret = c.secret_buffer (token_version dht) key)
    (hu : ∀ k t, b.user_token dht k = .ok t → ¬ OpensTo c t secret)
    (hg : ∀ k t, b.group_token dht k = .ok t → ¬ OpensTo c t secret) (haks : dht.admin_keys = aks)
    (hm : Hides c dht aks b secret m) (hseal : _seal dht version key m = (.ok (), b')) :
    Held c pub aks b' secret ∧ b'.data_changed = false := by
  obtain ⟨next, m₁, k₂, m₂, k₃, m₃, h₁, e₂, h₃, e₃, hchanged⟩ := seal_parts hseal
  subst haks
  obtain ⟨hm₁, hadmins⟩ := enforce_allots (hm.next next) hs.keyed hu
    (fun k t g ht hg' => ⟨hg k t ht, g, hg'⟩) h₁
  have hd₁ : m₁.data_changed = true := (congrArg (·.data_changed) hm₁.framed).trans hd
  have ho₁ : m₁.owner_private_key = true := (congrArg (·.owner_private_key) hm₁.framed).trans ho
  rw [data_step, hd₁, if_pos rfl] at h₃
  simp only [outer, core, Prod.mk.injEq] at e₂
  obtain ⟨⟨howner, hkey, -, -, -⟩, hentries, hgentries, hversions, hworld⟩ := e₂
  have hsized : m₂.Sized := by
    refine ⟨?_, ?_⟩
    · rw [hversions, hgentries]; exact hm₁.sized.size
    · rw [hversions]; exact hm₁.sized.versions
  have hreach : Reachable dht [] m₂ := by
    intro e he hmay
    rw [hgentries] at he
    obtain ⟨i, hi⟩ := List.mem_iff_getElem?.mp he
    have hlt : i < m₁.group_version.length := by
      rw [hm₁.sized.size]
      exact (List.getElem?_eq_some_iff.mp hi).1
    have hmem := mem_groups.mpr ⟨i, e, _, hi, List.getElem?_eq_getElem hlt, rfl⟩
    exact (hm₁.groups.good _ hmem hmay).2
  have hpub := with_data_published (hs.ciphers ▸ hc) (howner.trans ho₁) hsized hreach h₃
  refine ⟨Held.of_outer (b := m₃) ?_ e₃, hchanged⟩
  have hkey₁ : m₁.owner_key = b.owner_key := congrArg (·.owner_key) hm₁.framed
  refine held_of_sealed hc hs hsecret hsized ?_ ?_ ?_ hpub h₃
  · rw [ACB.users, hentries]
    exact hm₁.users
  · rw [ACB.groups, hgentries, hversions]
    exact hm₁.groups
  · rw [hkey, hkey₁, ACB.users, hentries, ACB.groups, hgentries, hversions]
    exact hadmins

/-! ## One turn -/

theorem set_permissions_error {e : Failure}
    (h : set_permissions dht key read write b = (.error e, b')) : b' = b := by
  unfold set_permissions at h
  split at h
  · cases h
    rfl
  · split at h
    · split at h
      · cases h
      · split at h
        · cases h
          rfl
        · cases h
    · split at h <;> cases h

theorem set_group_permissions_error {e : Failure}
    (hg : b.owner_token ≠ [] ∨ ∃ g, dht.group key = .ok g)
    (h : set_group_permissions dht key read write b = (.error e, b')) : b' = b := by
  unfold set_group_permissions at h
  split at h
  · split at h
    · cases h
    · split at h
      · cases h
        rfl
      next token htoken =>
        have hgroup : ∃ g, dht.group key = .ok g := by
          rcases hg with hp | hg
          · cases hk : dht.group key with
            | ok g => exact ⟨g, rfl⟩
            | error what =>
              simp only [group_token, if_neg hp, hk] at htoken
              split at htoken
              · cases htoken
              · split at htoken <;> cases htoken
          · exact hg
        obtain ⟨g, hgroup⟩ := hgroup
        simp only [hgroup] at h
        cases h
  · split at h
    · split at h
      · cases h
      · cases h
        rfl
    · cases h

theorem transform_data_parts {f : Buffer → Buffer} (h : transform_data dht f b = (r, b')) :
    b' = b ∨ b'.outer = b.outer ∧ b'.data_changed = true := by
  rw [transform_data_eq] at h
  unfold OKB.decrypted at h
  split at h
  next okb hok =>
    cases h
    refine Or.inr ⟨?_, rfl⟩
    split at hok
    · cases hok
      rfl
    · cases hp : b._decrypt_data dht with
      | error e =>
        rw [hp] at hok
        cases hok
      | ok plain =>
        rw [hp] at hok
        cases hok
        rfl
  · cases h
    exact Or.inl rfl

theorem Fits.new {admins : List K} (h : Fits key read entries admins)
    (hk : ∀ e ∈ entries, e.key ≠ key) :
    read = true ∨ key ∈ admins := by
  rcases h with h | h
  · exact Or.inr h
  · rw [find_entry_none.mpr hk] at h
    exact Or.inl h

theorem Fits.same {admins : List K} (h : Fits key read entries admins)
    (hnodup : (entries.map (·.key)).Nodup) (he : e ∈ entries) (hk : e.key = key) :
    e.read = read ∨ key ∈ admins := by
  rcases h with h | h
  · exact Or.inr h
  · left
    cases hf : find_entry key entries with
    | none => exact absurd hk (find_entry_none.mp hf e he)
    | some p =>
      obtain ⟨i, a⟩ := p
      rw [hf] at h
      obtain ⟨hi, ha⟩ := find_entry_some hf
      have heq := List.inj_on_of_nodup_map hnodup he (List.mem_of_getElem? hi) (hk.trans ha.symm)
      rw [heq]
      exact h

theorem Held.allots (h : Held c pub aks b secret) :
    Shares c pub aks b secret b :=
  ⟨rfl, h.sized, h.users.listed h.admins.1, h.groups.listed h.admins.2⟩

theorem Held.set_permissions (hc : c.Inverse) (hs : Sees c pub dht) (h : Held c pub aks b secret)
    (haks : dht.admin_keys = aks) (hm : (Change.set_permissions key read write).Meets dht b)
    (hrun : ACB.set_permissions dht key read write b = (r, m)) :
    Shares c pub aks b secret m := by
  subst haks
  cases r with
  | error e =>
    rw [set_permissions_error hrun]
    exact h.allots
  | ok _ =>
    have hfits : read = true ∨ write = true →
        Fits key read b.acl_entries (enforced dht.admin_keys b.owner_key).1 := by
      intro hrw
      rcases hm hrw with hm | hm | hm
      · exact absurd hm h.pushed
      · exfalso
        unfold ACB.set_permissions at hrun
        rw [if_pos hm] at hrun
        cases hrun
      · exact hm
    refine h.allots.set_permissions hrun ?_ ?_
    · intro hk hrw t ht
      rw [user_token_opens hs h ht]
      have hread := (hfits hrw).new fun e he => hk _ (List.mem_map.mpr ⟨e, he, rfl⟩)
      refine ⟨fun _ => hc.decrypt_encrypt _ _ _, fun hr hno => ?_⟩
      rcases hread with hread | hadmin
      · rw [hr] at hread
        cases hread
      · exact absurd hadmin hno
    · intro hrw a ha hk
      obtain ⟨e, he, rfl⟩ := List.mem_map.mp ha
      exact (hfits hrw).same (users_keys b ▸ h.users.nodup) he hk

theorem Held.set_group_permissions (hc : c.Inverse) (hs : Sees c pub dht)
    (h : Held c pub aks b secret) (haks : dht.admin_keys = aks)
    (hm : (Change.set_group_permissions key read write).Meets dht b)
    (hrun : ACB.set_group_permissions dht key read write b = (r, m)) :
    Shares c pub aks b secret m := by
  subst haks
  cases r with
  | error e =>
    rw [set_group_permissions_error (Or.inl h.pushed) hrun]
    exact h.allots
  | ok _ =>
    have hfits : read = true ∨ write = true →
        Fits key read b.acl_group_entries (enforced dht.admin_keys b.owner_key).2 := by
      intro hrw
      have hm' := hm hrw
      rwa [if_neg h.pushed] at hm'
    refine h.allots.set_group_permissions (hs.keyed key) hrun ?_ ?_
    · intro hk hrw t g ht hg
      obtain ⟨k, hlast, rfl⟩ := group_token_opens hs h ht hg
      have hkeys : ∀ e ∈ b.acl_group_entries, e.key ≠ key := by
        intro e he heq
        have hmem : key ∈ b.groups.map Right.key := by
          rw [groups_keys h.sized]
          exact List.mem_map.mpr ⟨e, he, heq⟩
        obtain ⟨a, ha, hka⟩ := List.mem_map.mp hmem
        exact hk a ha hka
      refine ⟨fun _ => opens_at_last hc hs hg hlast, fun hr hno => ?_⟩
      rcases (hfits hrw).new hkeys with hread | hadmin
      · rw [hr] at hread
        cases hread
      · exact absurd hadmin hno
    · intro hrw a ha hk
      obtain ⟨i, e, v, he, -, rfl⟩ := mem_groups.mp ha
      exact (hfits hrw).same (groups_keys h.sized ▸ h.groups.nodup) (List.mem_of_getElem? he) hk

theorem Held.seal_data {key : S} {new : Buffer} (hc : c.Inverse) (hx : c.Exact)
    (hs : Sees c pub dht) (h : Held c pub aks b secret) (haks : dht.admin_keys = aks)
    (hd : b.data_changed = true) (hnew : new = c.secret_buffer (token_version dht) key)
    (hfresh : ∀ token ∈ b.owner_token :: (b.acl_entries ++ b.acl_group_entries).map (·.token),
      ¬ OpensTo c token new) (hreach : Reachable dht (enforced aks b.owner_key).2 b)
    (hseal : _seal dht version key b = (.ok (), b')) :
    Held c pub aks b' new ∧ b'.data_changed = false := by
  have hne : secret ≠ new := by
    intro heq
    exact hfresh _ List.mem_cons_self ⟨_, _, heq ▸ h.token⟩
  -- what is made of the former secret does not open to the new one
  have hmade : ∀ u k, ¬ OpensTo c (c.encrypt u k secret) new := by
    rintro u k ⟨u', k', hopens⟩
    exact hne (hx.only _ _ _ _ _ _ hopens).symm
  have huser : ∀ e ∈ b.acl_entries, ¬ OpensTo c e.token new := fun e he =>
    hfresh _ (List.mem_cons_of_mem _ (List.mem_map_of_mem (List.mem_append_left _ he)))
  have hgroup : ∀ e ∈ b.acl_group_entries, ¬ OpensTo c e.token new := fun e he =>
    hfresh _ (List.mem_cons_of_mem _ (List.mem_map_of_mem (List.mem_append_right _ he)))
  refine seal_new_secret hc hs h.owner hd hnew ?_ ?_ haks ⟨rfl, h.sized, ⟨h.users.nodup, ?_, ?_⟩,
    ⟨h.groups.nodup, ?_, ?_⟩⟩ hseal
  · intro k t ht
    rw [user_token_opens hs h ht]
    exact hmade _ _
  · intro k t ht
    cases hg : dht.group k with
    | ok g =>
      obtain ⟨pk, -, rfl⟩ := group_token_opens hs h ht hg
      exact hmade _ _
    | error what =>
      simp only [group_token, if_neg h.pushed, hg] at ht
      split at ht
      · cases ht
      · split at ht <;> cases ht
  · intro a ha _
    obtain ⟨e, he, rfl⟩ := List.mem_map.mp ha
    exact huser e he
  · intro a ha _ _
    obtain ⟨e, he, rfl⟩ := List.mem_map.mp ha
    exact huser e he
  · intro a ha hmay
    obtain ⟨i, e, v, he, -, rfl⟩ := mem_groups.mp ha
    have hmem := List.mem_of_getElem? he
    exact ⟨hgroup e hmem, hreach e hmem hmay⟩
  · intro a ha _ _
    obtain ⟨i, e, v, he, -, rfl⟩ := mem_groups.mp ha
    exact hgroup e (List.mem_of_getElem? he)

omit [DecidableEq K] in
theorem Created.tokens (hx : c.Exact) (h : Created b) (dht : Dht K S H) (secret : Buffer) :
    (∀ k t, b.user_token dht k = .ok t → ¬ OpensTo c t secret) ∧
      ∀ k t, b.group_token dht k = .ok t → ¬ OpensTo c t secret := by
  have hempty : ¬ OpensTo c [] secret := fun ⟨u, k, hopens⟩ => hx.empty u k secret hopens
  refine ⟨fun k t ht => ?_, fun k t ht => ?_⟩
  · rw [user_token, if_pos h.token] at ht
    cases ht
    exact hempty
  · rw [group_token, if_pos h.token] at ht
    cases ht
    exact hempty

omit [DecidableEq K] in
theorem Created.allots (h : Created b) : Allots b admins good bad good' bad' b := by
  have husers : b.users = [] := by rw [ACB.users, h.users, List.map_nil]
  have hgroups : b.groups = [] := by rw [ACB.groups, h.groups, List.zipWith_nil_left]
  refine ⟨rfl, ⟨by rw [h.versions, h.groups]; rfl, by rw [h.versions]; nofun⟩, ?_, ?_⟩
  · rw [husers]
    exact ⟨List.nodup_nil, nofun, nofun⟩
  · rw [hgroups]
    exact ⟨List.nodup_nil, nofun, nofun⟩

theorem Created.change {change : Change K} (hx : c.Exact) (hs : Sees c pub dht) (h : Created b)
    (hm : change.Meets dht b) (secret : Buffer) :
    ∃ b₁, Created b₁ ∧ Hides c dht aks b₁ secret (change.run dht b).2 := by
  obtain ⟨hu, hg⟩ := h.tokens hx dht secret
  cases change with
  | set_permissions key read write =>
    refine ⟨b, h, ?_⟩
    cases hrun : ACB.set_permissions dht key read write b with
    | mk r m =>
      simp only [Change.run, hrun]
      cases r with
      | error e =>
        rw [set_permissions_error hrun]
        exact h.allots
      | ok _ =>
        refine h.allots.set_permissions hrun ?_ ?_
        · exact fun _ _ t ht => ⟨fun _ => hu key t ht, fun _ _ => hu key t ht⟩
        · intro _ e he
          rw [ACB.users, h.users] at he
          cases he
  | set_group_permissions key read write =>
    refine ⟨b, h, ?_⟩
    cases hrun : ACB.set_group_permissions dht key read write b with
    | mk r m =>
      simp only [Change.run, hrun]
      cases r with
      | error e =>
        by_cases hrw : read = true ∨ write = true
        · have hgroup := hm hrw
          rw [if_pos h.token] at hgroup
          rw [set_group_permissions_error (Or.inr hgroup) hrun]
          exact h.allots
        · unfold ACB.set_group_permissions at hrun
          rw [h.groups] at hrun
          simp only [find_entry] at hrun
          rw [if_pos (by simp_all)] at hrun
          cases hrun
      | ok _ =>
        refine h.allots.set_group_permissions (hs.keyed key) hrun ?_ ?_
        · exact fun _ _ t g ht hgroup => ⟨fun _ => ⟨hg key t ht, g, hgroup⟩, fun _ _ => hg key t ht⟩
        · intro _ e he
          rw [ACB.groups, h.groups] at he
          cases he
  | data d =>
    have hb : Created (set_data d b).2 :=
      { h with changed := rfl }
    exact ⟨_, hb, hb.allots⟩
  | transform f =>
    cases hrun : transform_data dht f b with
    | mk r m =>
      simp only [Change.run, hrun]
      have hb : Created m := by
        rcases transform_data_parts hrun with rfl | ⟨houter, hd⟩
        · exact h
        · simp only [outer, core, Prod.mk.injEq] at houter
          obtain ⟨⟨howner, -, htoken, -, -⟩, hentries, hgentries, hversions, -⟩ := houter
          exact ⟨howner.trans h.owner, htoken.trans h.token, hd, hentries.trans h.users,
            hgentries.trans h.groups, hversions.trans h.versions⟩
      exact ⟨m, hb, hb.allots⟩

variable {t : Turn K S H}

theorem turn_some (h : turn b t = some b') :
    _seal t.dht t.version t.secret (t.change.run t.dht b).2 = (.ok (), b') := by
  unfold turn at h
  split at h
  next hseal =>
    cases h
    exact hseal
  · cases h

theorem Created.turn (hc : c.Inverse) (hx : c.Exact) (h : Created b) (ht : t.Sound c pub aks b)
    (hm : t.change.Meets t.dht b) (hstep : ACB.turn b t = some b') :
    ∃ secret, Held c pub aks b' secret ∧ b'.data_changed = false := by
  obtain ⟨b₁, h₁, hallots⟩ := h.change hx ht.sees hm
    (c.secret_buffer (token_version t.dht) t.secret)
  obtain ⟨hu, hg⟩ := h₁.tokens hx t.dht (c.secret_buffer (token_version t.dht) t.secret)
  exact ⟨_, seal_new_secret hc ht.sees h₁.owner h₁.changed rfl hu hg ht.admins hallots
    (turn_some hstep)⟩

theorem Held.turn (hc : c.Inverse) (hx : c.Exact) (h : Held c pub aks b secret)
    (hd : b.data_changed = false) (ht : t.Sound c pub aks b) (hm : t.change.Meets t.dht b)
    (hstep : ACB.turn b t = some b') :
    ∃ secret, Held c pub aks b' secret ∧ b'.data_changed = false := by
  have hseal := turn_some hstep
  obtain ⟨dht, change, version, key⟩ := t
  obtain ⟨hs, haks, hfresh⟩ := ht
  cases change with
  | set_permissions key read write =>
    cases hrun : ACB.set_permissions dht key read write b with
    | mk r m =>
      simp only [Change.run, hrun] at hseal
      exact ⟨secret, seal_same_secret hc hs h haks hd (h.set_permissions hc hs haks hm hrun) hseal⟩
  | set_group_permissions key read write =>
    cases hrun : ACB.set_group_permissions dht key read write b with
    | mk r m =>
      simp only [Change.run, hrun] at hseal
      exact ⟨secret,
        seal_same_secret hc hs h haks hd (h.set_group_permissions hc hs haks hm hrun) hseal⟩
  | data d =>
    have h₁ : Held c pub aks (set_data d b).2 secret := h.of_outer rfl
    subst haks
    exact ⟨_, h₁.seal_data hc hx hs rfl rfl rfl hfresh hm hseal⟩
  | transform f =>
    cases hrun : transform_data dht f b with
    | mk r m =>
      simp only [Change.run, hrun] at hseal
      subst haks
      rcases transform_data_parts hrun with rfl | ⟨houter, hchanged⟩
      · exact ⟨secret, seal_same_secret hc hs h rfl hd h.allots hseal⟩
      · have h₁ : Held c pub dht.admin_keys m secret := h.of_outer houter
        simp only [outer, core, Prod.mk.injEq] at houter
        obtain ⟨⟨-, hkey, htoken, -, -⟩, hentries, hgentries, -, -⟩ := houter
        rw [← htoken, ← hentries, ← hgentries] at hfresh
        have hreach : Reachable dht (enforced dht.admin_keys m.owner_key).2 m := by
          unfold Reachable
          rw [hkey, hgentries]
          exact hm
        exact ⟨_, h₁.seal_data hc hx hs rfl hchanged rfl hfresh hreach hseal⟩

/-! ## The law -/

/-- After each seal, the tokens of who may read hold the secret of the data, and the others do not,
as long as each change that is made meets its condition. -/
theorem tokens_go_to_readers (hc : c.Inverse) (hx : c.Exact) (hb : Created b)
    {turns : List (Turn K S H)}
    (hrun : Run turn (fun b t => t.Sound c pub aks b ∧ t.change.Meets t.dht b) b turns b')
    (hne : turns ≠ []) : ∃ secret, ForReaders c pub b' secret := by
  have hinv : turns = [] ∧ Created b' ∨
      ∃ secret, Held c pub aks b' secret ∧ b'.data_changed = false := by
    refine hrun.history (I := fun turns b => turns = [] ∧ Created b ∨
      ∃ secret, Held c pub aks b secret ∧ b.data_changed = false) (Or.inl ⟨rfl, hb⟩) ?_
    rintro turns b t b' (⟨-, h⟩ | ⟨secret, h, hd⟩) ⟨ht, hm⟩ hstep
    · exact Or.inr (h.turn hc hx ht hm hstep)
    · exact Or.inr (h.turn hc hx hd ht hm hstep)
  rcases hinv with ⟨h, -⟩ | ⟨secret, h, -⟩
  · exact absurd h hne
  · exact ⟨secret, h.for_readers⟩

end ACB

end

theorem plain_opens_iff {key : UInt8} {token secret : Buffer} :
    OpensTo plain_ciphers (key :: token) secret ↔ token = secret := by
  unfold OpensTo
  constructor
  · rintro ⟨u, k, h⟩
    simp only [plain_ciphers] at h
    split_ifs at h
    exact Except.ok.inj h
  · rintro rfl
    exact ⟨false, key, by simp [plain_ciphers]⟩

theorem plain_opens_nil (secret : Buffer) : ¬ OpensTo plain_ciphers [] secret := by
  rintro ⟨u, k, h⟩
  cases h

theorem plain_ciphers_exact : plain_ciphers.Exact := by
  constructor
  · intro u u' k k' m m' h
    exact (plain_opens_iff.mp ⟨u', k', h⟩).symm
  · intro u k m h
    exact plain_opens_nil m ⟨u, k, h⟩

/-- The group 9 of `member` has one key. -/
def one_group (key : UInt8) (version : Nat) : Option UInt8 :=
  if key = 9 ∧ version = 0 then some 20 else none

theorem member_sees (key : UInt8) : Sees plain_ciphers one_group (member key) := by
  have hgroup : ∀ k g, (member key).group k = .ok g → k = 9 ∧ g = ⟨[20], .ok [20]⟩ := by
    intro k g hg
    simp only [member] at hg
    split_ifs at hg with h9
    exact ⟨h9, (Except.ok.inj hg).symm⟩
  have hkeys : ∀ (v : Nat) k, ([20] : List UInt8)[v]? = some k → one_group 9 v = some k := by
    intro v k hv
    cases v with
    | zero => exact hv
    | succ v => cases hv
  constructor
  · rfl
  · intro k g hg
    obtain ⟨-, rfl⟩ := hgroup k g hg
    exact List.cons_ne_nil _ _
  · intro k g hg
    obtain ⟨rfl, rfl⟩ := hgroup k g hg
    exact hkeys
  · intro k g keys hg hk
    obtain ⟨rfl, rfl⟩ := hgroup k g hg
    cases hk
    exact hkeys

/-- A block that the user 1 just made. -/
def created_block : ACB UInt8 UInt8 :=
  { edited [] with acl_group_entries := [], group_version := [], owner_token := [],
                   acl_changed := true, owner_private_key := true }

theorem created_block_created : ACB.Created created_block := ⟨rfl, rfl, rfl, rfl, rfl, rfl⟩

/-- The user 7 may read, from the first seal on. -/
def read_by_seven : ACB UInt8 UInt8 :=
  (ACB._seal (member 1) none 5 (ACB.set_permissions (member 1) 7 true false created_block).2).2

theorem read_by_seven_run :
    Run ACB.turn (fun b t => ACB.Turn.Sound plain_ciphers one_group ⟨[], [], [], []⟩ b t ∧
        t.change.Meets t.dht b) created_block
      [⟨member 1, .set_permissions 7 true false, none, 5⟩] read_by_seven := by
  refine Run.cons ⟨⟨member_sees 1, rfl, ?_⟩, fun _ => Or.inl rfl⟩ rfl Run.nil
  intro token htoken
  rw [List.mem_singleton.mp htoken]
  exact plain_opens_nil _

theorem read_by_seven_sound (change : ACB.Change UInt8) :
    ACB.Turn.Sound plain_ciphers one_group ⟨[], [], [], []⟩ read_by_seven
      ⟨member 1, change, none, 6⟩ := by
  have hne : ([5] : Buffer) ≠ [6] := by decide
  refine ⟨member_sees 1, rfl, ?_⟩
  intro token htoken
  rcases List.mem_cons.mp htoken with rfl | htoken
  · exact fun h => hne (plain_opens_iff.mp h)
  · rw [List.mem_singleton.mp htoken]
    exact fun h => hne (plain_opens_iff.mp h)

/-- New data is for the same reader. -/
theorem tokens_go_to_one_reader :
    ∃ b secret, ACB.turn read_by_seven ⟨member 1, .data [102], none, 6⟩ = some b ∧
      ACB.ForReaders plain_ciphers one_group b secret := by
  have hreach : ACB.Reachable (member 1) [] read_by_seven := nofun
  have hrun := read_by_seven_run.snoc ⟨read_by_seven_sound (.data [102]), hreach⟩ rfl
  obtain ⟨secret, h⟩ := ACB.tokens_go_to_readers plain_ciphers_inverse plain_ciphers_exact
    created_block_created hrun (List.cons_ne_nil _ _)
  exact ⟨_, secret, rfl, h⟩

/-- The right to read is taken from the user 7, who keeps a token of the secret. -/
theorem a_former_reader_keeps_its_token :
    ¬ ∀ (c : Ciphers UInt8 UInt8 UInt8) (pub : UInt8 → Nat → Option UInt8) (aks : AdminKeys UInt8)
      (b b' : ACB UInt8 UInt8) (turns : List (ACB.Turn UInt8 UInt8 UInt8)),
      c.Inverse → c.Exact → ACB.Created b →
      Run ACB.turn (ACB.Turn.Sound c pub aks) b turns b' → turns ≠ [] →
      ∃ secret, ACB.ForReaders c pub b' secret := by
  intro h
  have hrun := (read_by_seven_run.mono fun _ _ h => h.1).snoc
    (read_by_seven_sound (.set_permissions 7 false true)) rfl
  obtain ⟨secret, hreaders⟩ := h _ _ _ _ _ _ plain_ciphers_inverse plain_ciphers_exact
    created_block_created hrun (List.cons_ne_nil _ _)
  have hsecret : secret = [5] := (Except.ok.inj hreaders.owner).symm
  have hread := (hreaders.users ⟨7, false, true, [7, 5]⟩ List.mem_cons_self).2
    (plain_opens_iff.mpr hsecret.symm)
  cases hread

end memo
