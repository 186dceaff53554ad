-- The version that a seal takes, and what its parts throw: new data and the search of
-- an author fail only at an access that C++ leaves undefined.
import Memo.Sealing

open ops

namespace memo

variable {K S H : Type} {dht : Dht K S H}

/-! ## The version -/

namespace OKB

/-- The version that sealing takes: the one that is asked for, or else the pending one. -/
def asked (version : Option Int) (b : OKB K H) : Option Int :=
  match version with
  | some v => some v
  | none => b.next_seal_version.bind fun v => if v = 0 then none else some v

/-- The block once the pending version is taken. -/
def taken (version : Option Int) (b : OKB K H) : OKB K H :=
  if version = none ∧ (b.asked version).isSome then { b with next_seal_version := none } else b

theorem take_eq (version : Option Int) (b : OKB K H) :
    take_seal_version version b = (.ok (b.asked version), b.taken version) := by
  unfold take_seal_version asked taken
  rw [Op.bind_of_ok (Op.get_apply b)]
  cases version with
  | some v => simp
  | none =>
    cases hn : b.next_seal_version with
    | none => simp [asked, hn]
    | some v =>
      by_cases hv : v = 0
      · simp [asked, hn, hv]
      · simp [asked, hn, hv, Op.bind_of_ok (Op.modify_apply _ b)]

theorem taken_of_some {v : Int} (b : OKB K H) : b.taken (some v) = b := by
  simp [taken]

theorem taken_fields (version : Option Int) (b : OKB K H) :
    (b.taken version).owner_private_key = b.owner_private_key ∧
      (b.taken version).version = b.version ∧ (b.taken version).data = b.data ∧
      (b.taken version).data_changed = b.data_changed := by
  unfold taken
  split_ifs <;> exact ⟨rfl, rfl, rfl, rfl⟩

end OKB

namespace ACB

/-- The block once the pending version is taken. -/
def taken (version : Option Int) (b : ACB K H) : ACB K H :=
  { b with toOKB := b.toOKB.taken version }

/-! ## What is thrown -/

variable {b b' m : ACB K H} {key : S} {e : Failure} {author : Author K} {k : Option K}
  {es : List (ACLEntry K)} {use_encrypt : Bool} {secret : Buffer} {gv : List Int} {idx users : Nat}
  {α : Type}

theorem back_error {l : List α} (h : back l = .error e) : e.undefined = true := by
  unfold back at h
  split at h
  · cases h
  · cases h
    rfl

theorem current_key_error {g : Group K} (h : g.current_key = .error e) : e.undefined = true := by
  unfold Group.current_key at h
  split at h
  · rename_i keys _
    cases hb : back keys with
    | ok k => simp [hb, Except.map] at h
    | error e' =>
      rw [hb] at h
      cases h
      exact back_error hb
  · cases h

theorem except_bind_error {β : Type} {x : Except Failure α} {f : α → Except Failure β}
    (h : (x >>= f) = .error e) : x = .error e ∨ ∃ a, x = .ok a ∧ f a = .error e := by
  cases x with
  | error e' =>
    cases h
    exact Or.inl rfl
  | ok a => exact Or.inr ⟨a, rfl, h⟩

theorem seal_group_error {entry : ACLEntry K}
    (h : seal_group dht use_encrypt secret users idx entry gv author = .error e) :
    e.undefined = true := by
  unfold seal_group at h
  split at h
  · cases h
  · rename_i g _
    rcases except_bind_error h with h | ⟨refreshed, -, h⟩
    · unfold refresh_group at h
      split_ifs at h
      · rcases except_bind_error h with h | ⟨k, -, h⟩
        · exact back_error h
        · cases h
      · rcases except_bind_error h with h | ⟨k, -, h⟩
        · exact back_error h
        · cases h
          rfl
    · rcases except_bind_error h with h | ⟨author', -, h⟩
      · unfold group_author at h
        split at h
        · cases h
        · cases hk : g.current_key with
          | ok k => simp [hk, Except.map] at h
          | error e' =>
            rw [hk] at h
            cases h
            exact current_key_error hk
      · cases h

theorem seal_groups_error
    (h : seal_groups dht use_encrypt secret users idx es gv author = .error e) :
    e.undefined = true := by
  induction es generalizing idx gv author with
  | nil => cases h
  | cons entry es ih =>
    unfold seal_groups at h
    rcases except_bind_error h with h | ⟨_, -, h⟩
    · exact seal_group_error h
    · rcases except_bind_error h with h | ⟨_, -, h⟩
      · exact ih h
      · cases h

theorem seal_data_undefined [DecidableEq K] (h : seal_data dht key k m = (.error e, b')) :
    e.undefined = true := by
  unfold seal_data at h
  rw [Op.bind_of_ok (Op.get_apply m)] at h
  rcases Op.bind_eq_error h with h | ⟨a, m', hm', h⟩
  · exact seal_groups_error (Op.ofExcept_eq_error h).1
  · simp only [Op.bind_of_ok (Op.modify_apply _ _)] at h
    cases h

theorem last_group_error (h : last_group dht idx es author = .error e) : e.undefined = true := by
  induction es generalizing author with
  | nil => cases h
  | cons entry es ih =>
    unfold last_group at h
    split at h
    · exact ih h
    · rcases except_bind_error h with h | ⟨k, -, h⟩
      · exact current_key_error h
      · split at h <;> exact ih h

theorem find_author_error [DecidableEq K] (h : find_author dht k m = .error e) :
    e.undefined = true := by
  unfold find_author at h
  cases k with
  | some k => cases h
  | none =>
    dsimp only at h
    split_ifs at h
    cases hl : find_last_entry dht.keys m.acl_entries with
    | some p =>
      rw [hl] at h
      cases h
    | none =>
      rw [hl] at h
      rcases except_bind_error h with h | ⟨author, -, h⟩
      · exact last_group_error h
      · cases h

end ACB

end memo
