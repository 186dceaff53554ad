-- When two blocks are equal for the code, and what this makes of a store whose
-- block Paxos chose.
import Memo.GroupEdits

namespace memo

variable {K H : Type} [DecidableEq K] [DecidableEq H]

namespace ACB

/-! ## Storing what Paxos chose -/

/-- `clone`: the copy constructors copy every field. -/
def clone (b : ACB K H) : ACB K H := b

/-- `seal_version(version)`. -/
def set_seal_version (version : Int) (b : ACB K H) : ACB K H :=
  { b with next_seal_version := some version }

/-- `resolve`: nothing when the chosen block is ours, what the resolver makes of both, or a
conflict with the chosen block. -/
def resolve (b newest : ACB K H) (resolver : Option (ACB K H → ACB K H → Option (ACB K H))) :
    Except (ACB K H) (Option (ACB K H)) :=
  if newest.equal b then .ok none
  else
    match resolver with
    | some f =>
      match f b newest with
      | some resolved => .ok (some resolved)
      | none => .error newest.clone
    | none => .error newest.clone

/-- What `_store` does with the block that Paxos chose for a version. -/
def chosen (b block : ACB K H) (version : Int)
    (resolver : Option (ACB K H → ACB K H → Option (ACB K H))) :
    Except (ACB K H) (Option (ACB K H)) :=
  resolve (b.set_seal_version (version + 1)) (block.set_seal_version (version + 1)) resolver

/-! ## What the operators compare -/

theorem entry_equal_iff {a b : ACLEntry K} : entry_equal a b = true ↔ a = b ∧ a.write = true := by
  obtain ⟨key, read, write, token⟩ := a
  obtain ⟨key', read', write', token'⟩ := b
  simp only [entry_equal, Bool.and_eq_true, decide_eq_true_eq, beq_iff_eq, ACLEntry.mk.injEq]
  constructor
  · rintro ⟨⟨⟨⟨rfl, rfl⟩, rfl⟩, rfl⟩, rfl⟩
    simp
  · rintro ⟨⟨rfl, rfl, rfl, rfl⟩, rfl⟩
    simp

theorem entries_equal_iff {as bs : List (ACLEntry K)} :
    entries_equal as bs = true ↔ as = bs ∧ ∀ e ∈ as, e.write = true := by
  induction as generalizing bs with
  | nil => cases bs <;> simp [entries_equal]
  | cons a as ih =>
    cases bs with
    | nil => simp [entries_equal]
    | cons b bs =>
      simp only [entries_equal, Bool.and_eq_true, entry_equal_iff, ih, List.cons.injEq,
        List.forall_mem_cons]
      tauto

variable {a b : ACB K H}

/-- Two blocks that agree in all that is compared. -/
structure Agree (a b : ACB K H) : Prop where
  editor : a.editor = b.editor
  owner_token : a.owner_token = b.owner_token
  acl_entries : a.acl_entries = b.acl_entries
  data_version : a.data_version = b.data_version
  world_readable : a.world_readable = b.world_readable
  world_writable : a.world_writable = b.world_writable
  deleted : a.deleted = b.deleted
  salt : a.salt = b.salt
  owner_key : a.owner_key = b.owner_key
  address : a.address = b.address
  data : a.data = b.data

omit [DecidableEq K] [DecidableEq H] in
theorem Agree.refl (b : ACB K H) : Agree b b :=
  ⟨rfl, rfl, rfl, rfl, rfl, rfl, rfl, rfl, rfl, rfl, rfl⟩

theorem equal_iff :
    a.equal b = true ↔ Agree a b ∧ ∀ e ∈ a.acl_entries, e.write = true := by
  simp only [equal, Bool.and_eq_true, decide_eq_true_eq, beq_iff_eq, entries_equal_iff]
  constructor
  · rintro ⟨⟨⟨⟨⟨⟨⟨⟨⟨⟨he, ho⟩, hl, hw⟩, hv⟩, hr⟩, hww⟩, hd⟩, hs⟩, hk⟩, ha⟩, hdata⟩
    exact ⟨⟨he, ho, hl, hv, hr, hww, hd, hs, hk, ha, hdata⟩, hw⟩
  · rintro ⟨⟨he, ho, hl, hv, hr, hww, hd, hs, hk, ha, hdata⟩, hw⟩
    exact ⟨⟨⟨⟨⟨⟨⟨⟨⟨⟨he, ho⟩, hl, hw⟩, hv⟩, hr⟩, hww⟩, hd⟩, hs⟩, hk⟩, ha⟩, hdata⟩

theorem resolve_of_equal {resolver : Option (ACB K H → ACB K H → Option (ACB K H))}
    (h : b.equal a = true) : resolve a b resolver = .ok none := by
  simp [resolve, h]

theorem resolve_eq_none : resolve a b none = .ok none ↔ b.equal a = true := by
  unfold resolve
  cases h : b.equal a <;> simp

theorem chosen_of_agree {version : Int} (h : Agree b a) (hw : ∀ e ∈ a.acl_entries, e.write = true)
    (resolver : Option (ACB K H → ACB K H → Option (ACB K H))) :
    chosen a b version resolver = .ok none := by
  have hset : Agree (b.set_seal_version (version + 1)) (a.set_seal_version (version + 1)) :=
    ⟨h.1, h.2, h.3, h.4, h.5, h.6, h.7, h.8, h.9, h.10, h.11⟩
  refine resolve_of_equal (equal_iff.mpr ⟨hset, fun e he => hw e ?_⟩)
  exact hset.acl_entries ▸ he

/-- A block is equal to its clone, and its store reports success when Paxos chose a copy of it, if
and only if each of its users may write. -/
theorem copy_recognised_iff (b : ACB K H) (version : Int) :
    (b.equal b.clone = true ∧
        ∀ resolver, chosen b b.clone version resolver = .ok none) ↔
      ∀ e ∈ b.acl_entries, e.write = true := by
  constructor
  · rintro ⟨heq, -⟩
    exact (equal_iff.mp heq).2
  · intro hw
    exact ⟨equal_iff.mpr ⟨Agree.refl b, hw⟩, chosen_of_agree (Agree.refl b) hw⟩

/-- A block that a user may only read: it is not equal to itself, and storing it twice is a
conflict. -/
theorem reader_breaks_equality :
    (edited [⟨7, true, false, [7, 5]⟩]).equal (edited [⟨7, true, false, [7, 5]⟩]).clone = false ∧
      chosen (edited [⟨7, true, false, [7, 5]⟩]) (edited [⟨7, true, false, [7, 5]⟩]).clone 1 none ≠
        .ok none := by
  refine ⟨by decide, fun h => ?_⟩
  have heq := resolve_eq_none.mp h
  exact absurd heq (by decide)

end ACB

end memo
