-- Stores of values by key. A table is a list of entries with distinct keys, and its
-- weight is the sum of what its values weigh. A store is meant to answer like one map
-- from keys to values.
import Mathlib.Algebra.BigOperators.Group.List.Basic
import Mathlib.Data.List.AList
import Mathlib.Tactic.Ring

namespace stores

variable {K V E : Type}

/-! ## Tables -/

abbrev Table (K V : Type) : Type := AList fun _ : K => V

/-- What a store holds. -/
abbrev Map (K V : Type) : Type := K → Option V

/-- What a table holds. -/
def find [DecidableEq K] (t : Table K V) : Map K V := fun k => t.lookup k

/-- The table with another value for a key, or none. -/
def put [DecidableEq K] (k : K) (new : Option V) (t : Table K V) : Table K V :=
  match new with
  | some v => t.insert k v
  | none => t.erase k

/-- What a value weighs, and nothing if it is missing. -/
def part (w : V → Nat) (value : Option V) : Nat := value.elim 0 w

def weight (w : V → Nat) (t : Table K V) : Nat := (t.entries.map fun e => w e.2).sum

theorem find_put [DecidableEq K] (k : K) (new : Option V) (t : Table K V) :
    find (put k new t) = Function.update (find t) k new := by
  funext k'
  unfold find put
  by_cases hk : k' = k
  · rw [hk, Function.update_self]
    cases new with
    | some v => exact AList.lookup_insert t
    | none => exact AList.lookup_erase k t
  · rw [Function.update_of_ne hk]
    cases new with
    | some v => exact AList.lookup_insert_ne hk
    | none => exact AList.lookup_erase_ne hk

theorem sum_kerase [DecidableEq K] (w : V → Nat) (k : K) (entries : List (Sigma fun _ : K => V)) :
    ((entries.kerase k).map fun e => w e.2).sum + part w (entries.dlookup k) =
      (entries.map fun e => w e.2).sum := by
  induction entries with
  | nil => rfl
  | cons e entries ih =>
    by_cases hk : k = e.1
    · subst hk
      rw [List.kerase_cons_eq rfl, List.dlookup_cons_eq, List.map_cons, List.sum_cons]
      exact Nat.add_comm _ _
    · rw [List.kerase_cons_ne hk, List.dlookup_cons_ne _ _ hk, List.map_cons, List.sum_cons,
        List.map_cons, List.sum_cons, Nat.add_assoc, ih]

theorem weight_put [DecidableEq K] (w : V → Nat) (k : K) (new : Option V) (t : Table K V) :
    weight w (put k new t) + part w (find t k) = weight w t + part w new := by
  have herase := sum_kerase w k t.entries
  cases new with
  | some v =>
    change ((List.kinsert k v t.entries).map fun e => w e.2).sum + part w (t.entries.dlookup k) =
      weight w t + w v
    rw [List.kinsert_def, List.map_cons, List.sum_cons]
    dsimp only
    unfold weight
    omega
  | none => exact herase

theorem weight_one (t : Table K V) : weight (fun _ => 1) t = t.keys.length := by
  unfold weight AList.keys List.keys
  simp

/-! ## One map -/

/-- Why a map refuses a call. -/
inductive Refusal (K : Type) where
  | idle
  | missing (k : K)
  | collision (k : K)
deriving DecidableEq

inductive Call (K V : Type) where
  | get (k : K)
  | set (k : K) (v : V) (insert update : Bool)
  | erase (k : K)
  | list

inductive Answer (K V E : Type) where
  | value (v : V)
  | delta (d : Int)
  | keys (ks : List K)
  | error (e : E)

/-- A new key needs `insert`, a key that is there needs `update`. -/
def set_refusal (m : Map K V) (k : K) (insert update : Bool) : Option (Refusal K) :=
  if insert || update then
    match m k with
    | some _ => if update then none else some (.collision k)
    | none => if insert then none else some (.missing k)
  else
    some .idle

variable {insert update : Bool} {m : Map K V} {k : K}

theorem set_refusal_idle (h : ¬(insert || update) = true) :
    set_refusal m k insert update = some .idle := if_neg h

theorem flags_of_accepted (h : set_refusal m k insert update = none) :
    (insert || update) = true := by
  by_contra hflags
  rw [set_refusal_idle hflags] at h
  cases h

theorem set_refused_some {v : V} {r : Refusal K} (hk : m k = some v)
    (hflags : (insert || update) = true) (h : set_refusal m k insert update = some r) :
    update = false ∧ r = .collision k := by
  unfold set_refusal at h
  rw [if_pos hflags, hk] at h
  cases update with
  | true => cases h
  | false => exact ⟨rfl, (Option.some.inj h).symm⟩

theorem set_refused_none {r : Refusal K} (hk : m k = none) (hflags : (insert || update) = true)
    (h : set_refusal m k insert update = some r) : insert = false ∧ r = .missing k := by
  unfold set_refusal at h
  rw [if_pos hflags, hk] at h
  cases insert with
  | true => cases h
  | false => exact ⟨rfl, (Option.some.inj h).symm⟩

theorem set_accepted_some {v : V} (hk : m k = some v) (h : set_refusal m k insert update = none) :
    update = true := by
  have hflags := flags_of_accepted h
  unfold set_refusal at h
  rw [if_pos hflags, hk] at h
  cases update with
  | true => rfl
  | false => cases h

theorem set_accepted_none (hk : m k = none) (h : set_refusal m k insert update = none) :
    insert = true := by
  have hflags := flags_of_accepted h
  unfold set_refusal at h
  rw [if_pos hflags, hk] at h
  cases insert with
  | true => rfl
  | false => cases h

variable [DecidableEq K]

/-- The value of the key that a call changes, and what the key then has. -/
def Call.change (m : Map K V) : Call K V → Option (K × Option V)
  | .set k v insert update =>
    match set_refusal m k insert update with
    | some _ => none
    | none => some (k, some v)
  | .erase k =>
    match m k with
    | some _ => some (k, none)
    | none => none
  | _ => none

/-- The map after a call. -/
def Call.next (m : Map K V) (c : Call K V) : Map K V :=
  match c.change m with
  | some (k, new) => Function.update m k new
  | none => m

/-- What a map answers, if values weigh `w` and refusals are reported as `report` says. -/
def Call.Answers (w : V → Nat) (report : Refusal K → E) (m : Map K V) :
    Call K V → Answer K V E → Prop
  | .get k, a =>
    match m k with
    | some v => a = .value v
    | none => a = .error (report (.missing k))
  | .set k v insert update, a =>
    match set_refusal m k insert update with
    | some r => a = .error (report r)
    | none => a = .delta (w v - part w (m k))
  | .erase k, a =>
    match m k with
    | some v => a = .delta (-w v)
    | none => a = .error (report (.missing k))
  | .list, a => ∃ ks, a = .keys ks ∧ ks.Nodup ∧ ∀ k, k ∈ ks ↔ (m k).isSome

/-! ## Stores -/

/-- A store: what it holds, whether it has room for a value, and its calls. It refuses what a map
refuses and what it has no room for, and a call that fails leaves what it holds. -/
structure Store (K V E : Type) [DecidableEq K] (missing : K → E) (B : Type) where
  contents : B → Map K V
  room : K → V → B → Bool
  get : K → B → Except E V × B
  set : K → V → Bool → Bool → B → Except E Int × B
  erase : K → B → Except E Int × B
  get_eq : ∀ k b, (get k b).1 = match contents b k with
    | some v => .ok v
    | none => .error (missing k)
  get_keeps : ∀ k b, contents (get k b).2 = contents b
  set_accepted : ∀ {k v insert update b}, set_refusal (contents b) k insert update = none →
    room k v b = true → (set k v insert update b).1.isOk = true ∧
      contents (set k v insert update b).2 = Function.update (contents b) k (some v)
  set_refused : ∀ {k v insert update b},
    set_refusal (contents b) k insert update ≠ none ∨ room k v b = false →
      (set k v insert update b).1.isOk = false ∧
        contents (set k v insert update b).2 = contents b
  erase_accepted : ∀ {k b}, (contents b k).isSome → (erase k b).1.isOk = true ∧
    contents (erase k b).2 = Function.update (contents b) k none
  erase_refused : ∀ {k b}, contents b k = none → (erase k b).1.isOk = false ∧
    contents (erase k b).2 = contents b

end stores
