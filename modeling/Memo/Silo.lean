-- The storages of memo: what they all share, as `Silo.cc` has it, and the one that
-- keeps its blocks in memory. A storage counts the bytes that it uses by the changes
-- that its calls return, which are C++ ints.
import Mathlib.Data.Int.Bitwise
import Memo.Ops
import Memo.Stores

open ops stores

namespace memo.silo

/-! ## What all storages share -/

/-- `Key`: an address. -/
abbrev Key : Type := Vector UInt8 32

/-- `elle::Buffer`. -/
abbrev Buffer : Type := List UInt8

/-- What a storage throws. -/
inductive Error where
  | missing_key (key : Key)
  | collision (key : Key)
  | insufficient_space (delta usage capacity : Int)
  | assert_error (condition : String)
deriving DecidableEq

/-- How the refusals of a map are thrown. -/
def thrown : Refusal Key → Error
  | .idle => .assert_error "insert || update"
  | .missing key => .missing_key key
  | .collision key => .collision key

/-- A call that writes. -/
inductive Write where
  | set (key : Key) (value : Buffer) (insert update : Bool)
  | erase (key : Key)

def Write.key : Write → Key
  | .set key _ _ _ => key
  | .erase key => key

/-- An integer as an int. -/
def to_int (n : Int) : Int := n.bmod (2 ^ 32)

/-- The integers that an int holds. -/
def IsInt (n : Int) : Prop := -2 ^ 31 ≤ n ∧ n < 2 ^ 31

instance (n : Int) : Decidable (IsInt n) := inferInstanceAs (Decidable (_ ∧ _))

theorem to_int_eq {n : Int} : to_int n = n ↔ IsInt n := by
  unfold to_int IsInt
  rw [Int.bmod_def]
  split <;> omega

/-- `Silo`. `notified` counts the calls of `_on_storage_size_change`. -/
structure Silo where
  capacity : Option Int
  usage : Int := 0
  base_usage : Int := 0
  step : Int
  size_cache : Table Key Int := ∅
  block_count : Int := 0
  notified : Nat := 0

namespace Silo

/-- The constructor: a step is a tenth of the capacity, or 100 MiB. -/
def new (capacity : Option Int) : Silo where
  capacity := capacity
  step := (capacity.map fun c => c.tdiv 10).getD (100 * 1024 * 1024)

def _notify_metrics (s : Silo) : Silo := { s with notified := s.notified + 1 }

/-- What `set` does once the value is written. -/
def written (delta : Int) (s : Silo) : Silo :=
  let s := { s with usage := s.usage + delta }
  _notify_metrics
    (if s.step ≤ |s.base_usage - s.usage| then
      { _notify_metrics s with base_usage := s.usage }
    else
      s)

/-- What `erase` does once the block is gone. -/
def erased (key : Key) (delta : Int) (s : Silo) : Silo :=
  _notify_metrics { s with usage := s.usage + delta, size_cache := s.size_cache.erase key }

variable {S : Type} (on_silo : (Silo → Silo) → S → S)

/-- `Silo::set`, over the `_set` of a storage. -/
def set (_set : Op S Error Int) (insert update : Bool) : Op S Error Int := do
  if insert || update then
    let delta ← _set
    Op.modify (on_silo (written delta))
    return delta
  else
    Op.throw (.assert_error "insert || update")

/-- `Silo::erase`, over the `_erase` of a storage. -/
def erase (key : Key) (_erase : Op S Error Int) : Op S Error Int := do
  let delta ← _erase
  Op.modify (on_silo (erased key delta))
  return delta

@[simp] theorem written_usage (delta : Int) (s : Silo) :
    (s.written delta).usage = s.usage + delta := by
  unfold written _notify_metrics
  dsimp only
  split <;> rfl

@[simp] theorem written_block_count (delta : Int) (s : Silo) :
    (s.written delta).block_count = s.block_count := by
  unfold written _notify_metrics
  dsimp only
  split <;> rfl

@[simp] theorem written_size_cache (delta : Int) (s : Silo) :
    (s.written delta).size_cache = s.size_cache := by
  unfold written _notify_metrics
  dsimp only
  split <;> rfl

@[simp] theorem written_capacity (delta : Int) (s : Silo) :
    (s.written delta).capacity = s.capacity := by
  unfold written _notify_metrics
  dsimp only
  split <;> rfl

variable {on_silo}

theorem set_of_ok {_set : Op S Error Int} {insert update : Bool} {s s' : S} {delta : Int}
    (hflags : (insert || update) = true) (h : _set s = (.ok delta, s')) :
    set on_silo _set insert update s = (.ok delta, on_silo (written delta) s') := by
  unfold set
  rw [if_pos hflags, Op.bind_of_ok h]
  rfl

theorem set_of_error {_set : Op S Error Int} {insert update : Bool} {s s' : S} {e : Error}
    (hflags : (insert || update) = true) (h : _set s = (.error e, s')) :
    set on_silo _set insert update s = (.error e, s') := by
  unfold set
  rw [if_pos hflags]
  exact Op.bind_of_error h

theorem set_idle (_set : Op S Error Int) {insert update : Bool} (s : S)
    (hflags : ¬(insert || update) = true) :
    set on_silo _set insert update s = (.error (thrown .idle), s) := by
  unfold set
  rw [if_neg hflags]
  rfl

theorem erase_of_ok {key : Key} {_erase : Op S Error Int} {s s' : S} {delta : Int}
    (h : _erase s = (.ok delta, s')) :
    erase on_silo key _erase s = (.ok delta, on_silo (erased key delta) s') := by
  unfold erase
  rw [Op.bind_of_ok h]
  rfl

theorem erase_of_error {key : Key} {_erase : Op S Error Int} {s s' : S} {e : Error}
    (h : _erase s = (.error e, s')) : erase on_silo key _erase s = (.error e, s') :=
  Op.bind_of_error h

end Silo

/-! ## Blocks in memory -/

/-- `Memory`. -/
structure Memory where
  base : Silo := Silo.new none
  _blocks : Table Key Buffer := ∅

/-- The size of all values. -/
abbrev size (blocks : Table Key Buffer) : Nat := weight List.length blocks

/-- `mapped_size`, which adds in an int. -/
def mapped_size (blocks : Table Key Buffer) : Int :=
  blocks.entries.foldl (fun res b => to_int (res + b.2.length)) 0

namespace Memory

def on_silo (f : Silo → Silo) (m : Memory) : Memory := { m with base := f m.base }

/-- The constructor with blocks. -/
def of (blocks : Table Key Buffer) : Memory where
  base := { Silo.new none with
    usage := mapped_size blocks, block_count := to_int blocks.keys.length }
  _blocks := blocks

def _find (key : Key) (m : Memory) : Except Error Buffer :=
  match find m._blocks key with
  | some block => .ok block
  | none => .error (.missing_key key)

def get (key : Key) (m : Memory) : Except Error Buffer := m._find key

def _set (key : Key) (value : Buffer) (insert update : Bool) : Op Memory Error Int := do
  let m ← Op.get
  if insert then
    match find m._blocks key with
    | some prev =>
      if !update then
        Op.throw (.collision key)
      else
        Op.modify fun m => { m with _blocks := put key (some value) m._blocks }
        return to_int (value.length - prev.length)
    | none =>
      Op.modify fun m =>
        { m with
          _blocks := put key (some value) m._blocks
          base := { m.base with block_count := m.base.block_count + 1 } }
      return to_int value.length
  else
    let prev ← Op.ofExcept (m._find key)
    Op.modify fun m => { m with _blocks := put key (some value) m._blocks }
    return to_int (value.length - prev.length)

def _erase (key : Key) : Op Memory Error Int := do
  let m ← Op.get
  let prev ← Op.ofExcept (m._find key)
  Op.modify fun m =>
    { m with
      _blocks := put key none m._blocks
      base := { m.base with block_count := m.base.block_count - 1 } }
  return to_int (-prev.length)

def set (key : Key) (value : Buffer) (insert update : Bool) : Op Memory Error Int :=
  Silo.set on_silo (_set key value insert update) insert update

def erase (key : Key) : Op Memory Error Int := Silo.erase on_silo key (_erase key)

def _check_invariants (m : Memory) : Except Error Unit :=
  if m.base.block_count = to_int m._blocks.keys.length then
    if m.base.usage = mapped_size m._blocks then
      .ok ()
    else
      .error (.assert_error "this->_usage == mapped_size(*this->_blocks)")
  else
    .error (.assert_error "this->_block_count == int(this->_blocks->size())")

def list (m : Memory) : Except Error (List Key) := do
  m._check_invariants
  return m._blocks.keys

/-! ## What the calls of a memory do -/

/-- What a change is worth in bytes. -/
def worth (old new : Option Buffer) : Int := part List.length new - part List.length old

/-- How many keys a change adds. -/
def added (old new : Option Buffer) : Int := part (fun _ => 1) new - part (fun _ => 1) old

/-- The memory with another value for a key, or none, and the count of its blocks. -/
def changed (key : Key) (new : Option Buffer) (m : Memory) : Memory where
  base := { m.base with block_count := m.base.block_count + added (find m._blocks key) new }
  _blocks := put key new m._blocks

theorem changed_value {key : Key} {value prev : Buffer} {m : Memory}
    (h : find m._blocks key = some prev) :
    m.changed key (some value) = { m with _blocks := put key (some value) m._blocks } := by
  unfold changed added
  rw [h]
  simp [part]

theorem changed_new {key : Key} {value : Buffer} {m : Memory} (h : find m._blocks key = none) :
    m.changed key (some value) =
      ⟨{ m.base with block_count := m.base.block_count + 1 }, put key (some value) m._blocks⟩ := by
  unfold changed added
  rw [h]
  simp [part]

theorem changed_gone {key : Key} {prev : Buffer} {m : Memory}
    (h : find m._blocks key = some prev) :
    m.changed key none =
      ⟨{ m.base with block_count := m.base.block_count - 1 }, put key none m._blocks⟩ := by
  unfold changed added
  rw [h]
  rfl

theorem _set_refused {key : Key} {value : Buffer} {insert update : Bool} {m : Memory}
    {r : Refusal Key} (hflags : (insert || update) = true)
    (h : set_refusal (find m._blocks) key insert update = some r) :
    m._set key value insert update = (.error (thrown r), m) := by
  unfold _set _find
  rw [Op.bind_of_ok (Op.get_apply m)]
  cases hlookup : find m._blocks key with
  | some prev =>
    obtain ⟨hupdate, hr⟩ := set_refused_some hlookup hflags h
    have hinsert : insert = true := by simpa [hupdate] using hflags
    rw [hupdate, hinsert, hr]
    rfl
  | none =>
    obtain ⟨hinsert, hr⟩ := set_refused_none hlookup hflags h
    rw [hinsert, hr]
    rfl

theorem _set_accepted {key : Key} {value : Buffer} {insert update : Bool} {m : Memory}
    (h : set_refusal (find m._blocks) key insert update = none) :
    m._set key value insert update =
      (.ok (to_int (worth (find m._blocks key) (some value))), m.changed key (some value)) := by
  unfold _set _find
  rw [Op.bind_of_ok (Op.get_apply m)]
  cases hlookup : find m._blocks key with
  | some prev =>
    rw [changed_value hlookup, set_accepted_some hlookup h]
    cases insert <;> rfl
  | none =>
    rw [changed_new hlookup, set_accepted_none hlookup h]
    have hworth : worth none (some value) = value.length := by simp [worth, part]
    rw [hworth]
    rfl

theorem _erase_refused {key : Key} {m : Memory} (h : find m._blocks key = none) :
    m._erase key = (.error (thrown (.missing key)), m) := by
  unfold _erase _find
  rw [Op.bind_of_ok (Op.get_apply m), h]
  rfl

theorem _erase_accepted {key : Key} {prev : Buffer} {m : Memory}
    (h : find m._blocks key = some prev) :
    m._erase key = (.ok (to_int (worth (some prev) none)), m.changed key none) := by
  have hworth : worth (some prev) none = -prev.length := by simp [worth, part]
  rw [changed_gone h, hworth]
  unfold _erase _find
  rw [Op.bind_of_ok (Op.get_apply m), h]
  rfl

variable {key : Key} {value : Buffer} {insert update : Bool} {m : Memory}

theorem set_refused {r : Refusal Key}
    (h : set_refusal (find m._blocks) key insert update = some r) :
    m.set key value insert update = (.error (thrown r), m) := by
  unfold set
  by_cases hflags : (insert || update) = true
  · exact Silo.set_of_error hflags (_set_refused hflags h)
  · rw [set_refusal_idle hflags, Option.some.injEq] at h
    rw [← h]
    exact Silo.set_idle _ m hflags

theorem set_accepted (h : set_refusal (find m._blocks) key insert update = none) :
    m.set key value insert update =
      (.ok (to_int (worth (find m._blocks key) (some value))),
        (m.changed key (some value)).on_silo
          (Silo.written (to_int (worth (find m._blocks key) (some value))))) :=
  Silo.set_of_ok (flags_of_accepted h) (_set_accepted h)

theorem erase_refused (h : find m._blocks key = none) :
    m.erase key = (.error (thrown (.missing key)), m) :=
  Silo.erase_of_error (_erase_refused h)

theorem erase_accepted {prev : Buffer} (h : find m._blocks key = some prev) :
    m.erase key =
      (.ok (to_int (worth (some prev) none)),
        (m.changed key none).on_silo (Silo.erased key (to_int (worth (some prev) none)))) :=
  Silo.erase_of_ok (_erase_accepted h)

theorem mapped_size_eq (blocks : Table Key Buffer) : mapped_size blocks = to_int (size blocks) := by
  have hfold : ∀ (entries : List (Sigma fun _ : Key => Buffer)) (n : Int),
      entries.foldl (fun res b => to_int (res + b.2.length)) (to_int n) =
        to_int (n + (entries.map fun e => e.2.length).sum) := by
    intro entries
    induction entries with
    | nil => simp
    | cons e entries ih =>
      intro n
      have hstep : to_int (to_int n + e.2.length) = to_int (n + e.2.length) :=
        Int.bmod_add_bmod
      rw [List.foldl_cons, hstep, ih, List.map_cons, List.sum_cons]
      congr 1
      push_cast
      ring
  have h := hfold blocks.entries 0
  rw [zero_add] at h
  exact h

theorem of_usage (blocks : Table Key Buffer) : (of blocks).base.usage = to_int (size blocks) :=
  mapped_size_eq blocks

theorem of_block_count (blocks : Table Key Buffer) :
    (of blocks).base.block_count = to_int blocks.keys.length := by
  unfold of
  dsimp only

end Memory

end memo.silo
