-- The disk cache of `consensus::Cache`: the files of immutable blocks, with the counter of their
-- sizes. The calls of the backend take their time, so fetches and stores end in any order.
import Memo.Runs
import Mathlib.Data.Finset.Basic
import Mathlib.Algebra.BigOperators.Group.List.Basic

open runs

namespace memo.consensus.disk_cache

variable {A : Type} [DecidableEq A]

/-! ## The code -/

/-- `CachedCHB`. -/
structure CachedCHB (A : Type) where
  address : A
  size : UInt64
  last_used : Int
deriving DecidableEq

/-- The members of `Cache` that its disk cache reads. `_disk_cache` is in the order of
`last_used`; `_cache` has the blocks in memory by their addresses. `fetching` and `storing` are
the calls of the backend that have not returned, but for those of `_pending`. `pushed` says that
the last call was `_disk_cache_push`, `wrapped` that the counter went below zero, and `asserted`
that the assertion failed. -/
structure Cache (A : Type) where
  _disk_cache_path : Bool
  _disk_cache_size : UInt64
  _cache_size : Nat
  _disk_cache : List (CachedCHB A) := []
  _disk_cache_used : UInt64 := 0
  _cache : Finset A := ∅
  _pending : Finset A := ∅
  fetching : List A := []
  storing : List A := []
  pushed : Bool := false
  wrapped : Bool := false
  asserted : Bool := false

/-- A block, with the size of the file that it is written to. -/
inductive Block where
  | mutable_block
  | immutable_block (size : UInt64)
deriving DecidableEq

inductive Action (A : Type) where
  /-- `_fetch` of one block, or of some, and the answer of the backend for one of them. There is
  none when the backend throws or the block is not valid. -/
  | fetch (a : A)
  | fetched (a : A) (b : Option Block)
  | fetch_many (l : List A)
  | fetched_many (a : A) (b : Option Block)
  /-- `_store`, and the return of the backend, or its exception. -/
  | store (a : A)
  | stored (a : A) (b : Option Block)
  /-- `_remove`, up to the call of the backend. -/
  | remove (a : A)
  /-- A block in memory is not used any more. -/
  | cleanup (a : A)
deriving DecidableEq

namespace Cache

def find (a : A) (l : List (CachedCHB A)) : Option (CachedCHB A) := l.find? fun c => c.address = a

/-- An entry is put behind those that were not used later. -/
def place (c : CachedCHB A) (l : List (CachedCHB A)) : List (CachedCHB A) :=
  l.takeWhile (fun d => d.last_used ≤ c.last_used) ++
    c :: l.dropWhile fun d => d.last_used ≤ c.last_used

/-- `emplace` and `insert`: an address is there once. -/
def emplace (c : CachedCHB A) (l : List (CachedCHB A)) : List (CachedCHB A) :=
  if (find c.address l).isSome then l else place c l

/-- The pruning loop of `_disk_cache_push`. -/
def prune : List (CachedCHB A) → Cache A → Cache A
  | [], s =>
    if s._disk_cache_size < s._disk_cache_used then { s with _disk_cache := [], asserted := true }
    else { s with _disk_cache := [] }
  | c :: l, s =>
    if s._disk_cache_size < s._disk_cache_used then
      prune l { s with
        _disk_cache_used := s._disk_cache_used - c.size
        wrapped := s.wrapped || s._disk_cache_used < c.size }
    else
      { s with _disk_cache := c :: l }

/-- `_disk_cache_push`. -/
def _disk_cache_push (now : Int) (a : A) (sz : UInt64) (s : Cache A) : Cache A :=
  if s._disk_cache_path then
    prune (emplace ⟨a, sz, now⟩ s._disk_cache)
      { s with _disk_cache_used := s._disk_cache_used + sz, pushed := true }
  else
    s

/-- `_load_disk_cache`, of the address that the name of a file stands for, and its size. -/
def _load_disk_cache (files : List (A × UInt64)) (s : Cache A) : Cache A :=
  files.foldl (fun s p =>
    { s with
      _disk_cache := emplace ⟨p.1, p.2, 0⟩ s._disk_cache
      _disk_cache_used := s._disk_cache_used + p.2 }) s

/-- The constructor, with the path, the sizes and the files that there are. -/
def start (path : Bool) (disk_cache_size : UInt64) (cache_size : Nat)
    (files : List (A × UInt64)) : Cache A :=
  let size := if path then disk_cache_size else 0
  let s : Cache A :=
    { _disk_cache_path := path, _disk_cache_size := size, _cache_size := cache_size }
  if size = 0 then s else s._load_disk_cache files

/-- `_insert_cache`. -/
def _insert_cache (now : Int) (a : A) (b : Block) (s : Cache A) : Cache A :=
  match b with
  | .immutable_block sz => if s._disk_cache_size = 0 then s else s._disk_cache_push now a sz
  | .mutable_block => if s._cache_size = 0 then s else { s with _cache := insert a s._cache }

/-- An entry is used. -/
def touch (now : Int) (a : A) (l : List (CachedCHB A)) : List (CachedCHB A) :=
  match find a l with
  | some c => place { c with last_used := now } (l.eraseP fun c => c.address = a)
  | none => l

/-- `_fetch_cache` of a block, and whether it is missing. -/
def _fetch_cache (now : Int) (a : A) (s : Cache A) : Cache A × Bool :=
  if a ∈ s._cache then (s, false)
  else if (find a s._disk_cache).isSome then
    ({ s with _disk_cache := touch now a s._disk_cache }, false)
  else (s, true)

/-- `_fetch` of a block, up to the call of the backend. A fetch that is pending is waited for, and
then starts again. -/
def fetch (now : Int) (a : A) (s : Cache A) : Cache A :=
  let (s, missing) := s._fetch_cache now a
  if missing then { s with _pending := insert a s._pending } else s

/-- `_fetch` of some blocks, up to the call of the backend. -/
def fetch_many (now : Int) : List A → Cache A → Cache A
  | [], s => s
  | a :: l, s =>
    let (s, missing) := s._fetch_cache now a
    fetch_many now l (if missing then { s with fetching := s.fetching ++ [a] } else s)

/-- `_remove`. -/
def _remove (a : A) (s : Cache A) : Cache A :=
  if a ∈ s._cache then { s with _cache := s._cache.erase a }
  else
    match find a s._disk_cache with
    | some c =>
      { s with
        _disk_cache_used := s._disk_cache_used - c.size
        wrapped := s.wrapped || s._disk_cache_used < c.size
        _disk_cache := s._disk_cache.eraseP fun c => c.address = a }
    | none => s

/-- The answer of the backend for a fetch. -/
def answer (now : Int) (a : A) (b : Option Block) (s : Cache A) : Cache A :=
  match b with
  | some b => s._insert_cache now a b
  | none => s

/-- The end of `_store`. -/
def _store (now : Int) (a : A) (b : Option Block) (s : Cache A) : Cache A :=
  match b with
  | some .mutable_block => { s with _cache := insert a s._cache }
  | some (.immutable_block sz) => s._disk_cache_push now a sz
  | none => s

def step (s : Cache A) (action : Int × Action A) : Option (Cache A) :=
  let (now, action) := action
  let s := { s with pushed := false }
  match action with
  | .fetch a => some (s.fetch now a)
  | .fetched a b =>
    if a ∈ s._pending then
      some ({ s with _pending := s._pending.erase a }.answer now a b)
    else
      none
  | .fetch_many l => some (s.fetch_many now l)
  | .fetched_many a b =>
    if a ∈ s.fetching then
      some ({ s with fetching := s.fetching.erase a }.answer now a b)
    else
      none
  | .store a => some { s with storing := s.storing ++ [a] }
  | .stored a b =>
    if a ∈ s.storing then
      some ({ s with storing := s.storing.erase a }._store now a b)
    else
      none
  | .remove a => some (s._remove a)
  | .cleanup a => some { s with _cache := s._cache.erase a }

/-! ## The sum of the sizes -/

def sum : List (CachedCHB A) → Nat
  | [] => 0
  | c :: l => c.size.toNat + sum l

variable {s s' : Cache A} {l : List (CachedCHB A)} {c : CachedCHB A} {a : A} {now : Int}
  {sz : UInt64} {action : Int × Action A} {as : List (Int × Action A)}

omit [DecidableEq A] in
@[simp] theorem sum_nil : sum ([] : List (CachedCHB A)) = 0 := rfl

omit [DecidableEq A] in
@[simp] theorem sum_cons : sum (c :: l) = c.size.toNat + sum l := rfl

omit [DecidableEq A] in
@[simp] theorem sum_append (l l' : List (CachedCHB A)) : sum (l ++ l') = sum l + sum l' := by
  induction l with
  | nil => simp
  | cons c l ih => simp [ih, Nat.add_assoc]

omit [DecidableEq A] in
theorem sum_place : sum (place c l) = c.size.toNat + sum l := by
  have hsplit : sum l = sum (l.takeWhile fun d => d.last_used ≤ c.last_used) +
      sum (l.dropWhile fun d => d.last_used ≤ c.last_used) := by
    rw [← sum_append, List.takeWhile_append_dropWhile]
  unfold place
  rw [sum_append, sum_cons, hsplit]
  omega

theorem sum_emplace : sum (emplace c l) =
    if (find c.address l).isSome then sum l else sum l + c.size.toNat := by
  unfold emplace
  split_ifs
  · rfl
  · rw [sum_place, Nat.add_comm]

theorem sum_eraseP (h : find a l = some c) :
    sum l = c.size.toNat + sum (l.eraseP fun c => c.address = a) := by
  induction l with
  | nil => cases h
  | cons d l ih =>
    unfold find at h ih
    by_cases hd : d.address = a
    · rw [List.find?_cons_of_pos (by simpa using hd)] at h
      obtain rfl := Option.some.inj h
      rw [List.eraseP_cons_of_pos (by simpa using hd), sum_cons]
    · rw [List.find?_cons_of_neg (by simpa using hd)] at h
      rw [List.eraseP_cons_of_neg (by simpa using hd), sum_cons, sum_cons, ih h]
      omega

theorem sum_touch : sum (touch now a l) = sum l := by
  unfold touch
  cases h : find a l with
  | none => rfl
  | some c =>
    dsimp only
    rw [sum_place, sum_eraseP h]

/-! ## The counter -/

/-- The counter is the sum of the sizes, and neither wrapped nor failed the assertion. -/
structure Counted (s : Cache A) : Prop where
  used : s._disk_cache_used.toNat = sum s._disk_cache
  wrapped : s.wrapped = false
  asserted : s.asserted = false

/-- After a push it is not above the size of the cache. -/
structure Accounted (s : Cache A) : Prop extends Counted s where
  fits : s.pushed → s._disk_cache_used ≤ s._disk_cache_size

omit [DecidableEq A] in
theorem prune_counted_iff :
    (prune l s).Counted ↔ Counted { s with _disk_cache := l } := by
  induction l generalizing s with
  | nil =>
    unfold prune
    split_ifs with hlt
    · constructor
      · intro h
        cases h.asserted
      · intro h
        have hused := h.used
        rw [UInt64.lt_iff_toNat_lt] at hlt
        simp only [sum_nil] at hused
        omega
    · rfl
  | cons c l ih =>
    unfold prune
    split_ifs with hlt
    · rw [ih]
      constructor
      · intro h
        have hwrapped := h.wrapped
        simp only [Bool.or_eq_false_iff, decide_eq_false_iff_not] at hwrapped
        have hsize := UInt64.not_lt.mp hwrapped.2
        have hused := h.used
        simp only [UInt64.toNat_sub_of_le _ _ hsize] at hused
        have hle := UInt64.le_iff_toNat_le.mp hsize
        refine ⟨?_, hwrapped.1, h.asserted⟩
        simp only [sum_cons]
        omega
      · intro h
        have hused := h.used
        simp only [sum_cons] at hused
        have hle : c.size ≤ s._disk_cache_used := by
          rw [UInt64.le_iff_toNat_le]
          omega
        refine ⟨?_, ?_, h.asserted⟩
        · simp only [UInt64.toNat_sub_of_le _ _ hle]
          omega
        · have hwrapped : s.wrapped = false := h.wrapped
          simp [hwrapped, hle]
    · rfl

omit [DecidableEq A] in
theorem prune_fits (h : (prune l s).asserted = false) :
    (prune l s)._disk_cache_used ≤ (prune l s)._disk_cache_size := by
  induction l generalizing s with
  | nil =>
    unfold prune at h ⊢
    split_ifs at h ⊢ with hlt
    exact UInt64.not_lt.mp hlt
  | cons c l ih =>
    unfold prune at h ⊢
    split_ifs at h ⊢ with hlt
    · exact ih h
    · exact UInt64.not_lt.mp hlt

/-- The block is not in the cache and its file makes no sum of 2^64, or it is and its file is
empty. -/
def Fresh (s : Cache A) (a : A) (sz : UInt64) : Prop :=
  if (find a s._disk_cache).isSome then sz = 0 else sum s._disk_cache + sz.toNat < 2 ^ 64

theorem Counted.push_iff (h : s.Counted) (hpath : s._disk_cache_path = true) :
    (s._disk_cache_push now a sz).Accounted ↔ s.Fresh a sz := by
  have hcounted : (s._disk_cache_push now a sz).Counted ↔ s.Fresh a sz := by
    unfold _disk_cache_push Fresh
    rw [if_pos hpath, prune_counted_iff]
    have hsum : (s._disk_cache_used + sz).toNat =
        sum (emplace ⟨a, sz, now⟩ s._disk_cache) ↔
          if (find a s._disk_cache).isSome then sz = 0
          else sum s._disk_cache + sz.toNat < 2 ^ 64 := by
      rw [sum_emplace, UInt64.toNat_add, h.used]
      have hused := s._disk_cache_used.toNat_lt
      have hsz := sz.toNat_lt
      rw [h.used] at hused
      split_ifs
      · rw [← UInt64.toNat_inj]
        simp only [UInt64.toNat_zero]
        omega
      · dsimp only
        omega
    rw [← hsum]
    exact ⟨fun hall => hall.used, fun hused => ⟨hused, h.wrapped, h.asserted⟩⟩
  rw [← hcounted]
  constructor
  · exact fun hall => hall.toCounted
  · refine fun hall => ⟨hall, fun _ => ?_⟩
    have hasserted := hall.asserted
    unfold _disk_cache_push at hasserted ⊢
    rw [if_pos hpath] at hasserted ⊢
    exact prune_fits hasserted

omit [DecidableEq A] in
theorem Counted.of_eq (h : s.Counted) (hcache : sum s'._disk_cache = sum s._disk_cache)
    (hused : s'._disk_cache_used = s._disk_cache_used) (hwrapped : s'.wrapped = s.wrapped)
    (hasserted : s'.asserted = s.asserted) : s'.Counted := by
  refine ⟨?_, hwrapped.trans h.wrapped, hasserted.trans h.asserted⟩
  rw [hused, hcache, h.used]

omit [DecidableEq A] in
theorem Counted.accounted (h : s.Counted) (hpushed : s.pushed = false) : s.Accounted :=
  ⟨h, fun hp => by rw [hpushed] at hp; cases hp⟩

theorem Counted._fetch_cache (now : Int) (a : A) (h : s.Counted) :
    (s._fetch_cache now a).1.Counted ∧ (s._fetch_cache now a).1.pushed = s.pushed := by
  unfold Cache._fetch_cache
  split_ifs
  · exact ⟨h, rfl⟩
  · exact ⟨h.of_eq sum_touch rfl rfl rfl, rfl⟩
  · exact ⟨h, rfl⟩

theorem Counted.fetch (now : Int) (a : A) (h : s.Counted) :
    (s.fetch now a).Counted ∧ (s.fetch now a).pushed = s.pushed := by
  obtain ⟨hcounted, hpushed⟩ := h._fetch_cache now a
  unfold Cache.fetch
  dsimp only
  split_ifs
  · exact ⟨hcounted.of_eq rfl rfl rfl rfl, hpushed⟩
  · exact ⟨hcounted, hpushed⟩

theorem Counted.fetch_many (now : Int) (l : List A) (h : s.Counted) :
    (s.fetch_many now l).Counted ∧ (s.fetch_many now l).pushed = s.pushed := by
  induction l generalizing s with
  | nil => exact ⟨h, rfl⟩
  | cons a l ih =>
    obtain ⟨hcounted, hpushed⟩ := h._fetch_cache now a
    unfold Cache.fetch_many
    dsimp only
    split_ifs
    · have hnext := ih (hcounted.of_eq rfl rfl rfl rfl : Counted
        { (s._fetch_cache now a).1 with fetching := (s._fetch_cache now a).1.fetching ++ [a] })
      exact ⟨hnext.1, hnext.2.trans hpushed⟩
    · have hnext := ih hcounted
      exact ⟨hnext.1, hnext.2.trans hpushed⟩

theorem Counted._remove (h : s.Counted) :
    (s._remove a).Counted ∧ (s._remove a).pushed = s.pushed := by
  unfold Cache._remove
  split_ifs
  · exact ⟨h.of_eq rfl rfl rfl rfl, rfl⟩
  · cases hfind : find a s._disk_cache with
    | none => exact ⟨h, rfl⟩
    | some c =>
      have hused := h.used
      rw [sum_eraseP hfind] at hused
      have hle : c.size ≤ s._disk_cache_used := by
        rw [UInt64.le_iff_toNat_le]
        omega
      refine ⟨⟨?_, ?_, h.asserted⟩, rfl⟩
      · simp only [UInt64.toNat_sub_of_le _ _ hle]
        omega
      · simp [h.wrapped, hle]

/-- What an answer of the backend pushes on the disk cache. -/
def answered (s : Cache A) (a : A) : Option Block → Option (A × UInt64)
  | some (.immutable_block sz) =>
    if s._disk_cache_size ≠ 0 ∧ s._disk_cache_path then some (a, sz) else none
  | _ => none

/-- What the end of `_store` pushes. -/
def kept (s : Cache A) (a : A) : Option Block → Option (A × UInt64)
  | some (.immutable_block sz) => if s._disk_cache_path then some (a, sz) else none
  | _ => none

/-- What a step pushes on the disk cache. -/
def push (s : Cache A) : Action A → Option (A × UInt64)
  | .fetched a b | .fetched_many a b => s.answered a b
  | .stored a b => s.kept a b
  | _ => none

/-- The step pushes nothing, or a block that the cache does not have. -/
def Sparing (s : Cache A) (action : Int × Action A) : Prop :=
  ∀ a sz, s.push action.2 = some (a, sz) → s.Fresh a sz

instance (s : Cache A) (a : A) (sz : UInt64) : Decidable (s.Fresh a sz) :=
  inferInstanceAs (Decidable (if (find a s._disk_cache).isSome then sz = 0
    else sum s._disk_cache + sz.toNat < 2 ^ 64))

instance (s : Cache A) (action : Int × Action A) : Decidable (s.Sparing action) :=
  decidable_of_iff (∀ p ∈ s.push action.2, s.Fresh p.1 p.2)
    ⟨fun h a sz => h (a, sz), fun h p => h p.1 p.2⟩

theorem Counted.push_or (h : s.Counted) (hpushed : s.pushed = false) :
    (s._disk_cache_push now a sz).Accounted ↔ (s._disk_cache_path = true → s.Fresh a sz) := by
  cases hpath : s._disk_cache_path with
  | false =>
    have hsame : s._disk_cache_push now a sz = s := by simp [_disk_cache_push, hpath]
    simp [hsame, h.accounted hpushed]
  | true => simp [h.push_iff hpath]

theorem Counted.cached (h : s.Counted) (hpushed : s.pushed = false) :
    Accounted { s with _cache := insert a s._cache } := by
  have hinserted : Counted { s with _cache := insert a s._cache } := h.of_eq rfl rfl rfl rfl
  exact hinserted.accounted hpushed

theorem Counted.answer_iff (b : Option Block) (h : s.Counted) (hpushed : s.pushed = false) :
    (s.answer now a b).Accounted ↔ ∀ a' sz, s.answered a b = some (a', sz) → s.Fresh a' sz := by
  unfold answer answered
  cases b with
  | none => simp [h.accounted hpushed]
  | some b =>
    unfold Cache._insert_cache
    cases b with
    | mutable_block =>
      simp only [reduceCtorEq, false_implies, implies_true, iff_true]
      split_ifs
      · exact h.accounted hpushed
      · exact h.cached hpushed
    | immutable_block sz =>
      dsimp only
      by_cases hsize : s._disk_cache_size = 0
      · simp [hsize, h.accounted hpushed]
      · rw [if_neg hsize, h.push_or hpushed]
        by_cases hpath : s._disk_cache_path = true
        · simp [hsize, hpath]
        · simp [hpath]

theorem Counted._store_iff (b : Option Block) (h : s.Counted) (hpushed : s.pushed = false) :
    (s._store now a b).Accounted ↔ ∀ a' sz, s.kept a b = some (a', sz) → s.Fresh a' sz := by
  unfold Cache._store kept
  cases b with
  | none => simp [h.accounted hpushed]
  | some b =>
    cases b with
    | mutable_block =>
      simp only [reduceCtorEq, false_implies, implies_true, iff_true]
      exact h.cached hpushed
    | immutable_block sz =>
      dsimp only
      rw [h.push_or hpushed]
      by_cases hpath : s._disk_cache_path = true
      · simp [hpath]
      · simp [hpath]

theorem Accounted.step_iff (h : s.Accounted) (hs : s.step action = some s') :
    s'.Accounted ↔ s.Sparing action := by
  obtain ⟨now, action⟩ := action
  have hreset : Counted { s with pushed := false } := h.toCounted.of_eq rfl rfl rfl rfl
  have hquiet : ∀ {t : Cache A}, t.Counted → t.pushed = false → s.push action = none →
      (t.Accounted ↔ s.Sparing (now, action)) := by
    intro t hcounted hpushed hnone
    simp [Sparing, hnone, hcounted.accounted hpushed]
  unfold step at hs
  cases action with
  | fetch a =>
    obtain rfl := Option.some.inj hs
    obtain ⟨hcounted, hpushed⟩ := hreset.fetch now a
    exact hquiet hcounted hpushed rfl
  | fetched a b =>
    dsimp only at hs
    split_ifs at hs with ha
    obtain rfl := Option.some.inj hs
    exact Counted.answer_iff b (hreset.of_eq rfl rfl rfl rfl) rfl
  | fetch_many l =>
    obtain rfl := Option.some.inj hs
    obtain ⟨hcounted, hpushed⟩ := hreset.fetch_many now l
    exact hquiet hcounted hpushed rfl
  | fetched_many a b =>
    dsimp only at hs
    split_ifs at hs with ha
    obtain rfl := Option.some.inj hs
    exact Counted.answer_iff b (hreset.of_eq rfl rfl rfl rfl) rfl
  | store a =>
    obtain rfl := Option.some.inj hs
    exact hquiet (hreset.of_eq rfl rfl rfl rfl) rfl rfl
  | stored a b =>
    dsimp only at hs
    split_ifs at hs with ha
    obtain rfl := Option.some.inj hs
    exact Counted._store_iff b (hreset.of_eq rfl rfl rfl rfl) rfl
  | remove a =>
    obtain rfl := Option.some.inj hs
    obtain ⟨hcounted, hpushed⟩ := hreset._remove (a := a)
    exact hquiet hcounted hpushed rfl
  | cleanup a =>
    obtain rfl := Option.some.inj hs
    exact hquiet (hreset.of_eq rfl rfl rfl rfl) rfl rfl

/-! ## The files at the start -/

/-- The sizes of the files that are the first for their address, when some were seen. -/
def first_sizes : List A → List (A × UInt64) → Nat
  | _, [] => 0
  | seen, p :: files =>
    if p.1 ∈ seen then first_sizes seen files else p.2.toNat + first_sizes (p.1 :: seen) files

/-- The sizes of the files that are not. -/
def repeated_sizes : List A → List (A × UInt64) → Nat
  | _, [] => 0
  | seen, p :: files =>
    if p.1 ∈ seen then p.2.toNat + repeated_sizes seen files
    else repeated_sizes (p.1 :: seen) files

/-- The files make no sum of 2^64, and those that are not the first for their address none that
shows. -/
def Listed (files : List (A × UInt64)) : Prop :=
  first_sizes [] files < 2 ^ 64 ∧ repeated_sizes [] files % 2 ^ 64 = 0

instance (files : List (A × UInt64)) : Decidable (Listed files) :=
  inferInstanceAs (Decidable (_ ∧ _))

theorem find_isSome_iff : (find a l).isSome ↔ ∃ c ∈ l, c.address = a := by
  unfold find
  rw [List.find?_isSome]
  simp

theorem find_emplace_isSome :
    (find a (emplace c l)).isSome ↔ a = c.address ∨ (find a l).isSome := by
  unfold emplace
  split_ifs with hc
  · constructor
    · exact .inr
    · rintro (rfl | h)
      · exact hc
      · exact h
  · have hmem : ∀ d, d ∈ place c l ↔ d = c ∨ d ∈ l := by
      intro d
      unfold place
      conv_rhs => rw [← List.takeWhile_append_dropWhile (p := fun d => d.last_used ≤ c.last_used)
        (l := l)]
      simp only [List.mem_append, List.mem_cons]
      tauto
    rw [find_isSome_iff, find_isSome_iff]
    simp only [hmem, or_and_right, exists_or, exists_eq_left, eq_comm (a := a)]

theorem load_sizes (files : List (A × UInt64)) {seen : List A}
    (hseen : ∀ a, (find a s._disk_cache).isSome ↔ a ∈ seen) :
    (s._load_disk_cache files)._disk_cache_used.toNat =
        (s._disk_cache_used.toNat + first_sizes seen files + repeated_sizes seen files) % 2 ^ 64 ∧
      sum (s._load_disk_cache files)._disk_cache =
        sum s._disk_cache + first_sizes seen files := by
  induction files generalizing s seen with
  | nil =>
    have hlt := s._disk_cache_used.toNat_lt
    simp only [_load_disk_cache, List.foldl_nil, first_sizes, repeated_sizes]
    omega
  | cons p files ih =>
    let t : Cache A :=
      { s with
        _disk_cache := emplace ⟨p.1, p.2, 0⟩ s._disk_cache
        _disk_cache_used := s._disk_cache_used + p.2 }
    have hstep : s._load_disk_cache (p :: files) = t._load_disk_cache files := rfl
    have hadd : t._disk_cache_used.toNat = (s._disk_cache_used.toNat + p.2.toNat) % 2 ^ 64 :=
      UInt64.toNat_add _ _
    have hsum : sum t._disk_cache = _ := sum_emplace
    have hfind : ∀ a, (find a t._disk_cache).isSome ↔ a = p.1 ∨ a ∈ seen := by
      intro a
      rw [← hseen a]
      exact find_emplace_isSome
    rw [hstep, first_sizes, repeated_sizes]
    split_ifs with hp
    · have hfound : (find p.1 s._disk_cache).isSome := (hseen p.1).mpr hp
      have hsame : ∀ a, (find a t._disk_cache).isSome ↔ a ∈ seen := by
        intro a
        rw [hfind a]
        constructor
        · rintro (rfl | h)
          · exact hp
          · exact h
        · exact .inr
      obtain ⟨hused', hsum'⟩ := ih hsame
      dsimp only at hsum
      rw [if_pos hfound] at hsum
      refine ⟨?_, by rw [hsum', hsum]⟩
      rw [hused', hadd]
      omega
    · have hnone : ¬(find p.1 s._disk_cache).isSome := fun h => hp ((hseen p.1).mp h)
      have hmore : ∀ a, (find a t._disk_cache).isSome ↔ a ∈ p.1 :: seen := by
        intro a
        rw [hfind a, List.mem_cons]
      obtain ⟨hused', hsum'⟩ := ih hmore
      dsimp only at hsum
      rw [if_neg hnone] at hsum
      refine ⟨?_, by rw [hsum', hsum]; omega⟩
      rw [hused', hadd]
      omega

theorem load_flags (files : List (A × UInt64)) :
    (s._load_disk_cache files).wrapped = s.wrapped ∧
      (s._load_disk_cache files).asserted = s.asserted ∧
      (s._load_disk_cache files).pushed = s.pushed := by
  induction files generalizing s with
  | nil => exact ⟨rfl, rfl, rfl⟩
  | cons p files ih => exact ih

variable {path : Bool} {disk_cache_size : UInt64} {cache_size : Nat} {files : List (A × UInt64)}

theorem accounted_start_iff :
    (start path disk_cache_size cache_size files).Accounted ↔
      (path = true → disk_cache_size ≠ 0 → Listed files) := by
  unfold start
  dsimp only
  set s : Cache A :=
    { _disk_cache_path := path
      _disk_cache_size := if path then disk_cache_size else 0
      _cache_size := cache_size } with hs
  have hempty : s.Accounted := ⟨⟨rfl, rfl, rfl⟩, fun h => nomatch h⟩
  by_cases hsize : (if path then disk_cache_size else 0) = 0
  · rw [if_pos hsize]
    simp only [hempty, true_iff]
    rintro rfl hne
    exact absurd hsize hne
  · rw [if_neg hsize]
    have hboth : path = true ∧ disk_cache_size ≠ 0 := by
      cases path with
      | false => exact absurd rfl hsize
      | true => exact ⟨rfl, hsize⟩
    have hseen : ∀ a, (find a s._disk_cache).isSome ↔ a ∈ ([] : List A) := by
      simp [hs, find]
    obtain ⟨hused, hsum⟩ := load_sizes files hseen
    obtain ⟨hwrapped, hasserted, hpushed⟩ := load_flags (s := s) files
    simp only [hboth.1, hboth.2, forall_const, ne_eq, not_false_eq_true]
    have hzero : s._disk_cache_used.toNat = 0 := rfl
    have hnone : sum s._disk_cache = 0 := rfl
    rw [hzero] at hused
    rw [hnone] at hsum
    unfold Listed
    constructor
    · intro h
      have heq := h.used
      omega
    · rintro ⟨hfirst, hrepeated⟩
      have hcounted : (s._load_disk_cache files).Counted :=
        ⟨by omega, hwrapped.trans rfl, hasserted.trans rfl⟩
      exact hcounted.accounted (hpushed.trans rfl)

/-- The accounts are right in each state of a run exactly when they are at the start, and each
block that is pushed is one that the cache does not have. -/
theorem accounts_are_right_iff
    (h : Run step anyStep (start path disk_cache_size cache_size files) as s) :
    (∀ done t, done <+: as →
        Run step anyStep (start path disk_cache_size cache_size files) done t → t.Accounted) ↔
      (path = true → disk_cache_size ≠ 0 → Listed files) ∧
        Run step Sparing (start path disk_cache_size cache_size files) as s := by
  have hrun := fun hstart => h.always_iff (I := Accounted) hstart (fun _ hs => hs)
    (fun _ _ _ hs hok hstep => (hs.step_iff hstep).mpr hok)
    fun _ _ _ hs _ hno hstep hright => hno ((hs.step_iff hstep).mp hright)
  rw [← accounted_start_iff]
  constructor
  · intro hall
    have hstart := hall [] _ (List.nil_prefix) Run.nil
    exact ⟨hstart, (hrun hstart).mp hall⟩
  · rintro ⟨hstart, hsparing⟩
    exact (hrun hstart).mpr hsparing

/-- A block is fetched and another one stored, for which the first one and the file that was there
are pruned. -/
def pruning : List (Int × Action Nat) :=
  [(1, .fetch 2), (2, .store 3), (3, .fetched 2 (some (.immutable_block 5))),
    (4, .stored 3 (some (.immutable_block 6))), (5, .remove 3)]

theorem the_accounts_of_a_pruned_cache_are_right : ∃ s : Cache Nat,
    Run step anyStep (start true 10 1 [(1, 4)]) pruning s ∧ s._disk_cache_used = 0 ∧
      ∀ done t, done <+: pruning →
        Run step anyStep (start true 10 1 [(1, 4)]) done t → t.Accounted := by
  have hexec : (exec step Sparing (start true 10 1 [(1, 4)]) pruning).map
      (fun s : Cache Nat => s._disk_cache_used) = some 0 := by
    decide +kernel
  obtain ⟨s, hrun, hs⟩ := Run.of_exec_map hexec
  have hany : Run step anyStep (start true 10 1 [(1, 4)]) pruning s :=
    hrun.mono fun _ _ _ => trivial
  have hlisted : Listed [((1 : Nat), (4 : UInt64))] := by decide
  exact ⟨s, hany, hs, (accounts_are_right_iff hany).mpr ⟨fun _ _ => hlisted, hrun⟩⟩

/-- Two fetches of a block are in progress, one of which does not look at those that are pending.
And two files stand for one address. -/
theorem a_block_is_counted_twice :
    (∃ s : Cache Nat, Run step anyStep (start true 100 1 [])
      [(1, .fetch_many [1]), (2, .fetch 1), (3, .fetched 1 (some (.immutable_block 5))),
        (4, .fetched_many 1 (some (.immutable_block 5)))] s ∧
        s._disk_cache_used = 10 ∧ sum s._disk_cache = 5 ∧ ¬s.Accounted) ∧
      ∃ s : Cache Nat, Run step anyStep (start true 5 1 [(1, 8), (1, 8)])
        [(1, .store 2), (2, .stored 2 (some (.immutable_block 1)))] s ∧ s.asserted = true := by
  constructor
  · have hexec : (exec step anyStep (start true 100 1 [])
        [(1, .fetch_many [1]), (2, .fetch 1), (3, .fetched 1 (some (.immutable_block 5))),
          (4, .fetched_many 1 (some (.immutable_block 5)))]).map
        (fun s : Cache Nat => (s._disk_cache_used, sum s._disk_cache)) = some (10, 5) := by
      decide +kernel
    obtain ⟨s, hrun, hs⟩ := Run.of_exec_map hexec
    obtain ⟨hused, hsum⟩ := Prod.mk.inj hs
    refine ⟨s, hrun, hused, hsum, fun haccounted => ?_⟩
    have heq := haccounted.used
    rw [hused, hsum] at heq
    cases heq
  · have hexec : (exec step anyStep (start true 5 1 [(1, 8), (1, 8)])
        [(1, .store 2), (2, .stored 2 (some (.immutable_block 1)))]).map
        (fun s : Cache Nat => s.asserted) = some true := by
      decide +kernel
    obtain ⟨s, hrun, hs⟩ := Run.of_exec_map hexec
    exact ⟨s, hrun, hs⟩

end Cache

end memo.consensus.disk_cache
