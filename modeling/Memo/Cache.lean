-- The cache in front of a consensus: `Cache.cc`. Mutable blocks are cached in memory, where
-- a thread refreshes them, and immutable ones on disk. A call of the backend takes place at
-- one moment between the moment it is made and the moment it returns.
import Mathlib.Data.List.Sort
import Memo.Stores

open stores

namespace memo.consensus

/-! ## Blocks -/

/-- The version of a block: none, if the block is immutable, or a number. -/
inductive Version where
  | none
  | of (v : Int)
deriving DecidableEq

namespace Version

/-- No version is below every number. -/
def le : Version → Version → Bool
  | none, _ => true
  | of _, none => false
  | of v, of w => decide (v ≤ w)

instance : LinearOrder Version where
  le v w := le v w = true
  le_refl v := by cases v <;> simp [le]
  le_trans u v w h h' := by
    cases u <;> cases v <;> cases w <;> simp_all [le]
    omega
  le_antisymm v w h h' := by
    cases v <;> cases w <;> simp_all [le]
    omega
  le_total v w := by
    cases v <;> cases w <;> simp [le]
    omega
  toDecidableLE v w := inferInstanceAs (Decidable (le v w = true))

instance : OrderBot Version where
  bot := none
  bot_le _ := rfl

end Version

/-- What the cache asks of blocks. An immutable block has no version, and whether an address is of
a mutable block shows in the address. `size` is that of the file that a block is saved to. -/
structure Cacheable (A B : Type) where
  address : B → A
  version : B → Version
  mutable_block : A → Bool
  valid : B → Bool
  size : B → Nat
  mutable_block_version : ∀ b, version b ≠ ⊥ ↔ mutable_block (address b) = true

variable {A B : Type} [DecidableEq A] {env : Cacheable A B} {p : B → Prop}

/-- Blocks that meet `p`, each at its address. -/
structure Shelf (env : Cacheable A B) (p : B → Prop) where
  blocks : Table A B
  stored : ∀ a b, find blocks a = some b → env.address b = a ∧ p b

namespace Shelf

def empty : Shelf env p := ⟨∅, fun _ _ h => by simp [find] at h⟩

def find (t : Shelf env p) (a : A) : Option B := stores.find t.blocks a

def add (b : B) (hb : p b) (t : Shelf env p) : Shelf env p where
  blocks := put (env.address b) (some b) t.blocks
  stored := by
    intro a b' h
    rw [find_put] at h
    by_cases ha : a = env.address b
    · rw [ha, Function.update_self, Option.some.injEq] at h
      exact h ▸ ⟨ha.symm, hb⟩
    · rw [Function.update_of_ne ha] at h
      exact t.stored a b' h

def remove (a : A) (t : Shelf env p) : Shelf env p where
  blocks := put a none t.blocks
  stored := by
    intro a' b h
    rw [find_put] at h
    by_cases ha : a' = a
    · rw [ha, Function.update_self] at h
      cases h
    · rw [Function.update_of_ne ha] at h
      exact t.stored a' b h

theorem find_add (b : B) (hb : p b) (t : Shelf env p) :
    (t.add b hb).find = Function.update t.find (env.address b) (some b) := find_put _ _ _

theorem find_remove (a : A) (t : Shelf env p) :
    (t.remove a).find = Function.update t.find a none := find_put _ _ _

theorem address_of_find {t : Shelf env p} {a : A} {b : B} (h : t.find a = some b) :
    env.address b = a := (t.stored a b h).1

end Shelf

/-! ## The cache -/

structure CachedBlock (B : Type) where
  block : B
  last_used : Int
  last_fetched : Int

structure CachedCHB (A : Type) where
  address : A
  size : Nat
  last_used : Int

namespace Cache

/-- A call of the backend: for a fetch that missed, for one of the addresses that a fetch of many
missed, for one of those that `_cleanup` refreshes since `now`, for a store with or without a
resolver, or for a removal. -/
inductive Call (A B : Type) where
  | fetch (address : A) (local_version : Option Int)
  | fetch_many (address : A)
  | refresh (address : A) (version : Version) (now : Int)
  | store (block : B) (resolver : Bool)
  | remove (address : A)

def Call.address (env : Cacheable A B) : Call A B → A
  | .fetch a _ | .fetch_many a | .refresh a _ _ | .remove a => a
  | .store b _ => env.address b

/-- What the backend answers: an error, nothing (the version is the one that was passed, or the
block was removed), or a block: the one that is fetched, or the one that was stored. -/
inductive Answer (B : Type) where
  | failed
  | null
  | block (b : B)

/-- What a fetch returns: an error, nothing as the version passed is that of the block, or a
block. -/
inductive Reply (B : Type) where
  | failed
  | same (version : Int)
  | block (b : B)

/-- A call that did not return yet. The last two say what happened: the floor of the address when
the fetch was started, and that what the call did was not undone since: a block that was stored
is not removed, a block that was removed is not created again. -/
structure Flight (A B : Type) where
  call : Call A B
  answer : Option (Answer B) := none
  floor : Version := ⊥
  live : Bool := true

/-- A fetch that waits for the barrier of another one. -/
structure Waiter (A : Type) where
  address : A
  local_version : Option Int
  floor : Version
  opened : Bool := false

/-- A fetch that returned. -/
structure Result (A B : Type) where
  address : A
  floor : Version
  reply : Reply B

end Cache

/-- `Cache`. `need_refresh` and `now` are those of `_cleanup`, `backend` is what the backend holds,
and `clock` the time. The last three say what happened: the greatest version of each block that
a local store returned with since the block was last removed, the fetches that returned, and the
blocks whose removal returned, as long as nobody stores them again. -/
structure Cache (env : Cacheable A B) where
  _cache_invalidation : Int
  _cache_ttl : Int
  _cache_size : Int
  _disk_cache_path : Option (Shelf env fun b => env.version b = ⊥)
  _disk_cache_size : Nat
  _disk_cache_used : Nat := 0
  _cache : List (CachedBlock B) := []
  _disk_cache : List (CachedCHB A) := []
  _pending : List A := []
  batch_size : Nat := 20
  need_refresh : List (A × Version) := []
  now : Int := 0
  backend : Shelf env fun _ => True
  clock : Int
  flights : List (Cache.Flight A B) := []
  waiters : List (Cache.Waiter A) := []
  floor : A → Version := fun _ => ⊥
  fetched : List (Cache.Result A B) := []
  gone : A → Bool := fun _ => false

namespace Cache

/-- `_load_disk_cache`. -/
def _load_disk_cache (s : Cache env) : Cache env :=
  match s._disk_cache_path with
  | none => s
  | some files =>
    { s with
      _disk_cache := files.blocks.entries.map fun e =>
        { address := e.1, size := env.size e.2, last_used := 0 }
      _disk_cache_used := s._disk_cache_used + weight env.size files.blocks }

/-- The attributes that `Cache::Cache` starts with. -/
def start (backend : Shelf env fun _ => True) (cache_size : Option Int)
    (cache_invalidation cache_ttl : Option Int)
    (disk_cache_path : Option (Shelf env fun b => env.version b = ⊥))
    (disk_cache_size : Option Nat) (clock : Int) : Cache env where
  _cache_invalidation := cache_invalidation.getD 15
  _cache_ttl := cache_ttl.getD 300
  _cache_size := cache_size.getD 67108864
  _disk_cache_path := disk_cache_path
  _disk_cache_size := if disk_cache_path.isNone then 0 else disk_cache_size.getD 536870912
  backend := backend
  clock := clock

/-- What is loaded if there is room for a file. -/
def loaded (s : Cache env) : Cache env :=
  if s._disk_cache_size ≠ 0 then s._load_disk_cache else s

/-- `Cache::Cache`, over what the backend holds and a directory that was written to before. -/
def new (backend : Shelf env fun _ => True) (cache_size : Option Int := none)
    (cache_invalidation cache_ttl : Option Int := none)
    (disk_cache_path : Option (Shelf env fun b => env.version b = ⊥) := none)
    (disk_cache_size : Option Nat := none) (clock : Int := 0) : Cache env :=
  (start backend cache_size cache_invalidation cache_ttl disk_cache_path disk_cache_size
    clock).loaded

/-- `_cache.find`. -/
def cached (s : Cache env) (a : A) : Option (CachedBlock B) :=
  s._cache.find? fun c => env.address c.block = a

/-- `_disk_cache.find`. -/
def on_disk (s : Cache env) (a : A) : Option (CachedCHB A) :=
  s._disk_cache.find? fun c => c.address = a

/-- The entry of an address is changed, if there is one. -/
def modify (a : A) (f : CachedBlock B → CachedBlock B) (s : Cache env) : Cache env :=
  { s with _cache := s._cache.map fun c => if env.address c.block = a then f c else c }

/-- `_cache.emplace`: an entry that is there stays. -/
def emplace (b : B) (s : Cache env) : Cache env :=
  if (s.cached (env.address b)).isSome then s
  else
    { s with
      _cache := s._cache ++ [{ block := b, last_used := s.clock, last_fetched := s.clock }] }

/-- `Cache::insert`: an entry that is there is replaced. -/
def insert (b : B) (s : Cache env) : Cache env :=
  if (s.cached (env.address b)).isSome then
    s.modify (env.address b) fun _ =>
      { block := b, last_used := s.clock, last_fetched := s.clock }
  else s.emplace b

/-- The file of a block is removed, and its entry. -/
def drop_file (c : CachedCHB A) (s : Cache env) : Cache env :=
  { s with
    _disk_cache_used := s._disk_cache_used - c.size
    _disk_cache_path := s._disk_cache_path.map fun files => files.remove c.address
    _disk_cache := s._disk_cache.filter fun c' => c'.address ≠ c.address }

/-- The end of `_disk_cache_push`: files are removed while there are too many, and it is asserted
that there are some. It is true if the assertion holds. -/
def prune : List (CachedCHB A) → Cache env → Bool × Cache env
  | [], s => (decide (s._disk_cache_used ≤ s._disk_cache_size), s)
  | c :: order, s =>
    if s._disk_cache_used ≤ s._disk_cache_size then (true, s) else prune order (s.drop_file c)

/-- The file of a block is written. The size is added also if the block was there. -/
def add_file (b : B) (hb : env.version b = ⊥) (files : Shelf env fun b => env.version b = ⊥)
    (s : Cache env) : Cache env :=
  { s with
    _disk_cache_path := some (files.add b hb)
    _disk_cache :=
      if (s.on_disk (env.address b)).isSome then s._disk_cache
      else
        s._disk_cache ++
          [{ address := env.address b, size := env.size b, last_used := s.clock }]
    _disk_cache_used := s._disk_cache_used + env.size b }

/-- The files, those used last at the end. -/
def by_use (s : Cache env) : List (CachedCHB A) :=
  s._disk_cache.insertionSort fun c c' => c.last_used ≤ c'.last_used

/-- `_disk_cache_push`. It is false if the assertion fails. -/
def _disk_cache_push (b : B) (hb : env.version b = ⊥) (s : Cache env) : Bool × Cache env :=
  match s._disk_cache_path with
  | none => (true, s)
  | some files => prune (s.add_file b hb files).by_use (s.add_file b hb files)

/-- `_insert_cache`. It is false if it throws. -/
def _insert_cache (b : B) (s : Cache env) : Bool × Cache env :=
  if env.valid b = false then (false, s)
  else if h : env.version b = ⊥ then
    if s._disk_cache_size ≠ 0 then s._disk_cache_push b h else (true, s)
  else if s._cache_size ≠ 0 then (true, s.emplace b)
  else (true, s)

/-! ## Requests -/

/-- What `_fetch_cache` finds in the caches. A file that is not there cannot be read. -/
def _fetch_cache (a : A) (local_version : Option Int) (s : Cache env) :
    Option (Reply B × Cache env) :=
  match s.cached a with
  | some hit =>
    let s := s.modify a fun c => { c with last_used := s.clock }
    match local_version with
    | some v => some (if env.version hit.block = .of v then .same v else .block hit.block, s)
    | none => some (.block hit.block, s)
  | none =>
    match s.on_disk a with
    | some _ =>
      match s._disk_cache_path.bind fun files => files.find a with
      | some b =>
        some (.block b,
          { s with
            _disk_cache := s._disk_cache.map fun c =>
              if c.address = a then { c with last_used := s.clock } else c })
      | none => some (.failed, s)
    | none => none

def reply (a : A) (floor : Version) (r : Reply B) (s : Cache env) : Cache env :=
  { s with fetched := s.fetched ++ [{ address := a, floor := floor, reply := r }] }

def send (f : Flight A B) (s : Cache env) : Cache env := { s with flights := s.flights ++ [f] }

/-- `_fetch` of an address, for a fetch that started when the floor was `floor`. -/
def _fetch (a : A) (local_version : Option Int) (floor : Version) (s : Cache env) :
    Cache env :=
  match s._fetch_cache a local_version with
  | some (r, s) => s.reply a floor r
  | none =>
    if a ∈ s._pending then
      { s with
        waiters := s.waiters ++ [{ address := a, local_version := local_version, floor := floor }] }
    else
      { s with _pending := a :: s._pending }.send
        { call := .fetch a local_version, floor := floor }

/-- `_fetch` of many addresses. A file that cannot be read ends it. -/
def _fetch_many : List (A × Option Int) → List A → Cache env → Cache env
  | [], missing, s =>
    { s with
      flights := s.flights ++ missing.map fun a => { call := .fetch_many a, floor := s.floor a } }
  | (a, local_version) :: addresses, missing, s =>
    match s._fetch_cache a local_version with
    | some (.failed, s) => s.reply a (s.floor a) .failed
    | some (r, s) => _fetch_many addresses missing (s.reply a (s.floor a) r)
    | none => _fetch_many addresses (missing ++ [a]) s

/-- `_store`, up to the call of the backend. -/
def _store (b : B) (resolver : Bool) (s : Cache env) : Cache env :=
  { s with gone := Function.update s.gone (env.address b) false }.send
    { call := .store b resolver }

/-- The caches are dropped on exclusive branches. -/
def drop (a : A) (s : Cache env) : Cache env :=
  if (s.cached a).isSome then
    { s with _cache := s._cache.filter fun c => env.address c.block ≠ a }
  else
    match s.on_disk a with
    | some c => s.drop_file c
    | none => s

/-- `_remove`, up to the call of the backend. -/
def _remove (a : A) (s : Cache env) : Cache env := (s.drop a).send { call := .remove a }

/-! ## The thread -/

def Call.is_refresh : Call A B → Bool
  | .refresh .. => true
  | _ => false

/-- The thread does not wait for a batch. -/
def idle (s : Cache env) : Bool := s.flights.all fun f => !f.call.is_refresh

/-- Blocks that were not used for long are evicted, and those fetched long ago are to be
refreshed: the oldest first, and up to one that is not mutable. -/
def _cleanup (s : Cache env) : Cache env :=
  let kept := s._cache.filter fun c => ¬ c.last_used < s.clock - s._cache_ttl
  let obsolete := (kept.insertionSort fun c c' => c.last_fetched ≤ c'.last_fetched).takeWhile
    fun c => c.last_fetched < s.clock - s._cache_invalidation ∧ env.version c.block ≠ ⊥
  { s with
    _cache := kept
    now := s.clock
    need_refresh := obsolete.map fun c => (env.address c.block, env.version c.block) }

/-- The next batch is sent. -/
def batch (s : Cache env) : Cache env :=
  { s with
    need_refresh := s.need_refresh.drop s.batch_size
    flights := s.flights ++ (s.need_refresh.take s.batch_size).map fun av =>
      { call := .refresh av.1 av.2 s.now } }

/-! ## The backend -/

/-- The version of the block that the backend holds. -/
def held (s : Cache env) (a : A) : Version := (s.backend.find a).elim ⊥ env.version

/-- What was stored is removed, or what was removed is created again. -/
def Flight.undone (stores : Bool) (f : Flight A B) : Flight A B :=
  match f.call, f.answer with
  | .store .., some _ => { f with live := f.live && !stores }
  | .remove _, some _ => { f with live := f.live && stores }
  | _, _ => f

/-- The backend holds another block, whose version is not lower. -/
def stored (b : B) (s : Cache env) : Option (Cache env) :=
  if s.held (env.address b) ≤ env.version b then
    some { s with backend := s.backend.add b trivial }
  else none

/-- The backend does not hold the block any more, and its floor is void. -/
def removed (a : A) (s : Cache env) : Cache env :=
  { s with
    backend := s.backend.remove a
    floor := Function.update s.floor a ⊥
    flights := s.flights.map fun f =>
      if f.call.address env = a then { f.undone true with floor := ⊥ } else f
    waiters := s.waiters.map fun w => if w.address = a then { w with floor := ⊥ } else w }

/-- The block is not gone any more. -/
def back (a : A) (s : Cache env) : Cache env :=
  { s with
    gone := Function.update s.gone a false
    flights := s.flights.map fun f => if f.call.address env = a then f.undone false else f }

/-- Another node stores a block. -/
def created (b : B) (s : Cache env) : Option (Cache env) := (s.back (env.address b)).stored b

/-- How the backend takes a call: it fails, tells that the version is the one that was passed,
does what it is asked, or stores what the resolver makes of the block. -/
inductive Served (B : Type) where
  | failed
  | same
  | served
  | resolved (b : B)

/-- What a fetch gives. A block that is missing cannot be fetched. -/
def found (s : Cache env) (a : A) : Answer B :=
  match s.backend.find a with
  | some b => .block b
  | none => .failed

/-- The call takes place. -/
def serve : Call A B → Served B → Cache env → Option (Answer B × Cache env)
  | _, .failed, s => some (.failed, s)
  | .fetch a _, .served, s | .fetch_many a, .served, s | .refresh a _ _, .served, s =>
    some (s.found a, s)
  | .refresh a v _, .same, s =>
    if (s.backend.find a).map env.version = some v then some (.null, s) else none
  | .store b _, .served, s => (s.stored b).map fun s => (.block b, s)
  | .store b true, .resolved r, s =>
    if env.address r = env.address b then (s.stored r).map fun s => (.block r, s) else none
  | .remove a, .served, s => some (.null, s.removed a)
  | _, _, _ => none

/-- A call that is made takes place. -/
def answer (i : Nat) (how : Served B) (s : Cache env) : Option (Cache env) :=
  match s.flights[i]? with
  | none => none
  | some f =>
    if f.answer.isSome then none
    else
      (serve f.call how s).map fun (r, s) =>
        { s with flights := s.flights.set i { f with answer := some r } }

/-! ## The return of a call -/

/-- The fetch that missed is over: those that wait for it go on. -/
def opens (a : A) (s : Cache env) : Cache env :=
  { s with
    _pending := s._pending.filter fun a' => a' ≠ a
    waiters := s.waiters.map fun w => if w.address = a then { w with opened := true } else w }

/-- What a fetch that missed returns. -/
def missed (env : Cacheable A B) (local_version : Option Int) (b : B) : Reply B :=
  match local_version with
  | some v => if env.version b = .of v then .same v else .block b
  | none => .block b

/-- `_fetch_cache` after the call of the backend. The block is not returned if it cannot be
inserted. -/
def fetch_returns (a : A) (local_version : Option Int) (floor : Version) (r : Answer B)
    (s : Cache env) : Cache env :=
  match r with
  | .block b =>
    ((s._insert_cache b).2.opens a).reply a floor
      (if (s._insert_cache b).1 then missed env local_version b else .failed)
  | _ => (s.opens a).reply a floor .failed

/-- What `_fetch` of many passes to the backend. -/
def fetch_many_returns (a : A) (floor : Version) (r : Answer B) (s : Cache env) :
    Cache env :=
  match r with
  | .block b =>
    (s._insert_cache b).2.reply a floor (if (s._insert_cache b).1 then .block b else .failed)
  | _ => s.reply a floor .failed

/-- What `_cleanup` passes to the backend: a block is dropped on an error, and replaced by what was
fetched if it is there. -/
def refresh_returns (a : A) (now : Int) (r : Answer B) (s : Cache env) : Cache env :=
  match r with
  | .failed => { s with _cache := s._cache.filter fun c => env.address c.block ≠ a }
  | .null => s.modify a fun c => { c with last_fetched := now }
  | .block b => s.modify a fun c => { c with block := b, last_fetched := now }

/-- `_store` after the call of the backend. It is cached whatever the size of the cache. -/
def store_returns (live : Bool) (r : Answer B) (s : Cache env) : Cache env :=
  match r with
  | .block b =>
    if h : env.version b = ⊥ then (s._disk_cache_push b h).2
    else
      let s := s.insert b
      let a := env.address b
      { s with
        floor :=
          if live then Function.update s.floor a (max (s.floor a) (env.version b)) else s.floor }
  | _ => s

def remove_returns (a : A) (live : Bool) (r : Answer B) (s : Cache env) : Cache env :=
  match r with
  | .null => { s with gone := Function.update s.gone a (s.gone a || live) }
  | _ => s

def Flight.returns (f : Flight A B) (r : Answer B) (s : Cache env) : Cache env :=
  match f.call with
  | .fetch a local_version => s.fetch_returns a local_version f.floor r
  | .fetch_many a => s.fetch_many_returns a f.floor r
  | .refresh a _ now => s.refresh_returns a now r
  | .store _ _ => s.store_returns f.live r
  | .remove a => s.remove_returns a f.live r

/-- The call returns, and what called the backend goes on. -/
def returns (i : Nat) (s : Cache env) : Option (Cache env) :=
  match s.flights[i]? with
  | none => none
  | some f => f.answer.map fun r => f.returns r { s with flights := s.flights.eraseIdx i }

/-- A fetch that waited starts over. -/
def resume (i : Nat) (s : Cache env) : Option (Cache env) :=
  match s.waiters[i]? with
  | none => none
  | some w =>
    if w.opened then
      some ({ s with waiters := s.waiters.eraseIdx i }._fetch w.address w.local_version w.floor)
    else none

/-! ## Steps -/

/-- What can happen next: a request, a step of the thread, a step of a call, a store or a removal
by another node, or time that goes by. -/
inductive Action (A B : Type) where
  | fetch (address : A) (local_version : Option Int := none)
  | fetch_many (addresses : List (A × Option Int))
  | store (block : B) (resolver : Bool := false)
  | remove (address : A)
  | insert (block : B)
  | clear
  | cleanup
  | batch
  | answer (call : Nat) (how : Served B := .served)
  | returns (call : Nat)
  | resume (waiter : Nat)
  | created (block : B)
  | removed (address : A)
  | wait (d : Nat)

def step (s : Cache env) : Action A B → Option (Cache env)
  | .fetch a local_version => some (s._fetch a local_version (s.floor a))
  | .fetch_many addresses => some (s._fetch_many addresses [])
  | .store b resolver => some (s._store b resolver)
  | .remove a => some (s._remove a)
  | .insert b => some (s.insert b)
  | .clear => some { s with _cache := [] }
  | .cleanup => if s.idle ∧ s.need_refresh = [] then some s._cleanup else none
  | .batch => if s.idle ∧ s.need_refresh ≠ [] then some s.batch else none
  | .answer i how => s.answer i how
  | .returns i => s.returns i
  | .resume i => s.resume i
  | .created b => s.created b
  | .removed a => some (s.removed a)
  | .wait d => some { s with clock := s.clock + d }

end Cache

end memo.consensus
