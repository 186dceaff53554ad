-- Writes that are queued: `Async.cc`. An operation is kept in memory, or in a journal only
-- when the queue is full, until a loop sends it to the backend. A new operation may be
-- squashed with one on the same address that is still pending.
import Mathlib.Data.Int.Bitwise
import Mathlib.Data.List.Sort
import Memo.LocalPeer
import Memo.Stores

open stores

namespace memo.consensus

/-! ## Operations -/

/-- What a resolver answers about an operation that is pending. -/
inductive Squash where
  | stop
  | skip
  | at_first_position_stop
  | at_last_position_stop
  | at_first_position_continue
  | at_last_position_continue
deriving DecidableEq

/-- The merged operation takes the place of the pending one. -/
def Squash.first : Squash → Bool
  | .at_first_position_stop | .at_first_position_continue => true
  | _ => false

/-- `Async::Op`. A store has a mode, a removal a signature. The resolver is a list: empty for none,
of one for a resolver, of more for a `MergeConflictResolver`. `pushes` numbers the calls that the
operation stands for; the last is the one whose block it carries. -/
structure Op (A B R S : Type) where
  address : A
  block : Option B := none
  mode : Option StoreMode := none
  resolver : List R := []
  remove_signature : S
  index : Int := -1
  version : Int := -1
  pushes : List Nat := []

/-- What the queue asks of blocks and resolvers. `version` is what an operation holds as its version
once it was moved, and any number if neither block is mutable; `sealed_at` is `seal(version)` of an
ACB, and keeps another block. -/
structure Blocks (A B D R S : Type) where
  address : B → A
  data : B → D
  version : Option B → S → Int
  sealed : B → B
  sealed_at : B → Int → B
  squashable : R → List R → Squash
  max_squash_size : Nat := 20
  data_sealed : ∀ b, data (sealed b) = data b
  data_sealed_at : ∀ b v, data (sealed_at b v) = data b

variable {A B D R S : Type} [DecidableEq A] [Inhabited S]

/-- `ConflictResolver::squashable(ConflictResolver&)`. -/
def Blocks.squash (env : Blocks A B D R S) (r : R) (prev : List R) : Squash :=
  if prev.length < 2 ∨ prev.length < env.max_squash_size then env.squashable r prev else .stop

/-- A move of an operation. -/
def Op.moved (env : Blocks A B D R S) (op : Op A B R S) : Op A B R S :=
  { op with version := env.version op.block op.remove_signature }

/-- `_operations`, by their index. An index that is there is not inserted again. -/
def emplace (op : Op A B R S) : List (Op A B R S) → List (Op A B R S)
  | [] => [op]
  | o :: ops =>
    if op.index < o.index then op :: o :: ops
    else if op.index = o.index then o :: ops
    else o :: emplace op ops

/-! ## The journal -/

/-- A file of the journal: an operation, or nothing that can be read. -/
abbrev File (A B R S : Type) : Type := Option (Op A B R S)

/-- What the queue does to the journal. A file that is opened is empty until it is written. -/
inductive Fs (A B R S : Type) where
  | truncate (index : Int)
  | write (index : Int) (op : Op A B R S)
  | remove (index : Int)

def Fs.run (t : Table Int (File A B R S)) : Fs A B R S → Table Int (File A B R S)
  | .truncate index => put index (some none) t
  | .write index op => put index (some (some op)) t
  | .remove index => put index none t

/-- An operation is written to its file. -/
def saved (op : Op A B R S) : List (Fs A B R S) := [.truncate op.index, .write op.index op]

/-- `Async::entries`: the numbers of the files, in order. -/
def entries (t : Table Int (File A B R S)) : List Int := t.keys.insertionSort (· ≤ ·)

/-- What `_load_op` makes of an operation that is read, wholly or just for its address. -/
def Op.loaded (env : Blocks A B D R S) (id : Int) (signature : Bool) (op : Op A B R S) :
    Op A B R S :=
  if signature then
    { op with
      block := op.block.map env.sealed, index := id
      version := env.version op.block op.remove_signature }
  else
    { address := op.address, remove_signature := default, index := id, pushes := op.pushes }

/-! ## The queue -/

/-- Where `_process_loop` is: before it looks for operations to reload, in `_queue.get()`, in a call
of the backend, between two attempts, or stopped by its assertion. -/
inductive Loop (A B R S : Type) where
  | top
  | getting
  | calling (op : Op A B R S)
  | sleeping (op : Op A B R S)
  | aborted

/-- `Async`. `waiting` is the operation whose index `_queue.put` has no room for, which makes
`_in_push` true, and `flushing` that the operations that entered since are being queued. The last
three say what happened: the operations that were pushed, those that were sent to the backend, each
attempt, and those that it executed. -/
structure Async (A B R S : Type) where
  squash_enabled : Bool := true
  max_size : Int
  _journal_dir : Option (Table Int (File A B R S))
  _operations : List (Op A B R S) := []
  _queue : List Int := []
  _next_index : Int := 1
  _last_processed_index : Int := 0
  _first_disk_index : Option Int := none
  waiting : Option (Op A B R S) := none
  flushing : Bool := false
  _reentered_ops : List (Op A B R S) := []
  loop : Loop A B R S := .top
  pushed : List (Op A B R S) := []
  sent : List (Op A B R S) := []
  done : List (Op A B R S) := []

namespace Async

variable (env : Blocks A B D R S)

/-- Changes of the journal, if there is one. -/
def fs (actions : List (Fs A B R S)) (s : Async A B R S) : Async A B R S :=
  { s with _journal_dir := s._journal_dir.map fun t => actions.foldl Fs.run t }

/-- `_queue.size()` is at its bound. -/
def Full (s : Async A B R S) : Prop := s.max_size ≤ s._queue.length

instance (s : Async A B R S) : Decidable s.Full := inferInstanceAs (Decidable (_ ≤ _))

/-- `_load_op`: it fails on a file that is missing or was not written. -/
def _load_op (s : Async A B R S) (id : Int) (signature : Bool := true) : Option (Op A B R S) :=
  (s._journal_dir.bind fun t => (find t id).join).map fun op => op.loaded env id signature

def put_index (index : Int) (s : Async A B R S) : Async A B R S :=
  { s with _queue := s._queue ++ [index] }

def emplace_op (op : Op A B R S) (s : Async A B R S) : Async A B R S :=
  { s with _operations := emplace (op.moved env) s._operations }

/-! ## A push -/

/-- The operations that may be squashed, the last one first: those on the address, but for the head
of the queue. -/
def candidates (s : Async A B R S) (address : A) : List (Op A B R S) :=
  match s._operations with
  | [] => []
  | current :: _ =>
    (s._operations.filter fun op => op.address = address ∧ op.index ≠ current.index).reverse

/-- The loop over the candidates. -/
def search (r : R) : List (Op A B R S) → Option (Op A B R S × Squash) →
    Option (Op A B R S × Squash)
  | [], last_candidate => last_candidate
  | cop :: candidates, last_candidate =>
    if cop.resolver = [] then search r candidates last_candidate
    else
      match env.squash r cop.resolver with
      | .stop => last_candidate
      | .skip => search r candidates last_candidate
      | .at_first_position_stop => some (cop, .at_first_position_stop)
      | .at_last_position_stop => some (cop, .at_last_position_stop)
      | .at_first_position_continue =>
        search r candidates (some (cop, .at_first_position_continue))
      | .at_last_position_continue =>
        search r candidates (some (cop, .at_last_position_continue))

/-- The pending operation that a new one is squashed with, and how. -/
def squash (s : Async A B R S) (op : Op A B R S) : Option (Op A B R S × Squash) :=
  match op.resolver with
  | [] => none
  | r :: _ => if s.squash_enabled then search env r (s.candidates op.address) none else none

/-- The block of a squashed operation has the version of the first one. -/
def resealed (cop op : Op A B R S) : Option B := op.block.map fun b => env.sealed_at b cop.version

/-- The operation that takes the place of `cop`. -/
def merged_first (cop op : Op A B R S) : Op A B R S :=
  { cop with
    block := resealed env cop op, mode := op.mode, remove_signature := op.remove_signature
    resolver := cop.resolver ++ op.resolver, pushes := cop.pushes ++ op.pushes }

/-- The operation that is pushed instead of `cop` and `op`. -/
def merged_last (cop op : Op A B R S) : Op A B R S :=
  { op with
    block := resealed env cop op, resolver := cop.resolver ++ op.resolver
    pushes := cop.pushes ++ op.pushes }

/-- Squash at the first position. -/
def overwrite (cop op : Op A B R S) (s : Async A B R S) : Async A B R S :=
  let merged := merged_first env cop op
  fs (saved merged)
    { s with _operations :=
        s._operations.map fun o => if o.index = cop.index then merged else o }

/-- Squash at the last position: `cop` goes, in memory and in the journal. -/
def erase (cop : Op A B R S) (s : Async A B R S) : Async A B R S :=
  let lastidx := (s._operations.getLast?.map Op.index).getD 0
  fs [.remove cop.index]
    { s with
      _operations := s._operations.filter fun o => o.index ≠ cop.index
      _first_disk_index :=
        if s._first_disk_index = some cop.index then
          if lastidx < cop.index + 1 then none else some (cop.index + 1)
        else
          s._first_disk_index }

/-- The function `queue` of `_push_op`, unless `_queue.put` has to wait. -/
def queue (op : Op A B R S) (s : Async A B R S) : Option (Async A B R S) :=
  match s._first_disk_index with
  | some _ => some (s.emplace_op env { op with block := none })
  | none =>
    if s.Full then
      if s._journal_dir.isSome then
        some
          ({ s with _first_disk_index := some op.index }.emplace_op env { op with block := none })
      else
        none
    else
      some ((s.put_index op.index).emplace_op env op)

/-- The operations that entered while another one waited are queued after it. -/
def flush : List (Op A B R S) → Async A B R S → Async A B R S
  | [], s => { s with waiting := none, flushing := false, _reentered_ops := [] }
  | op :: ops, s =>
    match queue env op s with
    | some s => flush ops s
    | none => { s with waiting := some op, flushing := true, _reentered_ops := ops }

/-- What follows the squash. While the operations that entered are being queued, one more would
invalidate the loop over them: what the source does then is not defined. -/
def enqueue (op : Op A B R S) (s : Async A B R S) : Option (Async A B R S) :=
  let op := { op with index := s._next_index + 1 }
  let s := fs (saved op) { s with _next_index := s._next_index + 1 }
  match s.waiting with
  | some _ =>
    if s.flushing then none else some { s with _reentered_ops := s._reentered_ops ++ [op] }
  | none => some ((queue env op s).getD { s with waiting := some op })

/-- `_push_op`. -/
def _push_op (op : Op A B R S) (s : Async A B R S) : Option (Async A B R S) :=
  match squash env s op with
  | none => enqueue env op s
  | some (cop, order) =>
    if order.first then some (overwrite env cop op s)
    else enqueue env (merged_last env cop op) (s.erase cop)

/-- An operation with the next number. -/
def numbered (s : Async A B R S) (op : Op A B R S) : Op A B R S :=
  { op with pushes := [s.pushed.length] }

/-- A call that pushes an operation. -/
def push (op : Op A B R S) (s : Async A B R S) : Option (Async A B R S) :=
  _push_op env (s.numbered op) { s with pushed := s.pushed ++ [s.numbered op] }

/-- The operation of a store. -/
def stored (block : B) (mode : StoreMode) (resolver : Option R) : Op A B R S :=
  { address := env.address block, block := some block, mode := some mode
    resolver := resolver.toList, remove_signature := default }

/-- The operation of a removal. -/
def removal (address : A) (rs : S) : Op A B R S := { address, remove_signature := rs }

/-- `_store`. -/
def _store (block : B) (mode : StoreMode) (resolver : Option R) (s : Async A B R S) :
    Option (Async A B R S) :=
  push env (stored env block mode resolver) s

/-- `_remove`. -/
def _remove (address : A) (rs : S) (s : Async A B R S) : Option (Async A B R S) :=
  push env (removal address rs) s

/-! ## The loop -/

/-- The loop of `_load_operations`, over what is in `_operations` from the first one on disk. -/
def reload : List (Op A B R S) → Async A B R S → Async A B R S
  | [], s => { s with _first_disk_index := none }
  | op :: ops, s =>
    if s.Full then { s with _first_disk_index := some op.index }
    else
      match s._load_op env op.index with
      | none => reload ops s
      | some l =>
        let modified : Op A B R S :=
          { op with
            block := l.block, mode := l.mode, resolver := l.resolver
            remove_signature := l.remove_signature }
        reload ops
          { s.put_index op.index with
            _operations := s._operations.map fun o => if o.index = op.index then modified else o }

/-- `_load_operations`. -/
def _load_operations (s : Async A B R S) : Async A B R S :=
  match s._journal_dir, s._first_disk_index with
  | some _, some first =>
    reload env (s._operations.dropWhile fun op => op.index ≠ first) s
  | _, _ => s

/-- The first attempt of `_process_operation`. A store moves the block and the resolver away. -/
def call (op : Op A B R S) (ops : List (Op A B R S)) (s : Async A B R S) : Async A B R S :=
  { s with
    loop := .calling op
    sent := s.sent ++ [op]
    _operations :=
      if op.mode.isSome then { op with block := none, resolver := [] } :: ops else op :: ops }

/-- `_queue.get()` until the index is that of an operation. -/
def get : List Int → Async A B R S → Async A B R S
  | [], s => { s with _queue := [], loop := .getting }
  | index :: rest, s =>
    match s._operations with
    | [] => get rest s
    | op :: ops =>
      if index < op.index then get rest s
      else if op.index = index then { s with _queue := rest }.call op ops
      else { s with _queue := rest, loop := .aborted }

/-- The loop up to its call of the backend. -/
def turn (s : Async A B R S) : Option (Async A B R S) :=
  match s.loop with
  | .top =>
    let s :=
      if (s._queue.length : Int) ≤ s.max_size.tdiv 2 ∧ s._first_disk_index.isSome then
        s._load_operations env
      else
        s
    some (get s._queue s)
  | .getting => if s._queue = [] then none else some (get s._queue s)
  | _ => none

/-- The operation is over. -/
def processed (op : Op A B R S) (s : Async A B R S) : Async A B R S :=
  let s := fs [.remove op.index]
    { s with
      loop := .top
      _last_processed_index :=
        if s._journal_dir.isSome then op.index else s._last_processed_index }
  { s with _operations := s._operations.filter fun o => o.index ≠ op.index }

/-- Another attempt, with what the journal holds. If that cannot be read, the operation is over. -/
def retry (op : Op A B R S) (s : Async A B R S) : Async A B R S :=
  match s._load_op env op.index with
  | none => s.processed op
  | some l =>
    let l := { l with address := op.address, mode := op.mode, pushes := op.pushes }
    { s with loop := .calling l, sent := s.sent ++ [l] }

/-! ## The start -/

/-- The loop of `_init`. -/
def restore : List Int → Async A B R S → Async A B R S
  | [], s => s
  | id :: ids, s =>
    match s._load_op env id (¬s.Full) with
    | none => restore ids s
    | some op =>
      let s := { s with _next_index := max id s._next_index }
      restore ids
        (if s.Full then
          { s with _first_disk_index := some (s._first_disk_index.getD op.index) }.emplace_op env
            { op with block := none }
        else
          (s.put_index op.index).emplace_op env op)

/-- The constructor and `_init`. The operations of the journal count as pushed. -/
def new (squash_enabled : Bool) (max_size : Int)
    (_journal_dir : Option (Table Int (File A B R S))) : Async A B R S :=
  restore env ((_journal_dir.map entries).getD [])
    { squash_enabled, _journal_dir, max_size := if max_size = 0 then 2 ^ 31 - 1 else max_size
      pushed := (_journal_dir.map fun t =>
        (entries t).filterMap fun id => (find t id).join).getD [] }

/-! ## Steps -/

end Async

/-- A call of the queue, a `_queue.put` that goes on, a turn of the loop, the answer of the backend,
and the end of the sleep after a failure. An answer is also good if the block is missing already, or
if the backend has the same data. -/
inductive Action (A B R S : Type) where
  | store (block : B) (mode : StoreMode) (resolver : Option R)
  | remove (address : A) (rs : S)
  | room
  | turn
  | answer (ok : Bool)
  | retry

namespace Async

variable (env : Blocks A B D R S)

/-- A step, if it can be taken. -/
def step (s : Async A B R S) : Action A B R S → Option (Async A B R S)
  | .store block mode resolver => s._store env block mode resolver
  | .remove address rs => s._remove env address rs
  | .room =>
    s.waiting.bind fun op => (s.queue env op).map fun s => flush env s._reentered_ops s
  | .turn => s.turn env
  | .answer ok =>
    match s.loop with
    | .calling op =>
      some (if ok then { s with done := s.done ++ [op] }.processed op
        else { s with loop := .sleeping op })
    | _ => none
  | .retry =>
    match s.loop with
    | .sleeping op => some (s.retry env op)
    | _ => none

/-- Where an operation can still be: in `_operations`, or on its way to it. -/
def pending (s : Async A B R S) : List (Op A B R S) :=
  s._operations ++ s.waiting.toList ++ s._reentered_ops

end Async

end memo.consensus
