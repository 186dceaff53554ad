-- The key-value store: `kvs/src/server/server.go`. The keys are in one root block, each with
-- the address of a block that holds its value. Requests of any number of servers take turns at
-- their calls of the value store.
import Memo.Runs
import Memo.Stores

open stores

namespace memo.kvs

/-! ## The data -/

abbrev Key : Type := List Char

/-- `data.ValueStore`. An address without bytes is nil. -/
structure ValueStore (A : Type) where
  address : Option A
deriving DecidableEq

/-- `data.ValueDescriptor`. -/
structure ValueDescriptor (A : Type) where
  current : Option (ValueStore A)
deriving DecidableEq

/-- `data.KeyMap`. -/
abbrev KeyMap (A : Type) : Type := Table Key (ValueDescriptor A)

/-- The root block, with what its data decodes to. -/
structure Block (A : Type) where
  version : Int
  map : KeyMap A

inductive OperationType where
  | INSERT
  | UPDATE
  | UPSERT
  | DELETE
deriving DecidableEq

structure Operation (A : Type) where
  opType : OperationType
  key : Key
  store : ValueStore A := { address := none }
deriving DecidableEq

/-- The code of an error. `Other` is that of an error of the value store which is passed on as it
is. -/
inductive Code where
  | Other
  | InvalidArgument
  | Internal
  | AlreadyExists
  | NotFound
deriving DecidableEq

/-- The error that an operation ends with when the map does not allow it. -/
inductive Refusal where
  | AlreadyExistsError (key : Key)
  | DoesNotExistError (key : Key)
deriving DecidableEq

def Refusal.code : Refusal → Code
  | .AlreadyExistsError _ => .AlreadyExists
  | .DoesNotExistError _ => .NotFound

variable {A D : Type} [DecidableEq A]

/-- One turn of the loop of `store`: the block to delete, and the map that results. -/
def Operation.turn (op : Operation A) (km : KeyMap A) : Except Refusal (Option A × KeyMap A) :=
  let stored := put op.key (some { current := some op.store }) km
  match op.opType with
  | .INSERT =>
    match find km op.key with
    | some { current := some _ } => .error (.AlreadyExistsError op.key)
    | _ => .ok (none, stored)
  | .UPDATE =>
    match find km op.key with
    | some { current := some store } => .ok (store.address, stored)
    | _ => .error (.DoesNotExistError op.key)
  | .UPSERT =>
    match find km op.key with
    | some { current := some store } => .ok (store.address, stored)
    | _ => .ok (none, stored)
  | .DELETE =>
    match find km op.key with
    | some { current := some { address := some a } } => .ok (some a, put op.key none km)
    | _ => .error (.DoesNotExistError op.key)

/-! ## Requests -/

/-- The call of the value store that a request is in. A put inserts its value; `store` fetches the
root block, deletes the value that it replaces and updates the root block to another map; a put that
is refused deletes the value that it inserted. A fetch fetches the root block and then the value. -/
inductive Call (A D : Type) where
  | insert (opType : OperationType) (key : Key) (value : D)
  | root (op : Operation A)
  | drop (op : Operation A) (block : Block A) (km : KeyMap A) (address : A)
  | update (op : Operation A) (block : Block A) (km : KeyMap A)
  | undo (op : Operation A) (refusal : Refusal)
  | fetch_root (key : Key) (lastVersion lastTime : Int)
  | fetch_value (key : Key) (lastVersion lastTime : Int) (version : Int) (address : A)

/-- A request in progress. `since` counts the root maps before the one that was current when it
started. -/
structure Request (A D : Type) where
  call : Call A D
  since : Nat

/-- A request to store that returned: without an error, or with one. `during` lists the root maps
that were current while it was in progress. -/
structure Stored (A : Type) where
  op : Operation A
  reply : Except Code Unit
  during : List (KeyMap A)

/-- A fetch that returned a value, which may be nil, or an error. -/
structure Fetched (A D : Type) where
  key : Key
  reply : Except Code (Option D)
  during : List (KeyMap A)

/-- What the value store holds, and the requests. The last four say what happened: the root maps,
the value blocks that were inserted, and the requests that returned. -/
structure Cluster (A D : Type) where
  root : Block A
  values : Table A D := ∅
  requests : List (Request A D) := []
  roots : List (KeyMap A) := [root.map]
  inserted : List (A × D) := []
  stored : List (Stored A) := []
  fetched : List (Fetched A D) := []

namespace Cluster

/-- The root block that `NewServer` creates. -/
def NewServer (version : Int := 0) : Cluster A D where
  root := { version := version, map := ∅ }

/-- The root maps since a request started. -/
def during (s : Cluster A D) (since : Nat) : List (KeyMap A) := s.roots.drop since

def returns (op : Operation A) (reply : Except Code Unit) (since : Nat) (s : Cluster A D) :
    Cluster A D :=
  { s with stored := s.stored ++ [{ op := op, reply := reply, during := s.during since }] }

def fetches (key : Key) (reply : Except Code (Option D)) (since : Nat) (s : Cluster A D) :
    Cluster A D :=
  { s with fetched := s.fetched ++ [{ key := key, reply := reply, during := s.during since }] }

/-- A request starts with a call. -/
def starts (call : Call A D) (s : Cluster A D) : Cluster A D :=
  { s with requests := s.requests ++ [{ call := call, since := s.roots.length - 1 }] }

/-- A request goes on to another call. -/
def goes (i : Nat) (r : Request A D) (call : Call A D) (s : Cluster A D) : Cluster A D :=
  { s with requests := s.requests.set i { r with call := call } }

def ends (i : Nat) (s : Cluster A D) : Cluster A D :=
  { s with requests := s.requests.eraseIdx i }

/-- `put`, up to `InsertImmutableBlock`. -/
def put (opType : OperationType) (key : Key) (value : Option D) (s : Cluster A D) : Cluster A D :=
  match key, value with
  | [], _ | _, none =>
    s.returns { opType := opType, key := key } (.error .InvalidArgument) (s.roots.length - 1)
  | _, some value => s.starts (.insert opType key value)

/-- `Delete`, up to the call in `rootBlock`. -/
def Delete (key : Key) (s : Cluster A D) : Cluster A D :=
  if key = [] then
    s.returns { opType := .DELETE, key := key } (.error .InvalidArgument) (s.roots.length - 1)
  else s.starts (.root { opType := .DELETE, key := key })

/-- `Fetch`, up to the call in `rootBlock`. -/
def Fetch (key : Key) (now : Int) (s : Cluster A D) : Cluster A D :=
  if key = [] then s.fetches key (.error .InvalidArgument) (s.roots.length - 1)
  else s.starts (.fetch_root key 0 now)

/-- The request of an operation that was refused: a put deletes its value first. -/
def refused (i : Nat) (r : Request A D) (op : Operation A) (refusal : Refusal)
    (s : Cluster A D) : Cluster A D :=
  match op.opType with
  | .DELETE => (s.ends i).returns op (.error refusal.code) r.since
  | _ => s.goes i r (.undo op refusal)

/-- The loop of `store` goes on with a root block. -/
def replay (i : Nat) (r : Request A D) (op : Operation A) (block : Block A)
    (s : Cluster A D) : Cluster A D :=
  match op.turn block.map with
  | .error refusal => s.refused i r op refusal
  | .ok (some a, km) => s.goes i r (.drop op block km a)
  | .ok (none, km) => s.goes i r (.update op block km)

/-- `Update` of the root block, if its version is the one that is passed. -/
def update (km : KeyMap A) (s : Cluster A D) : Cluster A D :=
  { s with
    root := { version := s.root.version + 1, map := km }
    roots := s.roots ++ [km] }

/-- `Fetch` with a root block. -/
def fetch_root (i : Nat) (r : Request A D) (key : Key) (lastVersion lastTime : Int)
    (block : Block A) (s : Cluster A D) : Cluster A D :=
  match find block.map key with
  | some { current := some { address := some a } } =>
    s.goes i r (.fetch_value key lastVersion lastTime block.version a)
  | _ => (s.ends i).fetches key (.error .NotFound) r.since

/-- The call of a request takes place, and the request goes on to its next call. -/
def serve (i : Nat) (s : Cluster A D) : Option (Cluster A D) :=
  match s.requests[i]? with
  | none => none
  | some r =>
    match r.call with
    | .insert .. => none
    | .root op => some (s.replay i r op s.root)
    | .drop op block km a =>
      some ({ s with values := stores.put a none s.values }.goes i r (.update op block km))
    | .update op block km =>
      if block.version = s.root.version then
        some (((s.update km).ends i).returns op (.ok ()) r.since)
      else some (s.replay i r op s.root)
    | .undo op refusal =>
      let deleted : Table A D := op.store.address.elim s.values fun a => stores.put a none s.values
      some (({ s with values := deleted }.ends i).returns op (.error refusal.code) r.since)
    | .fetch_root key lastVersion lastTime =>
      some (s.fetch_root i r key lastVersion lastTime s.root)
    | .fetch_value key _ _ _ a =>
      (find s.values a).map fun d => (s.ends i).fetches key (.ok (some d)) r.since

/-- `InsertImmutableBlock` takes place, and gives an address that no value had. -/
def inserts (i : Nat) (a : A) (s : Cluster A D) : Option (Cluster A D) :=
  match s.requests[i]? with
  | none => none
  | some r =>
    match r.call with
    | .insert opType key value =>
      if a ∈ s.inserted.map Prod.fst then none
      else
        some ({ s with
          values := stores.put a (some value) s.values
          inserted := s.inserted ++ [(a, value)] }.goes i r
            (.root { opType := opType, key := key, store := { address := some a } }))
    | _ => none

/-- The call of a request fails, and the request goes on to its next call. `now` is what the clock
then shows. -/
def fails (i : Nat) (now : Int) (s : Cluster A D) : Option (Cluster A D) :=
  match s.requests[i]? with
  | none => none
  | some r =>
    match r.call with
    | .insert opType key _ =>
      some ((s.ends i).returns { opType := opType, key := key } (.error .Internal) r.since)
    | .root op => some ((s.ends i).returns op (.error .Internal) r.since)
    | .drop op block km _ => some (s.goes i r (.update op block km))
    | .update op _ _ =>
      some ((s.ends i).returns op
        (.error (if op.opType = .DELETE then .Other else .Internal)) r.since)
    | .undo op refusal => some ((s.ends i).returns op (.error refusal.code) r.since)
    | .fetch_root key _ _ => some ((s.ends i).fetches key (.error .Internal) r.since)
    | .fetch_value key lastVersion lastTime version _ =>
      if version ≠ lastVersion then some (s.goes i r (.fetch_root key version now))
      else if 10000000000 < now - lastTime then
        some ((s.ends i).fetches key (.error .Internal) r.since)
      -- The block that was not fetched is nil, and so is its data.
      else some ((s.ends i).fetches key (.ok none) r.since)

/-! ## Steps -/

inductive Action (A D : Type) where
  | Insert (key : Key) (value : Option D)
  | Update (key : Key) (value : Option D)
  | Upsert (key : Key) (value : Option D)
  | Delete (key : Key)
  | Fetch (key : Key) (now : Int := 0)
  | serve (request : Nat)
  | inserts (request : Nat) (address : A)
  | fails (request : Nat) (now : Int := 0)

def step (s : Cluster A D) : Action A D → Option (Cluster A D)
  | .Insert key value => some (s.put .INSERT key value)
  | .Update key value => some (s.put .UPDATE key value)
  | .Upsert key value => some (s.put .UPSERT key value)
  | .Delete key => some (s.Delete key)
  | .Fetch key now => some (s.Fetch key now)
  | .serve i => s.serve i
  | .inserts i a => s.inserts i a
  | .fails i now => s.fails i now

end Cluster

end memo.kvs
