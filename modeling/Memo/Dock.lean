-- The connections of a dock and its registries of weak references to them: those that
-- connect, by their endpoints, and those that are connected, by the id of their peer.
-- A step goes from one yield point of a thread to the next.
import Memo.Registers
import Memo.Runs

open runs registers

namespace memo

namespace Dock

/-! ## The connections -/

/-- `NodeLocation`. A null id is none. -/
structure NodeLocation (A E : Type) where
  id : Option A
  endpoints : E
deriving DecidableEq

/-- Where the thread of a connection is. -/
inductive Thread where
  /-- not yet run -/
  | starting
  /-- trying the endpoints -/
  | connecting
  /-- in the `on_connection` hooks of the dock -/
  | dock_hooks
  /-- in those of the connection, which it holds -/
  | hooks
  | serving
  /-- in the `on_disconnection` hooks, and holds the connection -/
  | disconnection_hooks
  /-- terminated before it was run -/
  | discarded
  /-- ended by the exception of `ELLE_ASSERT(id)` -/
  | asserted
  | done
deriving DecidableEq

/-- `Dock::Connection`, with who holds it: the slot of `Dock::connect`, and `users` others that are
not remotes. The iterator and the hook are there or not. -/
structure Connection (A E : Type) where
  _location : NodeLocation A E
  _connected : Bool := false
  _disconnected : Bool := false
  _thread : Thread := .starting
  terminating : Bool := false
  _cleanup_on_disconnect : Bool := true
  _connected_it : Bool := false
  slot : Bool
  users : Nat := 1
  alive : Bool := true
deriving DecidableEq

/-- `Remote`. It is alive while it has users, and `gone` when its destructor is done. -/
structure Remote (A : Type) where
  id : Option A
  _connection : Nat
  users : Nat := 1
  gone : Bool := false
deriving DecidableEq

/-- What the dock throws: an `ELLE_ENFORCE`, or an `ELLE_ASSERT` in a build that has them. -/
inductive Failure where
  | enforce
  | assertion
deriving DecidableEq

end Dock

/-- `Dock`. The connections and remotes that ever were are in two pools, and the registries name
their places. `on_peer`: whether that signal has slots. -/
structure Dock (A E : Type) where
  id : A
  asserts : Bool
  on_peer : Bool
  connections : List (Dock.Connection A E) := []
  _connecting : List Nat := []
  _connected : List Nat := []
  remotes : List (Dock.Remote A) := []
  _peer_cache : List Nat := []
deriving DecidableEq

namespace Dock

variable {A E : Type} [DecidableEq A] [DecidableEq E]

/-- Whether the thread has not come past its attempt to connect. -/
def Connection.unsettled (c : Connection A E) : Bool :=
  match c._thread with
  | .starting | .connecting | .discarded | .asserted => true
  | _ => false

/-- Whether the thread has a reference to the connection on its stack. -/
def Connection.hold (c : Connection A E) : Bool :=
  match c._thread with
  | .hooks | .disconnection_hooks => true
  | _ => false

def modify (i : Nat) (f : Connection A E → Connection A E) (self : Dock A E) : Dock A E :=
  { self with connections := self.connections.modify i f }

def erase_connecting (i : Nat) (self : Dock A E) : Dock A E :=
  { self with _connecting := self._connecting.erase i }

def held_by_remotes (i : Nat) (self : Dock A E) : Nat :=
  self.remotes.countP fun r => r._connection = i ∧ r.gone = false

/-- `shared_ptr::use_count`. -/
def use_count (i : Nat) (c : Connection A E) (self : Dock A E) : Nat :=
  c.users + c.slot.toNat + c.hold.toNat + self.held_by_remotes i

/-- `ELLE_ENFORCE(lock())`. -/
def lock (i : Nat) (self : Dock A E) : Except Failure (Connection A E) :=
  match self.connections[i]? with
  | some c => if c.alive then .ok c else .error .enforce
  | none => .error .enforce

/-- The end of `_connected_it`: the element is erased. -/
def erase_connected (i : Nat) (self : Dock A E) : Dock A E :=
  { self.modify i ({ · with _connected_it := false }) with
    _connected := self._connected.erase i }

/-- `Thread::terminate`. A thread that was not run is discarded. -/
def Connection.terminate (c : Connection A E) : Connection A E :=
  { c with
    terminating := true
    _thread := if c._thread = .starting then .discarded else c._thread }

/-- `~Connection`, up to the wait for the thread. -/
def destroy (i : Nat) (self : Dock A E) : Dock A E :=
  (self.erase_connected i).modify i fun c => { c.terminate with alive := false }

/-- A reference was given back: the last one destroys the connection. -/
def let_go (i : Nat) (self : Dock A E) : Dock A E :=
  match self.connections[i]? with
  | some c => if c.alive ∧ self.use_count i c = 0 then self.destroy i else self
  | none => self

/-- A `shared_ptr` is copied, or a `weak_ptr` locked. -/
def share (i : Nat) (self : Dock A E) : Dock A E :=
  self.modify i fun c => { c with users := c.users + 1 }

def release (i : Nat) (self : Dock A E) : Dock A E :=
  (self.modify i fun c => { c with users := c.users - 1 }).let_go i

/-! ## Connecting -/

def find_connected (id : Option A) (self : Dock A E) : Option Nat :=
  self._connected.find? fun i => (self.connections[i]?.map (·._location.id)) = some id

def equal_range (endpoints : E) (self : Dock A E) : List Nat :=
  self._connecting.filter fun i =>
    (self.connections[i]?.map (·._location.endpoints)) = some endpoints

/-- The loop over those that connect to the same endpoints. -/
def find_connecting (self : Dock A E) (id : Option A) : List Nat → Except Failure (Option Nat)
  | [] => .ok none
  | i :: rest => do
    let c ← self.lock i
    if c._location.id = id then .ok (some i) else find_connecting self id rest

/-- `Connection::make`, `Connection::init` and the slot. -/
def init (l : NodeLocation A E) (no_remote : Bool) (self : Dock A E) : Dock A E :=
  { self with
    connections := self.connections ++ [{ _location := l, slot := !no_remote }]
    _connecting := self._connecting ++ [self.connections.length] }

/-- `Dock::connect`. -/
def connect (l : NodeLocation A E) (no_remote : Bool) (self : Dock A E) :
    Except Failure (Dock A E × Nat) :=
  match if l.id.isSome then self.find_connected l.id else none with
  | some i => do
    let _ ← self.lock i
    return (self.share i, i)
  | none => do
    match ← find_connecting self l.id (self.equal_range l.endpoints) with
    | some i => return (self.share i, i)
    | none => return (self.init l no_remote, self.connections.length)

/-! ## The thread -/

def start (i : Nat) (self : Dock A E) : Dock A E :=
  self.modify i ({ · with _thread := .connecting, _cleanup_on_disconnect := false })

/-- A handshake tells the id of the peer. -/
def identify (i : Nat) (id : A) (self : Dock A E) : Dock A E :=
  self.modify i fun c => { c with _location := { c._location with id := some id } }

/-- No endpoint was connected. -/
def connection_failed (i : Nat) (self : Dock A E) : Dock A E :=
  (self.modify i ({ · with
    _disconnected := true
    slot := false
    _thread := .disconnection_hooks })).erase_connecting i

/-- One was. -/
def connection_made (i : Nat) (c : Connection A E) (self : Dock A E) : Dock A E :=
  if self.asserts ∧ c._location.id = none then
    self.modify i ({ · with _thread := .asserted })
  else if (self.find_connected c._location.id).isSome then
    ((self.modify i ({ · with
      _disconnected := true
      slot := false
      _thread := .done })).erase_connecting i).let_go i
  else
    { (self.modify i ({ · with
        _connected := true
        _connected_it := true
        _thread := .dock_hooks })).erase_connecting i with
      _connected := self._connected ++ [i] }

/-- The `on_connection` hooks are done. Without another reference the thread ends. -/
def hooks_done (i : Nat) (c : Connection A E) (self : Dock A E) : Dock A E :=
  (self.modify i ({ · with
    slot := false
    _thread := if c.users + self.held_by_remotes i = 0 then .done else .serving })).let_go i

/-- `cleanup`. A connection that is being destroyed cannot be held. -/
def cleanup (i : Nat) (self : Dock A E) : Dock A E :=
  (self.erase_connected i).modify i fun c =>
    { c with
      _disconnected := true
      slot := false
      _thread := if c.alive then .disconnection_hooks else .done }

/-- The `on_disconnection` hooks are done. -/
def disconnection_done (i : Nat) (self : Dock A E) : Dock A E :=
  (self.modify i ({ · with _thread := .done })).let_go i

/-- The thread ends in its attempt to connect, or before it. -/
def quit (i : Nat) (self : Dock A E) : Dock A E :=
  ((self.modify i ({ · with slot := false, _thread := .done })).erase_connecting i).let_go i

/-- The thread is left by an exception, or `serve` returns. -/
def unwind (i : Nat) (c : Connection A E) (self : Dock A E) : Option (Dock A E) :=
  match c._thread with
  | .connecting => some (self.quit i)
  | .dock_hooks | .serving => some (self.cleanup i)
  | .hooks =>
    some (((self.modify i ({ · with slot := false, _thread := .serving })).let_go i).cleanup i)
  | .disconnection_hooks => some (self.disconnection_done i)
  | _ => none

/-- `Connection::disconnect`, up to the wait for the thread. One that was not run is discarded at
once, and then the hook is called. -/
def connection_disconnect (i : Nat) (self : Dock A E) : Dock A E :=
  match self.connections[i]? with
  | some c =>
    if c._disconnected then
      self
    else if c._thread = .starting ∧ c._cleanup_on_disconnect then
      self.quit i
    else
      self.modify i Connection.terminate
  | none => self

/-! ## Remotes -/

def modify_remote (r : Nat) (f : Remote A → Remote A) (self : Dock A E) : Dock A E :=
  { self with remotes := self.remotes.modify r f }

def find_peer (id : Option A) (self : Dock A E) : Option Nat :=
  self._peer_cache.find? fun r => (self.remotes[r]?.map (·.id)) = some id

def lock_peer (r : Nat) (self : Dock A E) : Except Failure (Remote A) :=
  match self.remotes[r]? with
  | some res => if res.users = 0 then .error .enforce else .ok res
  | none => .error .enforce

/-- `!connected() || disconnected()`. -/
def broken (i : Nat) (self : Dock A E) : Bool :=
  self.connections[i]?.any fun c => !c._connected || c._disconnected

/-- `Remote::connection`. -/
def set_connection (r i old : Nat) (self : Dock A E) : Dock A E :=
  (self.modify_remote r ({ · with _connection := i })).let_go old

def share_remote (r : Nat) (self : Dock A E) : Dock A E :=
  self.modify_remote r fun res => { res with users := res.users + 1 }

/-- `Dock::make_peer` of a connection. The peers of the cache are all remotes. -/
def make_peer (i : Nat) (c : Connection A E) (ignored_result : Bool) (self : Dock A E) :
    Except Failure (Dock A E × Option Nat) :=
  match self.find_peer c._location.id with
  | some r => do
    let res ← self.lock_peer r
    if res._connection = i then
      return (self.share_remote r, some r)
    else if self.broken res._connection then
      return ((self.share_remote r).set_connection r i res._connection, some r)
    else
      return (self.share_remote r, some r)
  | none =>
    if ignored_result ∧ self.on_peer = false then
      .ok (self, none)
    else if self.asserts ∧ c._location.id = none then
      .error .assertion
    else
      .ok ({ self with
        remotes := self.remotes ++ [{ id := c._location.id, _connection := i }]
        _peer_cache := self._peer_cache ++ [self.remotes.length] }, some self.remotes.length)

/-- `Dock::make_peer` of a location: the remote and, if it was made, the connection that is then
given back. The local peer is none. -/
def make_peer_at (l : NodeLocation A E) (self : Dock A E) :
    Except Failure (Dock A E × Option Nat) := do
  if self.asserts ∧ l.id = none then
    .error .assertion
  else if l.id = some self.id then
    return (self, none)
  else
    match self.find_peer l.id with
    | some r =>
      let _ ← self.lock_peer r
      return (self.share_remote r, some r)
    | none =>
      let (self, i) ← self.connect l false
      let c ← self.lock i
      let (self, r) ← self.make_peer i c false
      return (self.release i, r)

/-- A reference to a remote is given back. `~Remote` starts with the cache and disconnects. -/
def release_remote (r : Nat) (res : Remote A) (self : Dock A E) : Dock A E :=
  if res.users = 1 then
    { self.modify_remote r ({ · with users := 0 }) with
      _peer_cache := self._peer_cache.erase r }.connection_disconnect res._connection
  else
    self.modify_remote r fun res => { res with users := res.users - 1 }

/-- The end of `~Remote`. -/
def drop_remote (r : Nat) (res : Remote A) (self : Dock A E) : Dock A E :=
  (self.modify_remote r ({ · with gone := true })).let_go res._connection

/-- `Remote::connect` with a connection that is disconnected. -/
def reconnect (r : Nat) (old : Nat) (c : Connection A E) (self : Dock A E) :
    Except Failure (Dock A E) := do
  let (self, i) ← self.connect c._location false
  return (self.modify i fun c => { c with users := c.users - 1 }).set_connection r i old

/-! ## The system -/

/-- A step. `Dock::disconnect` terminates each connection of the two registries, then shares,
disconnects and releases each; `Dock::make_peer` of a location is a connection, a remote and a
release, `Remote::reconnect` is a disconnection, a connection and a release. -/
inductive Act (A E : Type) where
  | connect (l : NodeLocation A E) (no_remote : Bool)
  | share (i : Nat)
  | release (i : Nat)
  | start (i : Nat)
  | identify (i : Nat) (id : A)
  | connection_failed (i : Nat)
  | connection_made (i : Nat)
  | dock_hooks_done (i : Nat)
  | hooks_done (i : Nat)
  | unwind (i : Nat)
  | disconnection_done (i : Nat)
  | terminate (i : Nat)
  | disconnect (i : Nat)
  | make_peer (i : Nat) (ignored_result : Bool)
  | share_remote (r : Nat)
  | release_remote (r : Nat)
  | drop_remote (r : Nat)
  | reconnect (r : Nat)

/-- What is done with a connection that is as it must be. -/
def on (i : Nat) (p : Connection A E → Bool) (f : Connection A E → Option (Dock A E))
    (self : Dock A E) : Option (Dock A E) :=
  match self.connections[i]? with
  | some c => if p c then f c else none
  | none => none

/-- What is done with a remote that is as it must be. -/
def on_remote (r : Nat) (p : Remote A → Bool) (f : Remote A → Option (Dock A E))
    (self : Dock A E) : Option (Dock A E) :=
  match self.remotes[r]? with
  | some res => if p res then f res else none
  | none => none

/-- The thread is there, and what it waits for may end without an exception. -/
def Connection.waits (t : Thread) (c : Connection A E) : Bool :=
  c._thread = t ∧ c.terminating = false

/-- What a call that throws leaves unchanged. -/
def after {R : Type} (self : Dock A E) : Except Failure (Dock A E × R) → Dock A E
  | .ok (self, _) => self
  | .error _ => self

def step (self : Dock A E) : Act A E → Option (Dock A E)
  | .connect l no_remote => some (self.after (self.connect l no_remote))
  | .share i => self.on i (·.alive) fun _ => self.share i
  | .release i => self.on i (0 < ·.users) fun _ => self.release i
  | .start i => self.on i (·._thread = .starting) fun _ => self.start i
  | .identify i id =>
    self.on i (fun c => c._thread = .connecting ∧ c._location.id = none ∧ id ≠ self.id)
      fun _ => self.identify i id
  | .connection_failed i => self.on i (·.waits .connecting) fun _ => self.connection_failed i
  | .connection_made i => self.on i (·.waits .connecting) fun c => self.connection_made i c
  | .dock_hooks_done i =>
    self.on i (·.waits .dock_hooks) fun _ => self.modify i ({ · with _thread := .hooks })
  | .hooks_done i => self.on i (·.waits .hooks) fun c => self.hooks_done i c
  | .unwind i => self.on i (fun _ => true) fun c => self.unwind i c
  | .disconnection_done i =>
    self.on i (·._thread = .disconnection_hooks) fun _ => self.disconnection_done i
  | .terminate i => self.on i (fun _ => true) fun _ => self.modify i Connection.terminate
  | .disconnect i => self.on i (·.alive) fun _ => self.connection_disconnect i
  | .make_peer i ignored_result =>
    self.on i (·.alive) fun c => self.after (self.make_peer i c ignored_result)
  | .share_remote r => self.on_remote r (0 < ·.users) fun _ => self.share_remote r
  | .release_remote r => self.on_remote r (0 < ·.users) fun res => self.release_remote r res
  -- the destructor has waited for the thread
  | .drop_remote r => self.on_remote r (fun res => res.users = 0 ∧ res.gone = false) fun res =>
    self.on res._connection (fun c => c._thread ≠ .starting ∧ c._thread ≠ .connecting)
      fun _ => self.drop_remote r res
  | .reconnect r => self.on_remote r (0 < ·.users) fun res =>
    self.on res._connection (·._disconnected) fun c =>
      match self.reconnect r res._connection c with
      | .ok self => self
      | .error _ => self

end Dock

end memo
