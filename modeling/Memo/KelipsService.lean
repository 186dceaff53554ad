-- What a node of `kelips` does with a datagram: it is read and decrypted, the keys are exchanged,
-- and the requests of the other nodes and the replies to its own ones are handled.
import Memo.KelipsPackets

open vectors

namespace memo.overlay.kelips

/-! ## Packets -/

/-- `packet::RequestKey`. -/
structure RequestKey (A P B : Type) where
  sender : A
  observer : Bool
  passport : P
  token : B
  challenge : B

/-- `packet::KeyReply`. Its token is a message when there is no key. -/
structure KeyReply (A P B : Type) where
  sender : A
  observer : Bool
  passport : P
  encrypted_key : Option B
  token : B
  signed_challenge : Option B

/-- `packet::GetFileRequest`. -/
structure GetFileRequest (A E : Type) where
  sender : A
  observer : Bool
  request_id : Int
  originAddress : A
  originEndpoints : List E
  fileAddress : A
  ttl : Int
  count : Int
  result : NodeLocations A E
  query_node : Bool

/-- `packet::GetFileReply`. -/
structure GetFileReply (A E : Type) where
  sender : A
  observer : Bool
  request_id : Int
  origin : A
  fileAddress : A
  ttl : Int
  result : NodeLocations A E

/-- `packet::PutFileRequest`. -/
structure PutFileRequest (A E : Type) extends GetFileRequest A E where
  insert_result : NodeLocations A E
  insert_ttl : Int

/-- `packet::PutFileReply`. -/
structure PutFileReply (A E : Type) where
  sender : A
  observer : Bool
  request_id : Int
  origin : A
  fileAddress : A
  ttl : Int
  results : NodeLocations A E
  insert_results : NodeLocations A E

/-- The types of packets. A gossip is a `G`, and the results for several files are an `R`. -/
inductive PacketOf (A E P B G R : Type) where
  | crypt (sender : A) (observer : Bool) (payload : B)
  | reqk (p : RequestKey A P B)
  | repk (p : KeyReply A P B)
  | ping (sender : A) (observer : Bool) (remote_endpoint : E)
  | pong (sender : A) (observer : Bool) (remote_endpoint : E)
  | bootstrapRequest (sender : A) (observer : Bool)
  | fileBootstrapRequest (sender : A) (observer : Bool)
  | gossip (p : G)
  | mget (p : MultiGetFileRequest A E R)
  | mgetReply (p : MultiGetFileReply A R)
  | get (p : GetFileRequest A E)
  | getReply (p : GetFileReply A E)
  | put (p : PutFileRequest A E)
  | putReply (p : PutFileReply A E)

/-- `packet::Packet`. -/
abbrev Packet (A E P B : Type) : Type :=
  PacketOf A E P B (Gossip A E) (List (NodeLocations A E))

/-- A packet whose fields are read, with those that are compressed as they are written. -/
abbrev SerializedPacket (A E P B : Type) : Type :=
  PacketOf A E P B (SerializedGossip A E) (SerializedResults A E)

section

variable {A E P B : Type} [DecidableEq A] [DecidableEq E]

def Packet.sender : Packet A E P B → A
  | .crypt sender _ _ | .ping sender _ _ | .pong sender _ _ => sender
  | .bootstrapRequest sender _ | .fileBootstrapRequest sender _ => sender
  | .reqk p => p.sender
  | .repk p => p.sender
  | .gossip p => p.sender
  | .mget p => p.sender
  | .mgetReply p => p.sender
  | .get p => p.sender
  | .getReply p => p.sender
  | .put p => p.sender
  | .putReply p => p.sender

def Packet.observer : Packet A E P B → Bool
  | .crypt _ observer _ | .ping _ observer _ | .pong _ observer _ => observer
  | .bootstrapRequest _ observer | .fileBootstrapRequest _ observer => observer
  | .reqk p => p.observer
  | .repk p => p.observer
  | .gossip p => p.observer
  | .mget p => p.observer
  | .mgetReply p => p.observer
  | .get p => p.observer
  | .getReply p => p.observer
  | .put p => p.observer
  | .putReply p => p.observer

/-- A packet that an observer must not send. -/
def Packet.non_observer : Packet A E P B → Bool
  | .gossip _ | .getReply _ | .putReply _ => true
  | _ => false

/-- The compressed fields of a packet, unless a number in them is out of range. -/
def SerializedPacket.expand (compress : Bool) : SerializedPacket A E P B → Option (Packet A E P B)
  | .crypt sender observer payload => some (.crypt sender observer payload)
  | .reqk p => some (.reqk p)
  | .repk p => some (.repk p)
  | .ping sender observer endpoint => some (.ping sender observer endpoint)
  | .pong sender observer endpoint => some (.pong sender observer endpoint)
  | .bootstrapRequest sender observer => some (.bootstrapRequest sender observer)
  | .fileBootstrapRequest sender observer => some (.fileBootstrapRequest sender observer)
  | .gossip p => (Gossip.serialize_in compress p).map .gossip
  | .mget p => (MultiGetFileRequest.serialize_in compress p).map .mget
  | .mgetReply p => (MultiGetFileReply.serialize_in compress p).map .mgetReply
  | .get p => some (.get p)
  | .getReply p => some (.getReply p)
  | .put p => some (.put p)
  | .putReply p => some (.putReply p)

end

/-! ## Reading -/

/-- What ends the handling of a packet: an exception, a failed assertion, or an access that is
undefined. -/
inductive Fault where
  | serialization_error
  | cryptography_error
  | out_of_range
  | bad_typeid
  | assertion
  | null
  | subscript
  | exception
deriving DecidableEq

/-- How the reading of a packet ends. -/
inductive Read (X : Type) where
  | packet (p : X)
  | null
  | fault (f : Fault)

/-- What the node uses of the rest: the serialization of the fields, the passports, and the
cryptography with the keys of the node, whose operations are `none` when they throw. -/
structure Library (A E P K B : Type) where
  compress : Bool
  /-- The first byte is 0. -/
  _check_magic : B → Bool
  read : B → Read (SerializedPacket A E P B)
  decipher : K → B → Option B
  verify : P → Option Bool
  allow_storage : P → Bool
  verify_challenge : P → Option B → B → Option Bool
  sign_challenge : B → Option B
  seal_key : P → K → Option B
  open_key : B → Option K
  /-- The endpoint, as one of IPv4 where it is mapped from one. -/
  unmapped : E → E
  passport : P
  /-- `Failed to validate passport`. -/
  invalid_passport : B
  /-- `Address()`. -/
  null : A

/-- What is picked at random, or depends on more than the node. -/
structure Chance (A E K B : Type) where
  shuffle : List (File A) → List (File A) := id
  shuffled : ∀ l, (shuffle l).Perm l := by exact fun l => .refl l
  pick_one : List (Contact A E) → Option (Contact A E) := List.head?
  pick_contacts : List A := []
  pick_files : List (A × A) := []
  token : B
  challenge : B
  secret : K
  /-- There is room in the local storage. -/
  quota_check : Bool := true

section

variable {A E P K B : Type} [DecidableEq A] [DecidableEq E]

/-- `input.serialize_forward(packet)`. -/
def Library.deserialize (lib : Library A E P K B) (buf : B) : Read (Packet A E P B) :=
  match lib.read buf with
  | .packet s =>
    match SerializedPacket.expand lib.compress s with
    | some p => .packet p
    | none => .fault .out_of_range
  | .null => .null
  | .fault f => .fault f

/-- `EncryptedPayload::decrypt`. -/
def Library.decrypt (lib : Library A E P K B) (key : K) (payload : B) : Read (Packet A E P B) :=
  match lib.decipher key payload with
  | some plain =>
    if lib._check_magic plain then lib.deserialize plain else .fault .serialization_error
  | none => .fault .cryptography_error

end

/-! ## The node -/

/-- At most five packets wait for a contact, until an endpoint of it is validated. -/
def Contact.queue {A E : Type} (count : Nat) (c : Contact A E) : Contact A E :=
  match c.validated_endpoint with
  | some _ => c
  | none => { c with pending := c.pending + min count (5 - c.pending) }

/-- `PendingRequest`. That of `kelipsMGet` is for some files. -/
structure PendingRequest (A E : Type) where
  files : Option (List A) := none
  result : NodeLocations A E := []
  insert_result : NodeLocations A E := []
  multi_result : List (NodeLocations A E) := []

/-- A node with its keys and its requests. `answered` has the requests whose threads were woken,
and `outbox` the packets that were sent. -/
structure Service (A E P K B : Type) (k : Nat) where
  node : Node A E k
  accept_plain : Bool := false
  /-- The port of the node, on `127.0.0.1`. -/
  localhost : E
  _local_endpoints : List (TimedEndpoint E) := []
  _ping_time : List (A × Time) := []
  _pending_requests : List (Int × PendingRequest A E) := []
  answered : List (Int × PendingRequest A E) := []
  _keys : List (A × K × Bool) := []
  _challenges : List (B × B) := []
  _pending_bootstrap_endpoints : Finset E := ∅
  _pending_bootstrap_address : List A := []
  _bootstrap_requests_sent : List A := []
  _bootstraper_threads : List (NodeLocation A E) := []
  _dropped_puts : Nat := 0
  _dropped_gets : Nat := 0
  outbox : List (A × Packet A E P B) := []
  fault : Option Fault := none

namespace Service

variable {A E P K B : Type} {k : Nat} [DecidableEq A] [DecidableEq E] [DecidableEq B]

def fail (f : Fault) (s : Service A E P K B k) : Service A E P K B k := { s with fault := some f }

def send (target : A) (p : Packet A E P B) (s : Service A E P K B k) : Service A E P K B k :=
  { s with outbox := s.outbox ++ [(target, p)] }

/-- How many packets are made of one: with no key there is a request for it, and then the packet
only if plain ones are taken. -/
def sends (a : A) (s : Service A E P K B k) : Nat :=
  if (s._keys.lookup a).isNone ∧ s.accept_plain then 2 else 1

/-- `Node::send`, to a contact. -/
def send_to (table : Option (Fin k)) (a : A) (p : Packet A E P B) (s : Service A E P K B k) :
    Service A E P K B k :=
  { s with node := s.node.update table a (Contact.queue (s.sends a)) }.send a p

def to_endpoints (endpoints : List (TimedEndpoint E)) : Finset E :=
  (endpoints.map (·.1)).toFinset

/-- `unsigned(count)`. -/
def unsigned (count : Int) : Nat := (count % 2 ^ 32).toNat

/-! ## Keys -/

/-- `Node::setKey`. -/
def setKey (a : A) (sk : K) (observer : Bool) (s : Service A E P K B k) : Service A E P K B k :=
  { s with _keys := (a, sk, observer) :: s._keys.filter fun key => key.1 ≠ a }

/-- `Node::make_key_request`, that is sent. -/
def send_key_request (lib : Library A E P K B) (chance : Chance A E K B) (target : A)
    (s : Service A E P K B k) : Service A E P K B k :=
  let s :=
    if (s._challenges.lookup chance.token).isSome then s
    else { s with _challenges := (chance.token, chance.challenge) :: s._challenges }
  s.send target
    (.reqk ⟨s.node._self, s.node._observer, lib.passport, chance.token, chance.challenge⟩)

/-- A key request in `Node::process`. -/
def onRequestKey (lib : Library A E P K B) (chance : Chance A E K B) (p : RequestKey A P B)
    (s : Service A E P K B k) : Service A E P K B k :=
  match lib.verify p.passport with
  | none => s.fail .cryptography_error
  | some false =>
    s.send p.sender (.repk
      { sender := s.node._self, observer := s.node._observer, passport := lib.passport,
        encrypted_key := none, token := lib.invalid_passport, signed_challenge := none })
  | some true =>
    match lib.sign_challenge p.challenge with
    | none => s.fail .cryptography_error
    | some signed_challenge =>
      let s := s.setKey p.sender chance.secret (!lib.allow_storage p.passport)
      match lib.seal_key p.passport chance.secret with
      | none => s.fail .cryptography_error
      | some encrypted_key =>
        s.send p.sender (.repk
          { sender := s.node._self, observer := s.node._observer, passport := lib.passport,
            encrypted_key, token := p.token, signed_challenge })

/-- The operations that wait for a key. -/
def flush_bootstrap (lib : Library A E P K B) (source : E) (a : A) (s : Service A E P K B k) :
    Service A E P K B k :=
  let nsource := lib.unmapped source
  let i := s._pending_bootstrap_address.findIdx? fun b => b = a
  let requested : Bool := nsource ∈ s._pending_bootstrap_endpoints ∨ i.isSome
  let s := { s with
    _pending_bootstrap_endpoints := s._pending_bootstrap_endpoints.erase nsource
    _pending_bootstrap_address := match i with
      | some i => swap_pop i s._pending_bootstrap_address
      | none => s._pending_bootstrap_address }
  if requested ∧ a ∉ s._bootstrap_requests_sent then
    { s with _bootstrap_requests_sent := s._bootstrap_requests_sent ++ [a] }.send a
      (.bootstrapRequest s.node._self s.node._observer)
  else
    s

/-- A key reply in `Node::process`. -/
def onKeyReply (lib : Library A E P K B) (now : Time) (source : E) (p : KeyReply A P B)
    (s : Service A E P K B k) : Service A E P K B k :=
  match p.encrypted_key with
  | none => s
  | some encrypted_key =>
    match lib.verify p.passport with
    | none => s.fail .cryptography_error
    | some false => s
    | some true =>
      match s._challenges.lookup p.token with
      | none => s
      | some stored_challenge =>
        match lib.verify_challenge p.passport p.signed_challenge stored_challenge with
        | none => s.fail .cryptography_error
        | some ok =>
          let s := { s with _challenges := s._challenges.filter fun c => c.1 ≠ p.token }
          if ok then
            match lib.open_key encrypted_key with
            | none => s.fail .cryptography_error
            | some sk =>
              let s := s.setKey p.sender sk (!lib.allow_storage p.passport)
              let s := s.flush_bootstrap lib source p.sender
              { s with node := s.node.onContactSeen now p.sender source p.observer }
          else
            s

/-! ## Handlers -/

/-- `Node::onPong`. -/
def onPong (now : Time) (sender : A) (remote_endpoint : E) (s : Service A E P K B k) :
    Service A E P K B k :=
  match s._ping_time.lookup sender with
  | some t =>
    { s with
      node := s.node.update (some (s.node.group_of sender)) sender ({ · with rtt := now - t })
      _ping_time := s._ping_time.filter fun ping => ping.1 ≠ sender
      _local_endpoints := endpoints_cleanup
        (endpoints_update now remote_endpoint now s._local_endpoints)
        (now - s.node._config.contact_timeout) }
  | none => s

/-- `Node::onBootstrapRequest`, whichever contacts are picked. -/
def onBootstrapRequest (chance : Chance A E K B) (source : E) (sender : A) (observer : Bool)
    (s : Service A E P K B k) : Service A E P K B k :=
  let s :=
    if s.node.group_of sender = s.node._group ∧ !observer then
      { s with _bootstraper_threads := s._bootstraper_threads ++ [⟨sender, {source}⟩] }
    else s
  let contacts := ((List.finRange k).map some).flatMap s.node.contacts
  s.send sender (.gossip
    { sender := s.node._self, observer := s.node._observer
      contacts := (contacts.filter fun c => c.address ∈ chance.pick_contacts).map fun c =>
        (c.address, c.endpoints) })

/-- `Node::onFileBootstrapRequest`. -/
def onFileBootstrapRequest (chance : Chance A E K B) (now : Time) (sender : A)
    (s : Service A E P K B k) : Service A E P K B k :=
  let (files, node) := s.node.pickFiles chance.pick_files now
  { s with node }.send sender
    (.gossip { sender := node._self, observer := node._observer, files })

/-- A file that `Node::addLocalResults` finds. -/
def local_result (fg : Fin k) (s : Service A E P K B k) (result : NodeLocations A E)
    (f : File A) : NodeLocations A E :=
  if result.any fun r => r.id = f.home_node then
    result
  else if f.home_node = s.node._self then
    let endpoints :=
      if s._local_endpoints = [] then {s.localhost} else to_endpoints s._local_endpoints
    result ++ [⟨f.home_node, endpoints⟩]
  else
    match s.node.find (some fg) f.home_node with
    | some c => result ++ [⟨f.home_node, to_endpoints c.endpoints⟩]
    | none => result

/-- `Node::addLocalResults`, for a file. -/
def addLocalResults (chance : Chance A E K B) (file : A) (s : Service A E P K B k)
    (result : NodeLocations A E) : NodeLocations A E :=
  (chance.shuffle (s.node.files.filter fun f => f.address = file)).foldl
    (local_result (s.node.group_of file) s) result

/-- `Node::addLocalResults`, for several files, once their lists are as many. -/
def addLocalResultsMulti (chance : Chance A E K B) (s : Service A E P K B k) :
    List A → List (NodeLocations A E) → List (NodeLocations A E)
  | [], _ => []
  | file :: files, [] =>
    s.addLocalResults chance file [] :: s.addLocalResultsMulti chance files []
  | file :: files, result :: results =>
    s.addLocalResults chance file result :: s.addLocalResultsMulti chance files results

/-- The request has an answer, that its thread is woken for. -/
def resolve (id : Int) (f : PendingRequest A E → PendingRequest A E) (s : Service A E P K B k) :
    Service A E P K B k :=
  match s._pending_requests.lookup id with
  | none => s
  | some r =>
    { s with
      _pending_requests := s._pending_requests.filter fun r => r.1 ≠ id
      answered := s.answered ++ [(id, f r)] }

/-- `Node::onGetFileReply`. -/
def onGetFileReply (p : GetFileReply A E) : Service A E P K B k → Service A E P K B k :=
  resolve p.request_id fun r => { r with result := p.result }

/-- `Node::onPutFileReply`. -/
def onPutFileReply (p : PutFileReply A E) : Service A E P K B k → Service A E P K B k :=
  resolve p.request_id fun r => { r with result := p.results, insert_result := p.insert_results }

/-- `Node::onMultiGetFileReply`. -/
def onMultiGetFileReply (p : MultiGetFileReply A (List (NodeLocations A E))) :
    Service A E P K B k → Service A E P K B k :=
  resolve p.request_id fun r => { r with multi_result := p.results }

/-- The endpoints of the origin of a request, that are those of the packet by default. -/
def origin (source : E) (originEndpoints : List E) : List E :=
  if originEndpoints = [] then [source] else originEndpoints

/-- The origin of a request is sent a reply. -/
def reply (now : Time) (originAddress : A) (originEndpoints : List E) (p : Packet A E P B)
    (s : Service A E P K B k) : Service A E P K B k :=
  match s.node.get_or_make now originAddress true originEndpoints.dedup true with
  | (node, some table) => { s with node }.send_to table originAddress p
  | (node, none) => { s with node }

/-- A contact of the group that answers its pings. -/
def pick (chance : Chance A E K B) (fg : Fin k) (s : Service A E P K B k) :
    Option (Contact A E) :=
  chance.pick_one ((s.node.contacts (some fg)).filter (·.ping_timeouts = 0))

/-- The request goes to a contact of the group. -/
def forward (chance : Chance A E K B) (fg : Fin k) (p : Packet A E P B)
    (s : Service A E P K B k) : Service A E P K B k :=
  match s.pick chance fg with
  | some c => s.send_to (some fg) c.address p
  | none => s

/-- There is no contact of the group but the origin. -/
def alone (fg : Fin k) (originAddress : A) (s : Service A E P K B k) : Bool :=
  s.node.contacts (some fg) = [] ∨
    (s.node.contacts (some fg)).length = 1 ∧ (s.node.find (some fg) originAddress).isSome

/-- Whether all files have enough results, in which the lists must be as many. -/
def complete (count : Nat) : List A → List (NodeLocations A E) → Option Bool
  | [], _ => some true
  | _ :: _, [] => none
  | _ :: files, result :: results =>
    if result.length < count then some false else complete count files results

/-- What the node knows of the files of a request, that are in a group. -/
def mget_results (chance : Chance A E K B) (fg : Fin k)
    (p : MultiGetFileRequest A E (List (NodeLocations A E))) (s : Service A E P K B k) :
    List (NodeLocations A E) :=
  if fg = s.node._group then s.addLocalResultsMulti chance p.fileAddresses p.results
  else p.results

/-- `Node::onMultiGetFileRequest`. -/
def onMultiGetFileRequest (chance : Chance A E K B) (now : Time) (source : E)
    (p : MultiGetFileRequest A E (List (NodeLocations A E))) (s : Service A E P K B k) :
    Service A E P K B k :=
  match p.fileAddresses with
  | [] => s
  | front :: _ =>
    let originEndpoints := origin source p.originEndpoints
    let fg := s.node.group_of front
    if fg = s.node._group ∧ p.fileAddresses.length < p.results.length then
      s.fail .assertion
    else
      let results := s.mget_results chance fg p
      match complete (unsigned p.count) p.fileAddresses results with
      | none => s.fail .subscript
      | some done =>
        if done ∨ s.alone fg p.originAddress ∨ p.ttl = 0 then
          let res : MultiGetFileReply A (List (NodeLocations A E)) :=
            ⟨s.node._self, s.node._observer, p.request_id, p.originAddress, p.fileAddresses,
              results, p.ttl⟩
          if p.originAddress = s.node._self then s.onMultiGetFileReply res
          else s.reply now p.originAddress originEndpoints (.mgetReply res)
        else
          s.forward chance fg (.mget
            { p with
              sender := s.node._self, observer := s.node._observer, originEndpoints, results
              ttl := p.ttl - 1 })

/-- What the node knows of what a request is for. -/
def get_result (chance : Chance A E K B) (p : GetFileRequest A E) (s : Service A E P K B k) :
    NodeLocations A E :=
  let fg := s.node.group_of p.fileAddress
  if p.query_node then
    match s.node.find (some fg) p.fileAddress with
    | some c => p.result ++ [⟨c.address, to_endpoints c.endpoints⟩]
    | none => p.result
  else if fg = s.node._group then
    s.addLocalResults chance p.fileAddress p.result
  else
    p.result

/-- The request has its results, or there is no one else to ask. -/
def get_done (chance : Chance A E K B) (p : GetFileRequest A E) (s : Service A E P K B k) : Bool :=
  unsigned p.count ≤ (s.get_result chance p).length ∨
    s.alone (s.node.group_of p.fileAddress) p.originAddress

/-- `Node::onGetFileRequest`. -/
def onGetFileRequest (chance : Chance A E K B) (now : Time) (source : E)
    (p : GetFileRequest A E) (s : Service A E P K B k) : Service A E P K B k :=
  let originEndpoints := origin source p.originEndpoints
  let fg := s.node.group_of p.fileAddress
  let result := s.get_result chance p
  let done := s.get_done chance p
  if done ∨ p.ttl = 0 then
    let res : GetFileReply A E :=
      ⟨s.node._self, s.node._observer, p.request_id, p.originAddress, p.fileAddress,
        if done then p.ttl else 1, result⟩
    let s :=
      if p.originAddress = s.node._self then s.onGetFileReply res
      else s.reply now p.originAddress originEndpoints (.getReply res)
    if done then s else { s with _dropped_gets := s._dropped_gets + 1 }
  else
    s.forward chance fg (.get
      { p with
        sender := s.node._self, observer := s.node._observer, originEndpoints, result
        ttl := p.ttl - 1 })

/-- Whether the node takes a file that is put. -/
def accepts (chance : Chance A E K B) (p : PutFileRequest A E) (result : NodeLocations A E)
    (s : Service A E P K B k) : Bool :=
  chance.quota_check ∧ s.node.group_of p.fileAddress = s.node._group ∧
    (p.insert_ttl = 0 ∧ s._local_endpoints ≠ [] ∨ s.node.contacts (some s.node._group) = []) ∧
    ¬(result.any fun r => r.id = s.node._self) ∧
    ¬(p.insert_result.any fun r => r.id = s.node._self)

/-- The nodes that take the file that is put. -/
def put_inserted (chance : Chance A E K B) (p : PutFileRequest A E) (result : NodeLocations A E)
    (s : Service A E P K B k) : NodeLocations A E :=
  if s.accepts chance p result then
    p.insert_result ++ [⟨s.node._self, to_endpoints s._local_endpoints⟩]
  else
    p.insert_result

/-- The results are enough, or there is no one else to ask. -/
def put_done (p : PutFileRequest A E) (size : Nat) (s : Service A E P K B k) : Bool :=
  p.ttl = 0 ∨ p.count ≤ size ∨ s.node.contacts (some s.node._group) = []

/-- The end of `Node::onPutFileRequest`, with the results that there are then. -/
def put_results (lib : Library A E P K B) (chance : Chance A E K B) (now : Time) (source : E)
    (p : PutFileRequest A E) (result insert_result : NodeLocations A E)
    (s : Service A E P K B k) : Service A E P K B k :=
  let originEndpoints := origin source p.originEndpoints
  let insert_ttl := if 0 < p.insert_ttl then p.insert_ttl - 1 else p.insert_ttl
  let group := s.node._group
  let size := result.length + insert_result.length
  if s.put_done p size then
    let res : PutFileReply A E :=
      ⟨s.node._self, s.node._observer, p.request_id, p.originAddress, lib.null, p.ttl, result,
        insert_result⟩
    let s :=
      if p.originAddress = s.node._self then s.onPutFileReply res
      else s.reply now p.originAddress originEndpoints (.putReply res)
    if size < p.count then { s with _dropped_puts := s._dropped_puts + 1 } else s
  else
    let fg := s.node.group_of p.fileAddress
    let target :=
      match s.pick chance fg with
      | some c => some (fg, c)
      | none => (s.pick chance group).map fun c => (group, c)
    match target with
    | some (g, c) =>
      s.send_to (some g) c.address (.put
        { p with
          sender := s.node._self, observer := s.node._observer, originEndpoints, result
          insert_result, insert_ttl, ttl := p.ttl - 1 })
    | none => s

/-- `Node::onPutFileRequest`. -/
def onPutFileRequest (lib : Library A E P K B) (chance : Chance A E K B) (now : Time) (source : E)
    (p : PutFileRequest A E) (s : Service A E P K B k) : Service A E P K B k :=
  let result := s.addLocalResults chance p.fileAddress p.result
  let accepted := s.accepts chance p result
  if accepted ∧
      s.node.files.any fun f => f.address = p.fileAddress ∧ f.home_node = s.node._self then
    -- `Should have been handled by addLocalResults`
    s.fail .assertion
  else
    let n :=
      if accepted then
        { s.node with _promised_files := s.node._promised_files ++ [p.fileAddress] }
      else s.node
    { s with node := n }.put_results lib chance now source p result
      (s.put_inserted chance p result)

/-! ## Packets -/

/-- The handlers of `Node::process`. A packet that has none is not known. -/
def handle (lib : Library A E P K B) (chance : Chance A E K B) (now : Time) (source : E)
    (s : Service A E P K B k) : Packet A E P B → Service A E P K B k
  | .pong sender _ remote_endpoint => s.onPong now sender remote_endpoint
  | .ping sender _ _ => s.send sender (.pong s.node._self s.node._observer source)
  | .gossip p => { s with node := s.node.onGossip now source p }
  | .bootstrapRequest sender observer => s.onBootstrapRequest chance source sender observer
  | .fileBootstrapRequest sender _ => s.onFileBootstrapRequest chance now sender
  | .put p => s.onPutFileRequest lib chance now source p
  | .putReply p => s.onPutFileReply p
  | .mget p => s.onMultiGetFileRequest chance now source p
  | .mgetReply p => s.onMultiGetFileReply p
  | .get p => s.onGetFileRequest chance now source p
  | .getReply p => s.onGetFileReply p
  -- the type of a null pointer is in the warning
  | .crypt .. | .reqk _ | .repk _ => s.fail .bad_typeid

/-- `Node::process`, once the packet is decrypted. -/
def dispatch (lib : Library A E P K B) (chance : Chance A E K B) (now : Time) (source : E)
    (was_crypted : Bool) (s : Service A E P K B k) (p : Packet A E P B) : Service A E P K B k :=
  match p with
  | .reqk p => s.onRequestKey lib chance p
  | .repk p => s.onKeyReply lib now source p
  | p =>
    if !was_crypted ∧ !s.accept_plain then
      s
    else
      { s with node := s.node.onContactSeen now p.sender source p.observer }.handle
        lib chance now source p

/-- An encrypted packet in `Node::process`. -/
def process_crypt (lib : Library A E P K B) (chance : Chance A E K B) (now : Time) (source : E)
    (sender : A) (payload : B) (s : Service A E P K B k) : Service A E P K B k :=
  match s._keys.lookup sender with
  | none => s.send_key_request lib chance sender
  | some (key, observer) =>
    match lib.decrypt key payload with
    | .fault .cryptography_error => s.send_key_request lib chance sender
    | .fault f => s.fail f
    | .null => s.fail .null
    | .packet plain =>
      if plain.sender ≠ sender then s
      else if plain.observer < observer then s
      else if observer ∧ plain.non_observer then s
      else s.dispatch lib chance now source true plain

/-- `Node::process`. -/
def process (lib : Library A E P K B) (chance : Chance A E K B) (now : Time) (source : E)
    (buf : B) (s : Service A E P K B k) : Service A E P K B k :=
  -- the input is made before the errors are caught
  if !lib._check_magic buf then
    s.fail .serialization_error
  else
    match lib.deserialize buf with
    | .fault .serialization_error => s
    | .fault f => s.fail f
    | .null => s
    | .packet (.crypt sender _ payload) => s.process_crypt lib chance now source sender payload
    | .packet p => s.dispatch lib chance now source false p

/-! ## Runs -/

/-- What happens to a node with requests. -/
inductive Event (A E K B : Type) where
  | node (act : Node.Act A E)
  | datagram (chance : Chance A E K B) (source : E) (buf : B)
  /-- A request is sent: that of `kelipsMGet` is for some files. -/
  | request (id : Int) (files : Option (List A))
  | timeout (id : Int)
  /-- A turn of `Node::pinger`. -/
  | ping (a : A)
  /-- The end of a ping in `Node::cleanup`. -/
  | ping_timeout (a : A)
  /-- Another packet is sent to a contact. -/
  | send_to (observer : Bool) (a : A)
  /-- `Node::contact` finds an endpoint. -/
  | contact (observer : Bool) (a : A) (endpoint : E)
  /-- A key is asked for. -/
  | send_key_request (chance : Chance A E K B) (a : A)

/-- A ping of the contact, if there is one, has no reply. -/
def unanswered (a : A) (s : Service A E P K B k) : Service A E P K B k :=
  match s._ping_time.lookup a with
  | some _ =>
    { s with
      node := s.node.update (some (s.node.group_of a)) a fun c =>
        { c with ping_timeouts := c.ping_timeouts + 1 }
      _ping_time := s._ping_time.filter fun ping => ping.1 ≠ a }
  | none => s

def step (lib : Library A E P K B) (s : Service A E P K B k) :
    Time × Event A E K B → Service A E P K B k
  | (now, .node act) => { s with node := s.node.step (now, act) }
  | (now, .datagram chance source buf) => s.process lib chance now source buf
  | (_, .request id files) =>
    { s with _pending_requests := s._pending_requests ++ [(id, { files })] }
  | (_, .timeout id) =>
    { s with _pending_requests := s._pending_requests.filter fun r => r.1 ≠ id }
  | (now, .ping a) =>
    let s := s.unanswered a
    { s with
      node := s.node.update (some (s.node.group_of a)) a (Contact.queue (s.sends a))
      _ping_time := (a, now) :: s._ping_time }
  | (_, .ping_timeout a) => s.unanswered a
  | (_, .send_to observer a) =>
    { s with node := s.node.update (s.node.target observer a) a (Contact.queue (s.sends a)) }
  | (now, .contact observer a endpoint) =>
    { s with node := s.node.update (s.node.target observer a) a fun c =>
        { c with
          validated_endpoint := some (c.validated_endpoint.getD (endpoint, now)), pending := 0 } }
  | (_, .send_key_request chance a) => s.send_key_request lib chance a

end Service

end memo.overlay.kelips
