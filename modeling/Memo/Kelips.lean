-- A node of the `kelips` overlay: the contacts that it knows of each group and their
-- endpoints, the observers, the files that it and the nodes of its group advertise,
-- and what it does with the packets and the states that it is sent. A handler takes
-- no time.
import Mathlib.Algebra.Group.Int.Defs
import Mathlib.Data.Finset.Basic
import Memo.Vectors

open vectors

namespace memo.overlay.kelips

/-- A point in time, or a duration. -/
abbrev Time : Type := Int

/-! ## Endpoints -/

/-- `TimedEndpoint`. -/
abbrev TimedEndpoint (E : Type) : Type := E × Time

section

variable {E : Type} [DecidableEq E]

/-- `endpoints_update`. A new endpoint is as old as the call. -/
def endpoints_update (now : Time) (entry : E) (t : Time) :
    List (TimedEndpoint E) → List (TimedEndpoint E)
  | [] => [(entry, now)]
  | (e, last) :: rest =>
    if e = entry then (e, max t last) :: rest
    else (e, last) :: endpoints_update now entry t rest

/-- `endpoints_update` with the endpoints of another list. -/
def endpoints_merge (now : Time) (endpoints src : List (TimedEndpoint E)) :
    List (TimedEndpoint E) :=
  src.foldl (fun endpoints te => endpoints_update now te.1 te.2 endpoints) endpoints

/-- With endpoints that have no time. -/
def endpoints_seen (now : Time) (endpoints : List (TimedEndpoint E)) (src : List E) :
    List (TimedEndpoint E) :=
  endpoints_merge now endpoints (src.map fun e => (e, now))

/-- `endpoints_cleanup`. -/
def endpoints_cleanup (endpoints : List (TimedEndpoint E)) (deadline : Time) :
    List (TimedEndpoint E) :=
  remove_if (fun te => te.2 < deadline) endpoints

/-- `endpoints_max`, of a contact that has an endpoint. -/
def endpoints_max : List (TimedEndpoint E) → Time
  | [] => 0
  | te :: rest => rest.foldl (fun last te => max last te.2) te.2

end

/-! ## The state of a node -/

/-- `Contact`, but for its contacter. Of the packets that wait for it there is the number. -/
structure Contact (A E : Type) where
  validated_endpoint : Option (TimedEndpoint E) := none
  endpoints : List (TimedEndpoint E)
  address : A
  rtt : Time := 0
  last_gossip : Time := 0
  gossip_count : Int := 0
  pending : Nat := 0
  discovered : Bool
  ping_timeouts : Int := 0
deriving DecidableEq

structure File (A : Type) where
  address : A
  home_node : A
  last_seen : Time
  last_gossip : Time
  gossip_count : Int
deriving DecidableEq

/-- `Configuration` and its `GossipConfiguration`, with the map of the addresses to the groups. -/
structure Configuration (A : Type) (k : Nat) where
  group_of : A → Fin k
  max_other_contacts : Nat := 6
  contact_timeout : Time := 12000
  file_timeout : Time := 1200000
  new_threshold : Int := 5
  old_threshold : Time := 40000
  contacts_group : Nat := 3
  contacts_other : Nat := 3

/-- `packet::Gossip`. -/
structure Gossip (A E : Type) where
  sender : A
  observer : Bool
  contacts : List (A × List (TimedEndpoint E)) := []
  files : List (A × Time × A) := []
deriving DecidableEq

/-- `on_discovery` and `on_disappearance`, with the flag of an observer. -/
inductive Signal (A : Type) where
  | discovery (a : A) (observer : Bool)
  | disappearance (a : A) (observer : Bool)
deriving DecidableEq

/-- `Node`. The table `some g` has the contacts of the group, and `none` the observers. `stored`
is what the local storage holds; `signals` and `sent` are what the node did so far. -/
structure Node (A E : Type) (k : Nat) where
  _self : A
  _observer : Bool := false
  _config : Configuration A k
  contacts : Option (Fin k) → List (Contact A E) := fun _ => []
  files : List (File A) := []
  _promised_files : List A := []
  stored : Finset A := ∅
  signals : List (Signal A) := []
  sent : List (Gossip A E) := []

namespace Node

variable {A E : Type} {k : Nat} [DecidableEq A] [DecidableEq E]

def group_of (n : Node A E k) (a : A) : Fin k := n._config.group_of a

def _group (n : Node A E k) : Fin k := n.group_of n._self

/-- The table for an address. -/
def target (n : Node A E k) (observer : Bool) (a : A) : Option (Fin k) :=
  if observer then none else some (n.group_of a)

def find (n : Node A E k) (table : Option (Fin k)) (a : A) : Option (Contact A E) :=
  (n.contacts table).find? fun c => c.address = a

def set (n : Node A E k) (table : Option (Fin k)) (l : List (Contact A E)) : Node A E k :=
  { n with contacts := Function.update n.contacts table l }

/-- A change of the contact, if it is in the table. -/
def update (n : Node A E k) (table : Option (Fin k)) (a : A)
    (f : Contact A E → Contact A E) : Node A E k :=
  n.set table ((n.contacts table).map fun c => if c.address = a then f c else c)

/-- A contact that the table does not have. -/
def add (n : Node A E k) (table : Option (Fin k)) (c : Contact A E) : Node A E k :=
  n.set table (n.contacts table ++ [c])

def erase (n : Node A E k) (table : Option (Fin k)) (a : A) : Node A E k :=
  n.set table ((n.contacts table).filter fun c => c.address ≠ a)

def emit (n : Node A E k) (signal : Signal A) : Node A E k :=
  { n with signals := n.signals ++ [signal] }

/-- The contacts of other nodes are sent to all observers. -/
def notify_observers (n : Node A E k) (contacts : List (A × List (TimedEndpoint E))) :
    Node A E k :=
  { n with
    sent := n.sent ++ (n.contacts none).map fun _ => ⟨n._self, n._observer, contacts, []⟩ }

/-- Whether there is room for a contact of the group. -/
def room (n : Node A E k) (g : Fin k) : Bool :=
  g = n._group ∨ (n.contacts (some g)).length < n._config.max_other_contacts

/-! ## Contacts -/

/-- The entry that is in the other table. That of a storage node is moved. -/
def misplaced (n : Node A E k) (a : A) (observer : Bool) : Node A E k × Option (Fin k) :=
  let table := n.target observer a
  match n.find table a with
  | some _ => (n, table)
  | none =>
    let ntable := n.target (!observer) a
    match n.find ntable a with
    | some c =>
      if observer then (n, ntable)
      else ((n.add table c).erase ntable a, table)
    | none => (n, table)

/-- `Node::get_or_make`, with the table in which the contact is then. -/
def get_or_make (now : Time) (a : A) (observer : Bool) (endpoints : List E) (make : Bool)
    (n : Node A E k) : Node A E k × Option (Option (Fin k)) :=
  let (n, table) := n.misplaced a observer
  if make then
    match n.find table a with
    | none =>
      let n := n.add table
        { endpoints := endpoints.map fun e => (e, now), address := a, discovered := observer }
      (if observer then n.emit (.discovery a true) else n, some table)
    | some c =>
      let merged := endpoints_seen now c.endpoints endpoints
      if merged.length ≠ c.endpoints.length then
        let n := n.update table a fun c =>
          { c with endpoints := merged, validated_endpoint := none }
        (n.notify_observers [(a, merged)], some table)
      else
        (n.update table a fun c => { c with endpoints := merged }, some table)
  else
    (n, none)

/-- `Node::onContactSeen`. -/
def onContactSeen (now : Time) (a : A) (endpoint : E) (observer : Bool) (n : Node A E k) :
    Node A E k :=
  if a = n._self then
    n
  else
    match n.get_or_make now a observer [endpoint] (observer || n.room (n.group_of a)) with
    | (n, some table) =>
      n.update table a fun c =>
        { c with
          validated_endpoint := some (endpoint, now)
          endpoints := endpoints_update now endpoint now c.endpoints
          ping_timeouts := 0 }
    | (n, none) => n

/-! ## Gossip -/

/-- The sender of a gossip, for an observer. -/
def gossip_sender (now : Time) (a : A) (endpoint : E) (n : Node A E k) : Node A E k :=
  let table := some (n.group_of a)
  let n :=
    if (n.find table a).isSome then n else (n.get_or_make now a false [endpoint] true).1
  match n.find table a with
  | some c =>
    if c.discovered then n
    else (n.update table a fun c => { c with discovered := true }).emit (.discovery a false)
  | none => n

def gossip_contact (now : Time) (n : Node A E k) (contact : A × List (TimedEndpoint E)) :
    Node A E k :=
  let (a, endpoints) := contact
  if a = n._self then
    n
  else
    let endpoints := endpoints_cleanup endpoints (now - n._config.contact_timeout)
    if endpoints = [] then
      n
    else
      let g := n.group_of a
      if (n.find (some g) a).isSome then
        n.update (some g) a fun c =>
          { c with endpoints := endpoints_merge now c.endpoints endpoints }
      else if n.room g then
        (n.add (some g) { endpoints, address := a, discovered := true }).emit
          (.discovery a false)
      else
        n

/-- An entry that there is already is at most refreshed. -/
def gossip_file (n : Node A E k) (f : A × Time × A) : Node A E k :=
  let (a, t, home) := f
  if n.files.any fun f => f.address = a ∧ f.home_node = home then
    { n with files := n.files.map fun f =>
        if f.address = a ∧ f.home_node = home then { f with last_seen := max f.last_seen t }
        else f }
  else
    { n with files := n.files ++ [⟨a, home, t, 0, 0⟩] }

/-- `Node::onGossip`. -/
def onGossip (now : Time) (endpoint : E) (p : Gossip A E) (n : Node A E k) : Node A E k :=
  let g := n.group_of p.sender
  let n := if n._observer then n.gossip_sender now p.sender endpoint else n
  let n := p.contacts.foldl (gossip_contact now) n
  if g = n._group then p.files.foldl gossip_file n else n

/-- `Node::process`, of a gossip. -/
def process (now : Time) (endpoint : E) (p : Gossip A E) (n : Node A E k) : Node A E k :=
  (n.onContactSeen now p.sender endpoint p.observer).onGossip now endpoint p

/-! ## The state of another node -/

def update_contact (now : Time) (n : Node A E k) (contact : A × List E) : Node A E k :=
  let (a, endpoints) := contact
  if a = n._self then
    n
  else
    let g := n.group_of a
    match n.find (some g) a with
    | none =>
      if n.room g then
        let endpoints := endpoints.map fun e => (e, now)
        ((n.add (some g) { endpoints, address := a, discovered := true }).emit
          (.discovery a false)).notify_observers [(a, endpoints)]
      else
        n
    | some c =>
      let merged := endpoints_seen now c.endpoints endpoints
      let n := n.update (some g) a fun c => { c with endpoints := merged, discovered := true }
      if c.discovered then n
      else (n.emit (.discovery a false)).notify_observers [(a, merged.map fun te => (te.1, now))]

def update_file (now : Time) (n : Node A E k) (f : A × A) : Node A E k :=
  let (a, home) := f
  if n.group_of a = n._group ∧ home ≠ n._self ∧
      ¬n.files.any fun f => f.address = a ∧ f.home_node = home then
    { n with files := n.files ++ [⟨a, home, now, now, n._config.new_threshold + 1⟩] }
  else
    n

/-- `Node::process_update`. -/
def process_update (now : Time) (contacts : List (A × List E)) (files : List (A × A))
    (n : Node A E k) : Node A E k :=
  files.foldl (update_file now) (contacts.foldl (update_contact now) n)

/-! ## Files -/

/-- `Node::reload_state`. -/
def reload_state (now : Time) (keys : List A) (n : Node A E k) : Node A E k :=
  { n with files :=
      n.files ++ keys.map fun a => ⟨a, n._self, now, now, n._config.new_threshold + 1⟩ }

/-- `Node::store`. -/
def store (now : Time) (a : A) (n : Node A E k) : Node A E k :=
  let n :=
    if n.files.any fun f => f.address = a ∧ f.home_node = n._self then n
    else { n with files := n.files ++ [⟨a, n._self, now, 0, 0⟩] }
  match n._promised_files.findIdx? fun b => b = a with
  | some i => { n with _promised_files := swap_pop i n._promised_files }
  | none => n

/-- `Node::remove`. -/
def remove (a : A) (n : Node A E k) : Node A E k :=
  { n with files := n.files.eraseP fun f => f.address = a ∧ f.home_node = n._self }

/-- A result of `Node::kelipsGet` for a file, in a reply. -/
def lookup_result (now : Time) (file home : A) (n : Node A E k) : Node A E k :=
  if n.group_of file = n._group ∧
      ¬n.files.any fun f => f.address = file ∧ f.home_node = home then
    { n with files := n.files ++ [⟨file, home, now, 0, 0⟩] }
  else
    n

/-- `Node::cleanup`, of the contacts of a table, and which of them are gone. -/
def cleanup_contacts (deadline : Time) (contacts : List (Contact A E)) :
    List (Contact A E) × List (Contact A E) :=
  (contacts.map fun c => { c with endpoints := endpoints_cleanup c.endpoints deadline }).partition
    fun c => c.endpoints ≠ []

/-- A table is cleaned. That of the observers is last, and is not told about. -/
def cleanup_table (deadline : Time) (n : Node A E k) (table : Option (Fin k)) : Node A E k :=
  let (kept, gone) := cleanup_contacts deadline (n.contacts table)
  let n := n.set table kept
  match table with
  | some _ =>
    (gone.filter (·.discovered)).foldl (fun n c => n.emit (.disappearance c.address false)) n
  | none => n

/-- `Node::cleanup`. -/
def cleanup (now : Time) (n : Node A E k) : Node A E k :=
  let n := { n with files := n.files.filter fun f =>
    f.home_node = n._self ∨ now - f.last_seen ≤ n._config.file_timeout }
  ((List.finRange k).map some ++ [none]).foldl
    (cleanup_table (now - n._config.contact_timeout)) n

/-! ## The emission of gossip -/

/-- What a packet has so far, and the node. -/
abbrev Picked (A E : Type) (k : Nat) : Type := List (A × List (TimedEndpoint E)) × Node A E k

/-- One turn of the loop of `filterAndInsert`. -/
def insertContact (now : Time) (s : Picked A E k) (a : A) : Picked A E k :=
  let table := some (s.2.group_of a)
  match s.2.find table a with
  | some c =>
    (if s.1.any fun e => e.1 = a then s.1 else s.1 ++ [(a, c.endpoints)],
      s.2.update table a fun c =>
        { c with last_gossip := now, gossip_count := c.gossip_count + 1 })
  | none => s

/-- `filterAndInsert`. The contacts are taken at random when there are too many. -/
def filterAndInsert (pick : Nat → List A → List A) (now : Time) (contacts : List A)
    (target_count : Nat) (s : Picked A E k) : Picked A E k :=
  (if target_count < contacts.length then pick target_count contacts else contacts).foldl
    (insertContact now) s

/-- The addresses of the contacts of some tables, that are as they must be. -/
def addresses (n : Node A E k) (tables : List (Option (Fin k))) (p : Contact A E → Bool) :
    List A :=
  (tables.flatMap n.contacts).filterMap fun c => if p c then some c.address else none

/-- A contact that was refreshed and not gossiped about since. -/
def refreshed (n : Node A E k) (now : Time) (c : Contact A E) : Bool :=
  c.last_gossip < endpoints_max c.endpoints ∧
    n._config.old_threshold < now - endpoints_max c.endpoints

def missing (s : Picked A E k) (c : Contact A E) : Bool := !s.1.any fun e => e.1 = c.address

section

variable (pick : Nat → List A → List A) (now : Time) (tables : List (Option (Fin k)))
variable (target_count : Nat) (s : Picked A E k)

def pickNew : Picked A E k :=
  filterAndInsert pick now
    (s.2.addresses tables fun c => c.gossip_count < s.2._config.new_threshold) target_count s

def pickOld : Picked A E k :=
  filterAndInsert pick now (s.2.addresses tables fun c => s.2.refreshed now c && missing s c)
    target_count s

def pickRandom : Picked A E k :=
  filterAndInsert pick now (s.2.addresses tables (missing s)) target_count s

end

/-- `Node::pickContacts`: some of the group, and then of the others. -/
def pickContacts (pick : Nat → List A → List A) (now : Time) (n : Node A E k) : Picked A E k :=
  let group := [some n._group]
  let others := ((List.finRange k).filter fun g => g ≠ n._group).map some
  let max_group := n._config.contacts_group
  let max_other := n._config.contacts_other
  let s := pickNew pick now group (max_group / 2) ([], n)
  let s := pickOld pick now group (max_group / 2) s
  let s :=
    if s.1.length < max_group then pickRandom pick now group (max_group - s.1.length) s else s
  let size0 := s.1.length
  let s := pickNew pick now others (max_other / 2) s
  let s := pickOld pick now others (max_other / 2) s
  if s.1.length - size0 < max_group then
    -- the room is an `int`, and then an `unsigned int`
    let room : Int := max_other - (s.1.length - size0 : Nat)
    pickRandom pick now others (room % 2 ^ 32).toNat s
  else
    s

omit [DecidableEq E] in
theorem pickContacts_induction {I : Picked A E k → Prop} (pick : Nat → List A → List A)
    (now : Time) (n : Node A E k) (h0 : I ([], n)) (h : ∀ s a, I s → I (insertContact now s a)) :
    I (n.pickContacts pick now) := by
  have hall : ∀ contacts count s, I s → I (filterAndInsert pick now contacts count s) := by
    intro contacts count s hs
    unfold filterAndInsert
    exact List.foldlRecOn _ _ hs fun s hs a _ => h s a hs
  have hgroup : ∀ tables count s, I s →
      I (pickOld pick now tables count (pickNew pick now tables count s)) :=
    fun _ _ _ hs => hall _ _ _ (hall _ _ _ hs)
  unfold pickContacts
  extract_lets group others max_group max_other s₁ s₂ s₃ size0 s₄ s₅
  have h₃ : I s₃ := by
    change I (if s₂.1.length < max_group then _ else _)
    split
    · exact hall _ _ _ (hgroup _ _ _ h0)
    · exact hgroup _ _ _ h0
  split
  · exact hall _ _ _ (hgroup _ _ _ h₃)
  · exact hgroup _ _ _ h₃

/-- `Node::pickFiles`, whichever are picked. The files of the node itself are refreshed. -/
def pickFiles (picked : List (A × A)) (now : Time) (n : Node A E k) :
    List (A × Time × A) × Node A E k :=
  let refreshed := n.files.map fun f =>
    if f.home_node = n._self then { f with last_seen := now } else f
  let isPicked := fun f : File A => (f.address, f.home_node) ∈ picked
  (refreshed.filterMap fun f =>
      if isPicked f then some (f.address, f.last_seen, f.home_node) else none,
    { n with files := refreshed.map fun f =>
        if isPicked f then { f with last_gossip := now, gossip_count := f.gossip_count + 1 }
        else f })

/-- A turn of `Node::gossipEmitter`: the contacts for other groups, and with the files for its
own. -/
def gossipEmitter (pick : Nat → List A → List A) (picked : List (A × A)) (now : Time)
    (n : Node A E k) : Node A E k :=
  let (contacts, n) := n.pickContacts pick now
  let (files, n) := n.pickFiles picked now
  { n with sent := n.sent ++
      [⟨n._self, n._observer, contacts, []⟩, ⟨n._self, n._observer, contacts, files⟩] }

/-! ## The system -/

/-- What happens to a node. Each packet is first seen as one of its sender. -/
inductive Act (A E : Type) where
  | seen (a : A) (endpoint : E) (observer : Bool)
  | gossip (endpoint : E) (p : Gossip A E)
  /-- A request is answered to the node that it says to come from. -/
  | origin (a : A) (endpoints : List E)
  | send_bootstrap (a : A) (endpoints : List E)
  | process_update (contacts : List (A × List E)) (files : List (A × A))
  | lookup_result (file home : A)
  | cleanup
  | gossipEmitter (pick : Nat → List A → List A) (picked : List (A × A))
  /-- The local peer stores a block. -/
  | store (a : A)
  /-- The local peer stores what tells no one: an acceptor that has no block. -/
  | store_silently (a : A)
  | remove (a : A)

def step (n : Node A E k) : Time × Act A E → Node A E k
  | (now, .seen a endpoint observer) => n.onContactSeen now a endpoint observer
  | (now, .gossip endpoint p) => n.onGossip now endpoint p
  | (now, .origin a endpoints) => (n.get_or_make now a true endpoints true).1
  | (now, .send_bootstrap a endpoints) => (n.get_or_make now a false endpoints true).1
  | (now, .process_update contacts files) => n.process_update now contacts files
  | (now, .lookup_result file home) => n.lookup_result now file home
  | (now, .cleanup) => n.cleanup now
  | (now, .gossipEmitter pick picked) => n.gossipEmitter pick picked now
  | (now, .store a) => { n with stored := insert a n.stored }.store now a
  | (_, .store_silently a) => { n with stored := insert a n.stored }
  | (_, .remove a) =>
    -- a block that is missing is an error
    if a ∈ n.stored then { n with stored := n.stored.erase a }.remove a else n

/-- A node whose storage lists some addresses, once it has loaded them. -/
def started (a : A) (observer : Bool) (config : Configuration A k) (now : Time)
    (keys : List A) : Node A E k :=
  reload_state now keys
    { _self := a, _observer := observer, _config := config, stored := keys.toFinset }

end Node

end memo.overlay.kelips
