-- The calls that a peer can make on one connection, as `Local` and
-- `Paxos::LocalPeer` register them, and what they ask of the peer: a passport,
-- a signature of the challenge, and then a session key. Every call on blocks
-- checks this for itself, and two of them do not.
import Memo.PassportLaws
import Memo.Reconcile

open ops athena.paxos

namespace memo

/-- A call of a peer, with its arguments and with what the overlay answers meanwhile. -/
inductive RPC (B A R K Sig CSig EK : Type) where
  | store (b : B) (mode : StoreMode)
  | fetch (a : A) (local_version : Option Int)
  | remove (a : A) (rs : R) (owners : Finset A)
  | ping (i : Int)
  | auth_syn (id : A) (p : Passport K Sig) (v : elle.Version)
  | auth_ack (enc_key : EK) (signed_challenge : CSig)
  | resolve_keys (ids : List Int)
  | resolve_all_keys
  | propose (q : Finset A) (a : A) (p : Proposal A) (insert : Bool) (owners : Finset A)
  | accept (q : Finset A) (a : A) (p : Proposal A) (value : Value B A) (owners : Finset A)
  | confirm (q : Finset A) (a : A) (p : Proposal A) (owners : Finset A)
  | get (q : Finset A) (a : A) (local_version : Option Int) (owners : Finset A)
  | reconcile (a : A) (answer : A → LocalPeer.Fetched B A) (lookup_nodes : Finset A → List A)
      (owners : Finset A)
  | propagate (q : Finset A) (b : B) (p : Proposal A) (owners : Finset A)
  | unknown (name : String)

/-- What a call returns. `hangs` stands for a call that does not return. -/
inductive Reply (B A K Sig : Type) where
  | nothing
  | block (b : B)
  | number (i : Int)
  | auth (id : A) (challenge : Nat) (passport : Passport K Sig)
  | acknowledged
  | keys (ks : List K)
  | all_keys (ks : List (Int × K))
  | response (r : Response B A)
  | minimum (p : Proposal A)
  | current (r : Option (Accepted (Option B) A))
  | reconciled (b : Bool)
  | hangs

/-- The node as the calls see it: its blocks, its network, its keys, and how it reads messages. -/
structure Endpoint (B A R K Sig H CSig EK Key Msg : Type) where
  model : Model B A R
  crypto : Cryptography K Sig H
  dht : Doughnut K Sig H
  /-- How many calls of `verify` fit on the stack. -/
  stack : Nat
  version : elle.Version
  passport : Passport K Sig
  resolve_key : Int → Option K
  key_cache : List (Int × K)
  show_id : A → String
  verify_challenge : K → CSig → Nat → Bool
  open_key : EK → Option Key
  decipher : Key → Msg → Option Msg
  parse : Msg → Option (RPC B A R K Sig CSig EK)

/-- The state of one connection. The entry of `_passports` is made once. -/
structure Session (B A K Sig Key : Type) where
  node : LocalPeer B A
  id : Option A
  passport : Option (Passport K Sig)
  stored_challenge : Option Nat
  key : Option Key
  next_challenge : Nat
  closed : Bool

def show_version (v : elle.Version) : String :=
  toString v.major ++ "." ++ toString v.minor ++ "." ++ toString v.subminor

namespace Session

variable {B A R K Sig H CSig EK Key Msg : Type} [LinearOrder A] [DecidableEq K]
variable {s : Session B A K Sig Key}

/-! ## The handlers -/

def on_node {α : Type} (x : Op (LocalPeer B A) (Fault B A) α) :
    Op (Session B A K Sig Key) (Fault B A) α := fun s =>
  ((x s.node).1, { s with node := (x s.node).2 })

/-- `_require_auth`, with `encrypt_rpc`. -/
def _require_auth (write_op : Bool) : Op (Session B A K Sig Key) (Fault B A) Unit := do
  let s ← Op.get
  match s.key with
  | none => Op.throw (.error "Authentication required")
  | some _ =>
    if write_op then
      match s.passport with
      | none => Op.throw (.error "_Map_base::at")
      | some p => if !p.allow_write then Op.throw (.error "Write permission denied")

/-- A handler that asks for the authentication first. -/
def authenticated {α : Type} (write_op : Bool) (x : Op (LocalPeer B A) (Fault B A) α)
    (reply : α → Reply B A K Sig) :
    Op (Session B A K Sig Key) (Fault B A) (Reply B A K Sig) := do
  _require_auth write_op
  let r ← on_node x
  return reply r

/-- `Paxos::LocalPeer::_fetch`: only what is not a Paxos block. -/
def fetch (a : A) : Op (LocalPeer B A) (Fault B A) B := do
  let self ← Op.get
  match self.storage a with
  | none => Op.throw (.missing_key a)
  | some (.paxos _) => Op.throw (.error "plain fetch called on mutable block")
  | some (.block b) => return b

/-- `auth_syn`, after the checks of the version. -/
def auth_syn (e : Endpoint B A R K Sig H CSig EK Key Msg) (p : Passport K Sig) :
    Op (Session B A K Sig Key) (Fault B A) (Reply B A K Sig) :=
  match e.dht.verify e.crypto e.stack p false false false with
  | none => do
    Op.modify fun s => { s with closed := true }
    return .hangs
  | some false => Op.throw (.error "Passport validation failed")
  | some true => do
    let s ← Op.get
    Op.modify fun s => { s with
      stored_challenge := some s.next_challenge
      next_challenge := s.next_challenge + 1
      -- `insert` keeps the passport that is there
      passport := s.passport.or (some p) }
    return .auth s.node.id s.next_challenge e.passport

/-- From 0.7.0 on, the peer gives its id. -/
def check_id (e : Endpoint B A R K Sig H CSig EK Key Msg) (id : A) :
    Op (Session B A K Sig Key) (Fault B A) Unit :=
  if ⟨0, 7, 0⟩ ≤ e.version then do
    Op.modify fun s => { s with id := some id }
    let s ← Op.get
    if s.node.id = id then
      Op.throw (.error ("incoming peer has same id as us: " ++ e.show_id id))
    else return ()
  else return ()

/-- From 0.4.0 on, the peer gives its version. -/
def check_version (e : Endpoint B A R K Sig H CSig EK Key Msg) (v : elle.Version) :
    Op (Session B A K Sig Key) (Fault B A) Unit :=
  if ⟨0, 4, 0⟩ ≤ e.version ∧ (v.major ≠ e.version.major ∨ v.minor ≠ e.version.minor) then
    Op.throw (.error ("invalid version " ++ show_version v ++ ", we use " ++
      show_version e.version))
  else return ()

def auth_ack (e : Endpoint B A R K Sig H CSig EK Key Msg) (enc_key : EK) (signed_challenge : CSig) :
    Op (Session B A K Sig Key) (Fault B A) (Reply B A K Sig) := do
  let s ← Op.get
  match s.stored_challenge, s.passport with
  | none, _ => Op.throw (.error "auth_syn must be called before auth_ack")
  | some _, none => Op.throw (.error "_Map_base::at")
  | some challenge, some p =>
    if e.verify_challenge p.user signed_challenge challenge then
      match e.open_key enc_key with
      | none => Op.throw (.error "unable to open the key")
      | some key => do
        Op.modify fun s => { s with key := some key }
        return .acknowledged
    else Op.throw (.error "Challenge verification failed")

/-- What is registered under the name of the call. -/
def handle [Inhabited A] (e : Endpoint B A R K Sig H CSig EK Key Msg) :
    RPC B A R K Sig CSig EK → Op (Session B A K Sig Key) (Fault B A) (Reply B A K Sig)
  | .store b mode => authenticated true (LocalPeer.store e.model b mode) fun _ => .nothing
  | .fetch a _ => authenticated false (fetch a) .block
  | .remove a rs owners =>
    authenticated true (LocalPeer.remove e.model a rs owners) fun _ => .nothing
  | .ping i => return .number i
  | .auth_syn id p v => do
    check_id e id
    check_version e v
    auth_syn e p
  | .auth_ack enc_key signed_challenge => auth_ack e enc_key signed_challenge
  | .resolve_keys ids =>
    match ids.mapM e.resolve_key with
    | none => Op.throw (.error "unknown key")
    | some ks => return .keys ks
  | .resolve_all_keys => return .all_keys e.key_cache
  | .propose q a p insert owners =>
    authenticated true (LocalPeer.propose q a p insert owners) .response
  | .accept q a p value owners =>
    authenticated true (LocalPeer.accept e.model q a p value owners) .minimum
  | .confirm q a p owners => do
    on_node (LocalPeer.confirm q a p owners)
    return .nothing
  | .get q a local_version owners => do
    let r ← on_node (LocalPeer.get q a owners)
    let r ← Op.ofExcept (LocalPeer.honor_local_version e.model local_version r)
    return .current r
  | .reconcile a answer lookup_nodes owners =>
    authenticated true (LocalPeer.reconcile e.model a answer lookup_nodes owners) .reconciled
  | .propagate q b p owners =>
    authenticated true (LocalPeer.propagate e.model q b p owners) fun _ => .nothing
  | .unknown name => Op.throw (.error ("unknown RPC: " ++ name))

/-! ## The messages -/

/-- The call in a message: it is deciphered when there is a session key. -/
def received (e : Endpoint B A R K Sig H CSig EK Key Msg) (s : Session B A K Sig Key) (m : Msg) :
    Option (RPC B A R K Sig CSig EK) :=
  (match s.key with
    | some key => e.decipher key m
    | none => some m).bind e.parse

/-- `_serve`: one message. A message that cannot be read ends the connection. -/
def serve [Inhabited A] (e : Endpoint B A R K Sig H CSig EK Key Msg) (m : Msg)
    (s : Session B A K Sig Key) :
    Option (Except (Fault B A) (Reply B A K Sig)) × Session B A K Sig Key :=
  if s.closed then (none, s)
  else
    match received e s m with
    | none => (none, { s with closed := true })
    | some rpc => (some (handle e rpc s).1, (handle e rpc s).2)

/-- The connection after a list of messages. -/
def after [Inhabited A] (e : Endpoint B A R K Sig H CSig EK Key Msg) (s : Session B A K Sig Key)
    (messages : List Msg) : Session B A K Sig Key :=
  messages.foldl (fun s m => (serve e m s).2) s

/-! ## What a request may do -/

/-- Nothing that the claims of a peer are about changed: the storage, the acceptors and the
indices of the quorums. -/
structure Same (n n' : LocalPeer B A) : Prop where
  storage : n'.storage = n.storage
  held : ∀ a, n'.held a = n.held a
  quorums : n'.quorums = n.quorums
  node_blocks : n'.node_blocks = n.node_blocks

theorem Same.refl (n : LocalPeer B A) : Same n n := ⟨rfl, fun _ => rfl, rfl, rfl⟩

/-- The answer holds the content of a block. -/
def Carries : Except (Fault B A) (Reply B A K Sig) → Prop
  | .ok (.block _) => True
  | .ok (.response ⟨_, some (.value _), _⟩) => True
  | .ok (.current (some ⟨_, .value (some _), _⟩)) => True
  | .error (.conflict _ _) => True
  | _ => False

/-- The peer passes `_require_auth`. -/
def Passes (s : Session B A K Sig Key) (write_op : Bool) : Prop :=
  s.key.isSome ∧ (write_op = true → ∃ p, s.passport = some p ∧ p.allow_write = true)

variable {e : Endpoint B A R K Sig H CSig EK Key Msg} {n : LocalPeer B A} {write_op : Bool}
  {past : List Msg} {d : Server B A} {α : Type} {a : A}

omit [LinearOrder A] [DecidableEq K] in
theorem require_auth_passes (h : Passes s write_op) :
    _require_auth write_op s = (.ok (), s) := by
  obtain ⟨hkey, hwrite⟩ := h
  obtain ⟨key, hkey⟩ := Option.isSome_iff_exists.mp hkey
  unfold _require_auth
  rw [Op.bind_of_ok (Op.get_apply s), hkey]
  cases write_op with
  | false => rfl
  | true =>
    obtain ⟨p, hp, hw⟩ := hwrite rfl
    simp only [if_true, hp, hw, Bool.not_true, Bool.false_eq_true, if_false]
    rfl

omit [LinearOrder A] [DecidableEq K] in
theorem require_auth_fails (h : ¬ Passes s write_op) :
    ∃ what, _require_auth write_op s = (.error (.error what), s) := by
  unfold _require_auth
  rw [Op.bind_of_ok (Op.get_apply s)]
  cases hkey : s.key with
  | none => exact ⟨_, rfl⟩
  | some key =>
    cases write_op with
    | false => exact absurd ⟨by simp [hkey], nofun⟩ h
    | true =>
      simp only [if_true]
      cases hp : s.passport with
      | none => exact ⟨_, rfl⟩
      | some p =>
        cases hw : p.allow_write with
        | false => exact ⟨_, by simp only [hw]; rfl⟩
        | true => exact absurd ⟨by simp [hkey], fun _ => ⟨p, hp, hw⟩⟩ h

omit [LinearOrder A] [DecidableEq K] in
theorem on_node_bind {β : Type} {x : Op (LocalPeer B A) (Fault B A) α}
    {f : α → Op (Session B A K Sig Key) (Fault B A) β} (hf : ∀ r s, (f r s).2 = s)
    (s : Session B A K Sig Key) :
    ((on_node x >>= f) s).2 = { s with node := (x s.node).2 } := by
  cases hx : x s.node with
  | mk r n =>
    cases r with
    | ok a =>
      have hnode : on_node x s = (.ok a, { s with node := n }) := by simp [on_node, hx]
      rw [Op.bind_of_ok hnode, hf]
    | error g =>
      have hnode : on_node x s = (.error g, { s with node := n }) := by simp [on_node, hx]
      rw [Op.bind_of_error hnode]

omit [LinearOrder A] [DecidableEq K] in
theorem authenticated_passes (x : Op (LocalPeer B A) (Fault B A) α) (reply : α → Reply B A K Sig)
    (h : Passes s write_op) :
    (authenticated write_op x reply s).2 = { s with node := (x s.node).2 } := by
  unfold authenticated
  rw [Op.bind_of_ok (require_auth_passes h)]
  exact on_node_bind (fun _ _ => rfl) s

omit [LinearOrder A] [DecidableEq K] in
theorem authenticated_fails (x : Op (LocalPeer B A) (Fault B A) α) (reply : α → Reply B A K Sig)
    (h : ¬ Passes s write_op) :
    ∃ what, authenticated write_op x reply s = (.error (.error what), s) := by
  obtain ⟨what, hauth⟩ := require_auth_fails h
  exact ⟨what, Op.bind_of_error hauth⟩

/-- The call leaves the session as it is, but for the node, which it changes only for a peer that
may write; it gives the content of a block only to a peer with a session key. -/
structure Respects (s : Session B A K Sig Key)
    (result : Except (Fault B A) (Reply B A K Sig) × Session B A K Sig Key) : Prop where
  passport : result.2.passport = s.passport
  key : result.2.key = s.key
  writes : ¬ Same s.node result.2.node → Passes s true
  reads : Carries result.1 → Passes s false

omit [LinearOrder A] [DecidableEq K] in
theorem Passes.read (h : Passes s true) : Passes s false := ⟨h.1, nofun⟩

omit [DecidableEq K] in
theorem authenticated_respects {x : Op (LocalPeer B A) (Fault B A) α} {reply : α → Reply B A K Sig}
    (hx : write_op = false → (x s.node).2 = s.node) :
    Respects s (authenticated write_op x reply s) := by
  by_cases h : Passes s write_op
  · have hnode := authenticated_passes x reply h
    refine ⟨by rw [hnode], by rw [hnode], ?_, fun _ => ⟨h.1, nofun⟩⟩
    cases write_op with
    | true => exact fun _ => h
    | false =>
      intro hsame
      rw [hnode] at hsame
      simp only [hx rfl] at hsame
      exact absurd (Same.refl _) hsame
  · obtain ⟨what, hfail⟩ := authenticated_fails x reply h
    rw [hfail]
    exact ⟨rfl, rfl, fun hsame => absurd (Same.refl _) hsame, nofun⟩

omit [LinearOrder A] in
theorem fetch_node (a : A) (n : LocalPeer B A) : (fetch a n).2 = n := by
  unfold fetch
  rw [Op.bind_of_ok (Op.get_apply n)]
  cases n.storage a with
  | none => rfl
  | some x => cases x <;> rfl

omit [DecidableEq K] in
theorem respects_of_same {r : Except (Fault B A) (Reply B A K Sig)} (hr : ¬ Carries r) :
    Respects s (r, s) :=
  ⟨rfl, rfl, fun hsame => absurd (Same.refl _) hsame, fun h => absurd h hr⟩

/-! ## Reading without writing -/

/-- A `get` for the block loads nothing into the indices or over another acceptor: the acceptor
is in the cache, nothing is there, or its quorum is known already and there is room for it. -/
def Settled (n : LocalPeer B A) (a : A) : Prop :=
  match n.cached a, n.storage a with
  | some _, _ => True
  | none, none => True
  | none, some (.block _) => n.rebalance_auto_expand = false ∨ n.quorums a ≠ none
  | none, some (.paxos d) => n.addresses.length < n.max_addresses_size ∧
      n.quorums a = some ⟨false, d.current_quorum⟩ ∧
      ∀ m ∈ d.current_quorum, (m, a) ∈ n.node_blocks

theorem find_filter_ne {l : List (A × Server B A)} {a' : A} (h : a' ≠ a) :
    (l.filter (·.1 ≠ a)).find? (·.1 = a') = l.find? (·.1 = a') := by
  simp only [List.find?_filter]
  congr 1
  funext e
  by_cases he : e.1 = a' <;> simp [he, h]

theorem cached_use (h : n.cached a = some d) (a' : A) :
    (n.use a d).cached a' = n.cached a' := by
  by_cases ha : a' = a
  · subst ha
    have hnone : (n.addresses.filter (·.1 ≠ a')).find? (·.1 = a') = none := by
      rw [List.find?_eq_none]
      intro e he
      simpa using (List.mem_filter.mp he).2
    rw [h]
    unfold LocalPeer.cached LocalPeer.use
    rw [List.find?_append, hnone]
    simp
  · unfold LocalPeer.cached LocalPeer.use
    rw [List.find?_append, find_filter_ne ha]
    simp [Ne.symm ha]

theorem same_use (h : n.cached a = some d) :
    Same n (n.use a d) := by
  refine ⟨rfl, fun a' => ?_, rfl, rfl⟩
  unfold LocalPeer.held
  rw [cached_use h]
  rfl

theorem same_load (hc : n.cached a = none) (hst : n.storage a = some (.paxos d))
    (hroom : n.addresses.length < n.max_addresses_size)
    (hq : n.quorums a = some ⟨false, d.current_quorum⟩)
    (hn : ∀ m ∈ d.current_quorum, (m, a) ∈ n.node_blocks) :
    Same n (LocalPeer._load_decision a d n) := by
  refine ⟨rfl, fun a' => ?_, ?_, ?_⟩
  · unfold LocalPeer.held LocalPeer.cached at *
    rw [LocalPeer.load_decision_of_room hroom, List.find?_append]
    by_cases ha : a' = a
    · subst ha
      rw [Option.map_eq_none_iff] at hc
      simp [hc, hst]
    · simp only [List.find?_cons, List.find?_nil, Ne.symm ha, decide_false, Option.or_none]
      rfl
  · exact (congrArg (Function.update n.quorums a) hq.symm).trans (Function.update_eq_self a _)
  · unfold LocalPeer._load_decision LocalPeer._cache
    simp only [hq]
    apply Finset.sdiff_union_of_subset
    intro e he
    obtain ⟨m, hm, rfl⟩ := Finset.mem_image.mp he
    exact hn m hm

theorem load_same (owners : Finset A) (h : Settled n a) :
    Same n (LocalPeer._load a owners n).2 := by
  unfold Settled at h
  unfold LocalPeer._load
  rw [Op.bind_of_ok (Op.get_apply n)]
  cases hc : n.cached a with
  | some d => exact same_use hc
  | none =>
    rw [hc] at h
    simp only
    cases hst : n.storage a with
    | none => exact Same.refl n
    | some x =>
      rw [hst] at h
      cases x with
      | paxos d => exact same_load hc hst h.1 h.2.1 h.2.2
      | block b =>
        have hload : (n.rebalance_auto_expand && (n.quorums a).isNone) = false := by
          rcases h with h | h
          · simp [h]
          · simp [Option.ne_none_iff_isSome.mp h]
        simp only [hload, Bool.false_eq_true, if_false]
        exact Same.refl n

theorem get_node [Inhabited A] (q : Finset A) (a : A) (owners : Finset A) (n : LocalPeer B A) :
    (LocalPeer.get q a owners n).2 = (LocalPeer._load a owners n).2 := by
  have hpaxos : (LocalPeer._load_paxos a none none owners n).2 =
      (LocalPeer._load a owners n).2 := by
    unfold LocalPeer._load_paxos
    cases hl : LocalPeer._load a owners n with
    | mk r n' =>
      cases r with
      | ok x =>
        cases x with
        | paxos d => rw [Op.tryCatch_of_ok (by rw [Op.bind_of_ok hl]; rfl)]
        | block b =>
          rw [Op.tryCatch_of_error (by rw [Op.bind_of_ok hl]; rfl)]
          rfl
      | error f =>
        rw [Op.tryCatch_of_error (Op.bind_of_error hl)]
        cases f <;> rfl
  unfold LocalPeer.get
  cases hl : LocalPeer._load_paxos a none none owners n with
  | mk r n' =>
    rw [hl] at hpaxos
    cases r with
    | ok d =>
      rw [Op.bind_of_ok hl, ← hpaxos]
      cases hg : d.get q <;> rfl
    | error f =>
      rw [Op.bind_of_error hl]
      exact hpaxos

theorem get_same [Inhabited A] (q owners : Finset A) (h : Settled n a) :
    Same n (LocalPeer.get q a owners n).2 := by
  rw [get_node]
  exact load_same owners h

/-! ## The requests -/

/-- The two calls without a check are made only by peers that would pass it: `confirm` by a peer
that may write, and `get` by a peer with a session key that may write or that reads what is
settled. -/
def Guarded (s : Session B A K Sig Key) : RPC B A R K Sig CSig EK → Prop
  | .confirm .. => Passes s true
  | .get _ a _ _ => Passes s true ∨ Passes s false ∧ Settled s.node a
  | _ => True

theorem handle_respects [Inhabited A] (e : Endpoint B A R K Sig H CSig EK Key Msg)
    (rpc : RPC B A R K Sig CSig EK) (s : Session B A K Sig Key) (hg : Guarded s rpc)
    (hsyn : ∀ id p v, rpc ≠ .auth_syn id p v) (hack : ∀ k c, rpc ≠ .auth_ack k c) :
    Respects s (handle e rpc s) := by
  cases rpc with
  | store b mode => exact authenticated_respects nofun
  | fetch a v => exact authenticated_respects fun _ => fetch_node a s.node
  | remove a rs owners => exact authenticated_respects nofun
  | ping i => exact respects_of_same nofun
  | auth_syn id p v => exact absurd rfl (hsyn id p v)
  | auth_ack k c => exact absurd rfl (hack k c)
  | resolve_keys ids =>
    simp only [handle]
    cases ids.mapM e.resolve_key with
    | none => exact respects_of_same nofun
    | some ks => exact respects_of_same nofun
  | resolve_all_keys => exact respects_of_same nofun
  | propose q a p insert owners => exact authenticated_respects nofun
  | accept q a p value owners => exact authenticated_respects nofun
  | confirm q a p owners =>
    have hstate : (handle e (.confirm q a p owners) s).2 =
        { s with node := (LocalPeer.confirm q a p owners s.node).2 } :=
      on_node_bind (fun _ _ => rfl) s
    have hpasses : Passes s true := hg
    exact ⟨by rw [hstate], by rw [hstate], fun _ => hpasses, fun _ => hpasses.read⟩
  | get q a v owners =>
    have hstate : (handle e (.get q a v owners) s).2 =
        { s with node := (LocalPeer.get q a owners s.node).2 } := by
      refine on_node_bind (fun r s => ?_) s
      cases hr : LocalPeer.honor_local_version e.model v r <;> rfl
    refine ⟨by rw [hstate], by rw [hstate], ?_, ?_⟩
    · intro hsame
      rcases hg with hg | ⟨-, hsettled⟩
      · exact hg
      · rw [hstate] at hsame
        exact absurd (get_same q owners hsettled) hsame
    · intro _
      rcases hg with hg | ⟨hg, -⟩
      · exact hg.read
      · exact hg
  | reconcile a answer lookup_nodes owners => exact authenticated_respects nofun
  | propagate q b p owners => exact authenticated_respects nofun
  | unknown name => exact respects_of_same nofun

/-! ## The handshake -/

/-- The passport was accepted by the node. -/
def Accepts (e : Endpoint B A R K Sig H CSig EK Key Msg) (p : Passport K Sig) : Prop :=
  ∃ calls, e.dht.verify e.crypto calls p false false false = some true

/-- The node, the passport and the session key are the same. -/
structure Framed (s t : Session B A K Sig Key) : Prop where
  node : t.node = s.node
  passport : t.passport = s.passport
  key : t.key = s.key

omit [DecidableEq K] in
theorem check_id_framed (e : Endpoint B A R K Sig H CSig EK Key Msg) (id : A) :
    Op.Spec (Framed s) (check_id e id) (fun _ => Framed s)
      (fun f t => Framed s t ∧ ¬ Carries (.error f : Except (Fault B A) (Reply B A K Sig))) := by
  unfold check_id
  split_ifs
  · refine Op.Spec.bind (Op.Spec.modify (R := fun _ => Framed s) ?_) fun _ => ?_
    · exact fun t h => { h with }
    · apply Op.Spec.get_bind
      intro t ht
      split_ifs
      · exact Op.Spec.of_error rfl ⟨ht, nofun⟩
      · exact Op.Spec.of_ok rfl ht
  · exact Op.Spec.pure fun t h => h

omit [LinearOrder A] [DecidableEq K] in
theorem check_version_framed (e : Endpoint B A R K Sig H CSig EK Key Msg) (v : elle.Version) :
    Op.Spec (Framed s) (check_version e v) (fun _ => Framed s)
      (fun f t => Framed s t ∧ ¬ Carries (.error f : Except (Fault B A) (Reply B A K Sig))) := by
  unfold check_version
  split_ifs
  · exact Op.Spec.throw fun t h => ⟨h, nofun⟩
  · exact Op.Spec.pure fun t h => h

/-- What a handshake may do to the session: it keeps the node, and the passport that is there. -/
structure Shakes (e : Endpoint B A R K Sig H CSig EK Key Msg) (s t : Session B A K Sig Key) :
    Prop where
  node : t.node = s.node
  key : t.key = s.key
  passport : t.passport = s.passport ∨
    s.passport = none ∧ ∃ p, t.passport = some p ∧ Accepts e p

omit [LinearOrder A] in
theorem Framed.shakes {t : Session B A K Sig Key} (h : Framed s t) : Shakes e s t :=
  ⟨h.node, h.key, Or.inl h.passport⟩

omit [LinearOrder A] in
theorem auth_syn_shakes (e : Endpoint B A R K Sig H CSig EK Key Msg) (p : Passport K Sig) :
    Op.Spec (Framed s) (auth_syn e p) (fun r t => Shakes e s t ∧ ¬ Carries (.ok r))
      (fun f t => Shakes e s t ∧ ¬ Carries (.error f : Except (Fault B A) (Reply B A K Sig))) := by
  unfold auth_syn
  cases hv : e.dht.verify e.crypto e.stack p false false false with
  | none =>
    refine Op.Spec.bind (Op.Spec.modify (R := fun _ => Framed s) ?_) fun _ => ?_
    · exact fun t h => { h with }
    · exact Op.Spec.pure fun t h => ⟨h.shakes, nofun⟩
  | some b =>
    cases b with
    | false => exact Op.Spec.throw fun t h => ⟨h.shakes, nofun⟩
    | true =>
      apply Op.Spec.get_bind
      intro t ht
      refine Op.Spec.of_ok rfl ⟨⟨ht.node, ht.key, ?_⟩, nofun⟩
      cases hp : s.passport with
      | some p' =>
        left
        simp [ht.passport, hp]
      | none =>
        right
        exact ⟨rfl, p, by simp [ht.passport, hp], e.stack, hv⟩

theorem handle_auth_syn [Inhabited A] (e : Endpoint B A R K Sig H CSig EK Key Msg) (id : A)
    (p : Passport K Sig) (v : elle.Version) (s : Session B A K Sig Key) :
    Shakes e s (handle e (.auth_syn id p v) s).2 ∧
      ¬ Carries (handle e (.auth_syn id p v) s).1 := by
  have hspec : Op.Spec (Framed s) (handle e (.auth_syn id p v))
      (fun r t => Shakes e s t ∧ ¬ Carries (.ok r))
      (fun f t => Shakes e s t ∧ ¬ Carries (.error f : Except (Fault B A) (Reply B A K Sig))) := by
    refine Op.Spec.bind ((check_id_framed e id).weaken (fun _ h => h) (fun _ _ h => h)
      fun _ _ h => ⟨h.1.shakes, h.2⟩) fun _ => ?_
    refine Op.Spec.bind ((check_version_framed e v).weaken (fun _ h => h) (fun _ _ h => h)
      fun _ _ h => ⟨h.1.shakes, h.2⟩) fun _ => ?_
    exact auth_syn_shakes e p
  have h := hspec s ⟨rfl, rfl, rfl⟩
  cases hr : handle e (.auth_syn id p v) s with
  | mk r t =>
    rw [hr] at h
    cases r <;> exact h

/-- An acknowledgment that succeeds: the challenge was signed by the user of the passport. -/
structure Signed [Inhabited A] (e : Endpoint B A R K Sig H CSig EK Key Msg)
    (s : Session B A K Sig Key)
    (enc_key : EK) (signed_challenge : CSig) (p : Passport K Sig) : Prop where
  passport : s.passport = some p
  signature : ∃ challenge, s.stored_challenge = some challenge ∧
    e.verify_challenge p.user signed_challenge challenge = true
  succeeded : (handle e (.auth_ack enc_key signed_challenge) s).1 = .ok .acknowledged

omit [LinearOrder A] [DecidableEq K] in
theorem auth_ack_cases (e : Endpoint B A R K Sig H CSig EK Key Msg) (enc_key : EK)
    (signed_challenge : CSig) (s : Session B A K Sig Key) :
    (∃ what, auth_ack e enc_key signed_challenge s = (.error (.error what), s)) ∨
      ∃ p challenge key, s.passport = some p ∧ s.stored_challenge = some challenge ∧
        e.verify_challenge p.user signed_challenge challenge = true ∧
        auth_ack e enc_key signed_challenge s =
          (.ok .acknowledged, { s with key := some key }) := by
  unfold auth_ack
  rw [Op.bind_of_ok (Op.get_apply s)]
  cases hc : s.stored_challenge with
  | none => exact Or.inl ⟨_, rfl⟩
  | some challenge =>
    cases hp : s.passport with
    | none => exact Or.inl ⟨_, rfl⟩
    | some p =>
      cases hv : e.verify_challenge p.user signed_challenge challenge with
      | false =>
        left
        simp only [hv, Bool.false_eq_true, if_false]
        exact ⟨_, rfl⟩
      | true =>
        cases hk : e.open_key enc_key with
        | none =>
          left
          simp only [hv, if_true]
          exact ⟨_, rfl⟩
        | some key =>
          right
          simp only [hv, if_true]
          refine ⟨p, challenge, key, rfl, rfl, hv, ?_⟩
          rw [← hp, ← hc]
          rfl

theorem handle_auth_ack [Inhabited A] (e : Endpoint B A R K Sig H CSig EK Key Msg) (enc_key : EK)
    (signed_challenge : CSig) (s : Session B A K Sig Key) :
    (handle e (.auth_ack enc_key signed_challenge) s).2.node = s.node ∧
    (handle e (.auth_ack enc_key signed_challenge) s).2.passport = s.passport ∧
    ¬ Carries (handle e (.auth_ack enc_key signed_challenge) s).1 ∧
    ((handle e (.auth_ack enc_key signed_challenge) s).2.key = s.key ∨
      ∃ p, Signed e s enc_key signed_challenge p) := by
  have hhandle : handle e (.auth_ack enc_key signed_challenge) s =
      auth_ack e enc_key signed_challenge s := rfl
  rcases auth_ack_cases e enc_key signed_challenge s with
    ⟨what, h⟩ | ⟨p, challenge, key, hp, hc, hv, h⟩
  · rw [hhandle, h]
    exact ⟨rfl, rfl, nofun, Or.inl rfl⟩
  · have hsigned : Signed e s enc_key signed_challenge p :=
      ⟨hp, ⟨challenge, hc, hv⟩, by rw [hhandle, h]⟩
    rw [hhandle, h]
    exact ⟨rfl, rfl, nofun, Or.inr ⟨p, hsigned⟩⟩

/-! ## Whole connections -/

/-- An `auth_ack` succeeded before, for a passport that the node accepted. -/
def Acknowledged [Inhabited A] (e : Endpoint B A R K Sig H CSig EK Key Msg)
    (s : Session B A K Sig Key) (past : List Msg) (p : Passport K Sig) : Prop :=
  Accepts e p ∧ ∃ done m enc_key signed_challenge, done ++ [m] <+: past ∧
    received e (after e s done) m = some (.auth_ack enc_key signed_challenge) ∧
    Signed e (after e s done) enc_key signed_challenge p

theorem Acknowledged.mono [Inhabited A] {p : Passport K Sig} (h : Acknowledged e s past p)
    (m : Msg) :
    Acknowledged e s (past ++ [m]) p := by
  obtain ⟨ha, done, m', k, c, hpre, hrest⟩ := h
  exact ⟨ha, done, m', k, c, hpre.trans (List.prefix_append past [m]), hrest⟩

/-- What is known of a connection: its passport was accepted, and its session key comes from an
acknowledgment for this passport. -/
structure Known [Inhabited A] (e : Endpoint B A R K Sig H CSig EK Key Msg)
    (s : Session B A K Sig Key) (past : List Msg) (t : Session B A K Sig Key) : Prop where
  accepted : ∀ p, t.passport = some p → Accepts e p
  key : t.key.isSome → ∃ p, t.passport = some p ∧ Acknowledged e s past p

/-- A new connection. -/
structure Connected (t : Session B A K Sig Key) : Prop where
  passport : t.passport = none
  key : t.key = none

theorem after_append [Inhabited A] (e : Endpoint B A R K Sig H CSig EK Key Msg)
    (s : Session B A K Sig Key) (past : List Msg) (m : Msg) :
    after e s (past ++ [m]) = (serve e m (after e s past)).2 := by
  simp [after, List.foldl_append]

theorem Known.keep [Inhabited A] {t t' : Session B A K Sig Key} (h : Known e s past t) (m : Msg)
    (hp : t'.passport = t.passport) (hk : t'.key = t.key) : Known e s (past ++ [m]) t' := by
  refine ⟨fun p hp' => h.accepted p (hp ▸ hp'), fun hkey => ?_⟩
  rw [hk] at hkey
  obtain ⟨p, hp', ha⟩ := h.key hkey
  exact ⟨p, hp.trans hp', ha.mono m⟩

theorem Known.step [Inhabited A] (h : Known e s past (after e s past)) (m : Msg)
    (hg : ∀ rpc, received e (after e s past) m = some rpc → Guarded (after e s past) rpc) :
    Known e s (past ++ [m]) (after e s (past ++ [m])) := by
  rw [after_append]
  unfold serve
  split_ifs with hclosed
  · exact h.keep m rfl rfl
  · cases hr : received e (after e s past) m with
    | none => exact h.keep m rfl rfl
    | some rpc =>
      simp only
      by_cases hsyn : ∃ id p v, rpc = .auth_syn id p v
      · obtain ⟨id, p, v, rfl⟩ := hsyn
        obtain ⟨hshake, -⟩ := handle_auth_syn e id p v (after e s past)
        rcases hshake.passport with hp | ⟨hnone, p', hp, ha⟩
        · exact h.keep m hp hshake.key
        · refine ⟨fun q hq => ?_, fun hkey => ?_⟩
          · rw [hp] at hq
            cases hq
            exact ha
          · -- there is no key yet: it would come with a passport
            rw [hshake.key] at hkey
            obtain ⟨q, hq, -⟩ := h.key hkey
            rw [hnone] at hq
            cases hq
      · by_cases hack : ∃ k c, rpc = .auth_ack k c
        · obtain ⟨k, c, rfl⟩ := hack
          obtain ⟨-, hp, -, hkey | ⟨p, hsigned⟩⟩ := handle_auth_ack e k c (after e s past)
          · exact h.keep m hp hkey
          · have hpassport : (handle e (.auth_ack k c) (after e s past)).2.passport = some p :=
              hp.trans hsigned.passport
            refine ⟨fun q hq => h.accepted q (hp ▸ hq), fun _ => ⟨p, hpassport, ?_⟩⟩
            exact ⟨h.accepted p hsigned.passport, past, m, k, c, List.prefix_refl _, hr, hsigned⟩
        · have hrespects := handle_respects e rpc (after e s past) (hg rpc hr)
            (fun id p v heq => hsyn ⟨id, p, v, heq⟩) (fun k c heq => hack ⟨k, c, heq⟩)
          exact h.keep m hrespects.passport hrespects.key

theorem known_after [Inhabited A] (e : Endpoint B A R K Sig H CSig EK Key Msg) (h : Connected s)
    (messages : List Msg)
    (hg : ∀ done m, done ++ [m] <+: messages → ∀ rpc,
      received e (after e s done) m = some rpc → Guarded (after e s done) rpc)
    (done : List Msg) (hdone : done <+: messages) : Known e s done (after e s done) := by
  induction done using List.reverseRecOn with
  | nil =>
    refine ⟨fun p hp => ?_, fun hkey => ?_⟩
    · have : s.passport = some p := hp
      rw [h.passport] at this
      cases this
    · have : s.key.isSome := hkey
      rw [h.key] at this
      cases this
  | append_singleton done m ih =>
    exact (ih ((List.prefix_append done [m]).trans hdone)).step m (hg done m hdone)

/-- The node changes only for a peer that was acknowledged for an accepted passport that allows to
write, and gives the content of a block only to a peer that was acknowledged, as long as `confirm`
and `get`, which do not check it, are called only by such peers. -/
theorem only_authenticated_peers_reach_the_blocks_while_confirm_and_get_are_guarded [Inhabited A]
    (e : Endpoint B A R K Sig H CSig EK Key Msg) (s : Session B A K Sig Key) (h : Connected s)
    (messages : List Msg)
    (hg : ∀ done m, done ++ [m] <+: messages → ∀ rpc,
      received e (after e s done) m = some rpc → Guarded (after e s done) rpc)
    (done : List Msg) (m : Msg) (hdone : done ++ [m] <+: messages) :
    (¬ Same (after e s done).node (serve e m (after e s done)).2.node →
      ∃ p, Acknowledged e s done p ∧ p.allow_write = true) ∧
    (∀ r, (serve e m (after e s done)).1 = some r → Carries r →
      ∃ p, Acknowledged e s done p) := by
  have hknown := known_after e h messages hg done ((List.prefix_append done [m]).trans hdone)
  have hwrite : Passes (after e s done) true → ∃ p, Acknowledged e s done p ∧
      p.allow_write = true := by
    rintro ⟨hkey, hpass⟩
    obtain ⟨p, hp, ha⟩ := hknown.key hkey
    obtain ⟨p', hp', hw⟩ := hpass rfl
    rw [hp] at hp'
    cases hp'
    exact ⟨p, ha, hw⟩
  have hread : Passes (after e s done) false → ∃ p, Acknowledged e s done p := by
    rintro ⟨hkey, -⟩
    obtain ⟨p, -, ha⟩ := hknown.key hkey
    exact ⟨p, ha⟩
  unfold serve
  split_ifs with hclosed
  · exact ⟨fun hsame => absurd (Same.refl _) hsame, nofun⟩
  · cases hr : received e (after e s done) m with
    | none => exact ⟨fun hsame => absurd (Same.refl _) hsame, nofun⟩
    | some rpc =>
      simp only [Option.some.injEq, forall_eq']
      by_cases hsyn : ∃ id p v, rpc = .auth_syn id p v
      · obtain ⟨id, p, v, rfl⟩ := hsyn
        obtain ⟨hshake, hc⟩ := handle_auth_syn e id p v (after e s done)
        rw [hshake.node]
        exact ⟨fun hsame => absurd (Same.refl _) hsame, fun h => absurd h hc⟩
      · by_cases hack : ∃ k c, rpc = .auth_ack k c
        · obtain ⟨k, c, rfl⟩ := hack
          obtain ⟨hnode, -, hc, -⟩ := handle_auth_ack e k c (after e s done)
          rw [hnode]
          exact ⟨fun hsame => absurd (Same.refl _) hsame, fun h => absurd h hc⟩
        · have hrespects := handle_respects e rpc (after e s done) (hg done m hdone rpc hr)
            (fun id p v heq => hsyn ⟨id, p, v, heq⟩) (fun k c heq => hack ⟨k, c, heq⟩)
          exact ⟨fun hsame => hwrite (hrespects.writes hsame),
            fun hc => hread (hrespects.reads hc)⟩

/-! ## The two calls without a check -/

abbrev PlainSig := String × Fingerprint String

abbrev PlainRPC := RPC Nat Nat Unit String PlainSig (String × Nat) Nat

/-- A node that keeps the block 5, in the network of Owner, whose messages are not enciphered. -/
def keeper_endpoint :
    Endpoint Nat Nat Unit String PlainSig String (String × Nat) Nat Nat PlainRPC where
  model := LocalPeer.plain
  crypto := Doughnut.plain_crypto
  dht := Doughnut.node_with (Doughnut.passport_of "Alice" "home" "Owner" true)
  stack := 100
  version := ⟨0, 9, 2⟩
  passport := Doughnut.passport_of "Alice" "home" "Owner" true
  resolve_key _ := none
  key_cache := []
  show_id := toString
  verify_challenge k sig challenge := sig = (k, challenge)
  open_key := some
  decipher _ := some
  parse := some

/-- A connection to this node that was just made. -/
def new_session : Session Nat Nat String PlainSig Nat where
  node := LocalPeer.keeper
  id := none
  passport := none
  stored_challenge := none
  key := none
  next_challenge := 0
  closed := false

/-- Without any authentication, `get` gives the block 5, and `confirm` and `get` change the index
of the quorums. -/
theorem anyone_gets_a_block_and_changes_the_indices :
    Connected new_session ∧
    (serve keeper_endpoint (.get {1, 2, 3} 5 none ∅) new_session).1 =
      some (.ok (.current (some ⟨⟨1, 0, 1⟩, .value (some 5), true⟩))) ∧
    new_session.node.quorums 5 = none ∧
    (serve keeper_endpoint (.get {1, 2, 3} 5 none ∅) new_session).2.node.quorums 5 =
      some ⟨false, {1, 2, 3}⟩ ∧
    (serve keeper_endpoint (.confirm {1, 2, 3} 5 ⟨1, 0, 1⟩ ∅) new_session).2.node.quorums 5 =
      some ⟨false, {1, 2, 3}⟩ ∧
    ¬ ∃ p, Acknowledged keeper_endpoint new_session [] p := by
  refine ⟨⟨rfl, rfl⟩, rfl, rfl, rfl, rfl, ?_⟩
  rintro ⟨p, -, done, m, k, c, hpre, -⟩
  simp at hpre

/-- Bob shows his passport, signs the challenge and reads the block. -/
def bob_reads : List PlainRPC :=
  [.auth_syn 7 (Doughnut.passport_of "Bob" "home" "Alice" false) ⟨0, 9, 0⟩, .auth_ack 42 ("Bob", 0),
    .get {1, 2, 3} 5 none ∅]

theorem bob_is_acknowledged_before_he_reads :
    (serve keeper_endpoint (.get {1, 2, 3} 5 none ∅)
      (after keeper_endpoint new_session (bob_reads.take 2))).1 =
        some (.ok (.current (some ⟨⟨1, 0, 1⟩, .value (some 5), true⟩))) ∧
    ∃ p, Acknowledged keeper_endpoint new_session (bob_reads.take 2) p := by
  have hreads : (serve keeper_endpoint (.get {1, 2, 3} 5 none ∅)
      (after keeper_endpoint new_session (bob_reads.take 2))).1 =
        some (.ok (.current (some ⟨⟨1, 0, 1⟩, .value (some 5), true⟩))) := rfl
  refine ⟨hreads, ?_⟩
  apply (only_authenticated_peers_reach_the_blocks_while_confirm_and_get_are_guarded
    keeper_endpoint new_session ⟨rfl, rfl⟩ bob_reads ?_ (bob_reads.take 2)
    (.get {1, 2, 3} 5 none ∅) (List.prefix_refl _)).2 _ hreads trivial
  intro done m hpre rpc hr
  unfold bob_reads at hpre
  rcases done with _ | ⟨m₁, _ | ⟨m₂, _ | ⟨m₃, done⟩⟩⟩
  · simp only [List.nil_append, List.cons_prefix_cons] at hpre
    rw [hpre.1] at hr
    cases hr
    trivial
  · simp only [List.cons_append, List.nil_append, List.cons_prefix_cons] at hpre
    rw [hpre.1, hpre.2.1] at hr
    cases hr
    trivial
  · simp only [List.cons_append, List.nil_append, List.cons_prefix_cons] at hpre
    rw [hpre.1, hpre.2.1, hpre.2.2.1] at hr
    rw [hpre.1, hpre.2.1]
    cases hr
    exact Or.inl ⟨rfl, fun _ => ⟨_, rfl, rfl⟩⟩
  · simp at hpre

end Session

end memo
