-- The keys that are sent as numbers between a `Remote` and the server that it leads to. A
-- number is the place of the key in the table of one run of the server. The client keeps
-- those that it was given with each of its connections, and reads them through the
-- connection that the `Remote` has at the time.
import Memo.Binary
import Memo.MultiIndex
import Memo.Runs

open runs

namespace memo.Remote

variable {K : Type}

/-! ## The tables of keys -/

structure KeyHash (K : Type) where
  hash : Int
  key : K
deriving DecidableEq

/-- Keys and their numbers, looked up by both. -/
abbrev KeyCache (K : Type) : Type :=
  multi_index.Container (KeyHash.key : KeyHash K → K) KeyHash.hash

/-- What a key is sent as. A hash of the whole key, which one version sent, is never written. -/
inductive KeyOrHash (K : Type) where
  | key (k : K)
  | hash (n : Int)
deriving DecidableEq

/-- `Doughnut::ensure_key`: the number of the key, and the table with it. -/
def ensure_key [DecidableEq K] (cache : KeyCache K) (k : K) : Int × KeyCache K :=
  match cache.find k with
  | none =>
    let index := elle.binary.to_int cache.elements.length
    (index, (cache.insert ⟨index, k⟩).1)
  | some x => (x.hash, cache)

/-- `Doughnut::resolve_key`, which throws when the number is not there. -/
def resolve_key (cache : KeyCache K) (n : Int) : Option K := (cache.find_at n).map KeyHash.key

/-- `serialize_key_hash` with a local peer in the context. -/
def serialize_local [DecidableEq K] (hash_enabled : Bool) (cache : KeyCache K) (k : K) :
    KeyOrHash K × KeyCache K :=
  if hash_enabled then
    let (n, cache) := ensure_key cache k
    (.hash n, cache)
  else (.key k, cache)

/-- `serialize_key_hash` with a remote peer in the context. -/
def serialize_remote [DecidableEq K] (hash_enabled : Bool) (cache : KeyCache K) (k : K) :
    KeyOrHash K :=
  if hash_enabled then
    match cache.find k with
    | some x => .hash x.hash
    | none => .key k
  else .key k

/-- What the server reads. -/
def deserialize_local (cache : KeyCache K) : KeyOrHash K → Option K
  | .key k => some k
  | .hash n => resolve_key cache n

/-- The numbers that `Remote::_resolve_keys` has to ask for. -/
def missing (cache : KeyCache K) (ids : List Int) : List Int :=
  ids.filter fun id => (cache.find_at id).isNone

/-- The answer to these enters the table. -/
def emplace [DecidableEq K] (cache : KeyCache K) (answer : List (KeyHash K)) : KeyCache K :=
  answer.foldl (fun cache x => (cache.insert x).1) cache

/-! ## The system -/

/-- The question that `_resolve_keys` sends about the missing numbers: not yet sent, sent on a
connection, or answered there. -/
inductive Question (K : Type) where
  | top
  | sent (c : Nat)
  | answered (c : Nat) (keys : List K)

/-- Where a thread stands in an RPC that took the connection `c`. The keys are kept with what they
are sent as. -/
inductive Call (K : Type) where
  | idle
  /-- The request is built: the arguments left, and what is written. -/
  | building (c : Nat) (args : List K) (request : List (K × KeyOrHash K))
  | sent (c : Nat) (request : List (K × KeyOrHash K))
  /-- The server writes its answer. -/
  | serving (c : Nat) (answer : List (K × KeyOrHash K))
  /-- The answer is read. -/
  | decoding (c : Nat) (answer : List (K × KeyOrHash K))
  /-- In `_resolve_keys`, for the number `n` that was sent for `k`. -/
  | resolving (c : Nat) (k : K) (n : Int) (rest : List (K × KeyOrHash K)) (missing : List Int)
      (question : Question K)
  /-- In `_resolve_all_keys`, before and after the answer. -/
  | asking_all (c : Nat)
  | answered_all (c : Nat) (answer : List (KeyHash K))

/-- A connection of the client: the run of the server that it leads to once it is connected, and
`_key_hash_cache`. -/
structure Connection (K : Type) where
  server : Option Nat
  key_hash_cache : KeyCache K
  disconnected : Bool

/-- What happens to a key or to a number. -/
inductive Event (K : Type) where
  /-- The server has read the key that the client sent. -/
  | served (sent read : K)
  /-- The client has read the key that the server sent. -/
  | received (sent read : K)
  /-- A number that came on a connection is looked up in the table of another, or of the same. -/
  | looked_up (c table : Nat)
  /-- The assertion of `_resolve_keys` fails. -/
  | failed_assert
deriving DecidableEq

/-- The server, and a client with one `Remote`. The connections are those not yet made as well. -/
structure State (K : Type) where
  /-- The number of times that the server has started again. -/
  run : Nat
  /-- `_key_cache` of the server, in each of its runs. -/
  key_cache : Nat → KeyCache K
  connections : Nat → Connection K
  /-- `_connection` of the `Remote`. -/
  connection : Nat
  threads : Nat → Call K
  events : List (Event K)

inductive Action (K : Type) where
  /-- The server starts again. -/
  | restart
  /-- The server numbers a key for another of its clients. -/
  | other (k : K)
  | connected (c : Nat)
  | disconnected (c : Nat)
  /-- `Remote::connection`. -/
  | replace (c : Nat)
  /-- An RPC takes the connection of the `Remote`. -/
  | call (t : Nat) (args : List K)
  /-- The next argument is written. -/
  | encode (t : Nat)
  | send (t : Nat)
  /-- The server reads the request. -/
  | serve (t : Nat)
  /-- The server writes a key of its answer. -/
  | number (t : Nat) (k : K)
  | reply (t : Nat)
  /-- The next key of the answer is read. -/
  | decode (t : Nat)
  /-- `resolve_keys` is sent, answered by the server, and returns. -/
  | ask (t : Nat)
  | resolve (t : Nat)
  | resolved (t : Nat)
  /-- The question is to be sent again. -/
  | ask_again (t : Nat)
  /-- `resolve_all_keys` is sent, answered by the server, and returns. -/
  | ask_all (t : Nat)
  | resolve_all (t : Nat)
  | resolved_all (t : Nat)
  /-- The RPC fails, or is over. -/
  | ended (t : Nat)

namespace State

variable {s s' : State K} {c t r : Nat}

variable [DecidableEq K]

def start : State K where
  run := 0
  key_cache _ := .empty
  connections _ := ⟨none, .empty, false⟩
  connection := 0
  threads _ := .idle
  events := []

/-- `Remote::key_hash_cache`. -/
def key_hash_cache (s : State K) : KeyCache K := (s.connections s.connection).key_hash_cache

/-- The run of the server that a connection leads to. -/
def leads (s : State K) (c : Nat) : Option Nat := (s.connections c).server

def setThread (s : State K) (t : Nat) (call : Call K) : State K :=
  { s with threads := Function.update s.threads t call }

def setConnection (s : State K) (c : Nat) (connection : Connection K) : State K :=
  { s with connections := Function.update s.connections c connection }

/-- The `Remote` enters keys in its table. -/
def fill (s : State K) (answer : List (KeyHash K)) : State K :=
  s.setConnection s.connection
    { s.connections s.connection with key_hash_cache := emplace s.key_hash_cache answer }

def setTable (s : State K) (cache : KeyCache K) : State K :=
  { s with key_cache := Function.update s.key_cache s.run cache }

def log (s : State K) (events : List (Event K)) : State K :=
  { s with events := s.events ++ events }

/-- The table of the server, when the connection leads to its present run. -/
def served (s : State K) (c : Nat) : Option (KeyCache K) :=
  if s.leads c = some s.run then some (s.key_cache s.run) else none

/-- The end of `_resolve_keys` for one number, which reads it in the table. -/
def looked (s : State K) (t c : Nat) (k : K) (n : Int) (rest : List (K × KeyOrHash K)) : State K :=
  let s := s.log [.looked_up c s.connection]
  match resolve_key s.key_hash_cache n with
  | some k' => (s.log [.received k k']).setThread t (.decoding c rest)
  | none => (s.log [.failed_assert]).setThread t .idle

def step (client server : Bool) (s : State K) : Action K → Option (State K)
  | .restart => some { s with run := s.run + 1 }
  | .other k => some (s.setTable (serialize_local server (s.key_cache s.run) k).2)
  | .connected c =>
    if s.leads c = none then
      some (s.setConnection c { s.connections c with server := some s.run })
    else none
  | .disconnected c => some (s.setConnection c { s.connections c with disconnected := true })
  | .replace c =>
    -- only a connection that is not connected yet, or not any more, is replaced
    if s.leads s.connection = none ∨ (s.connections s.connection).disconnected then
      some { s with connection := c }
    else none
  | .call t args =>
    match s.threads t, s.leads s.connection with
    | .idle, some _ => some (s.setThread t (.building s.connection args []))
    | _, _ => none
  | .encode t =>
    match s.threads t with
    | .building c (k :: args) request =>
      let koh := serialize_remote client s.key_hash_cache k
      some (s.setThread t (.building c args (request ++ [(k, koh)])))
    | _ => none
  | .send t =>
    match s.threads t with
    | .building c [] request => some (s.setThread t (.sent c request))
    | _ => none
  | .serve t =>
    match s.threads t with
    | .sent c request =>
      (s.served c).map fun cache =>
        match request.mapM fun x => deserialize_local cache x.2 with
        | some keys =>
          let events := (request.map Prod.fst).zipWith Event.served keys
          (s.log events).setThread t (.serving c [])
        | none => s.setThread t .idle
    | _ => none
  | .number t k =>
    match s.threads t with
    | .serving c answer =>
      (s.served c).map fun cache =>
        let (koh, cache) := serialize_local server cache k
        (s.setTable cache).setThread t (.serving c (answer ++ [(k, koh)]))
    | _ => none
  | .reply t =>
    match s.threads t with
    | .serving c answer => (s.served c).map fun _ => s.setThread t (.decoding c answer)
    | _ => none
  | .decode t =>
    match s.threads t with
    | .decoding c ((k, .key k') :: rest) =>
      some ((s.log [.received k k']).setThread t (.decoding c rest))
    | .decoding c ((k, .hash n) :: rest) =>
      match missing s.key_hash_cache [n] with
      | [] => some (s.looked t c k n rest)
      | ids => some ((s.log [.looked_up c s.connection]).setThread t
          (.resolving c k n rest ids .top))
    | _ => none
  | .ask t =>
    match s.threads t, s.leads s.connection with
    | .resolving c k n rest ids .top, some _ =>
      some (s.setThread t (.resolving c k n rest ids (.sent s.connection)))
    | _, _ => none
  | .resolve t =>
    match s.threads t with
    | .resolving c k n rest ids (.sent c') =>
      (s.served c').map fun cache =>
        match ids.mapM (resolve_key cache) with
        | some keys => s.setThread t (.resolving c k n rest ids (.answered c' keys))
        | none => s.setThread t .idle
    | _ => none
  | .resolved t =>
    match s.threads t with
    | .resolving c k n rest ids (.answered _ keys) =>
      if keys.length ≠ ids.length then some (s.setThread t .idle)
      else some ((s.fill (ids.zipWith KeyHash.mk keys)).looked t c k n rest)
    | _ => none
  | .ask_again t =>
    match s.threads t with
    | .resolving c k n rest ids _ => some (s.setThread t (.resolving c k n rest ids .top))
    | _ => none
  | .ask_all t =>
    match s.threads t, s.leads s.connection with
    | .idle, some _ => some (s.setThread t (.asking_all s.connection))
    | _, _ => none
  | .resolve_all t =>
    match s.threads t with
    | .asking_all c =>
      (s.served c).map fun cache => s.setThread t (.answered_all c cache.elements)
    | _ => none
  | .resolved_all t =>
    match s.threads t with
    -- a number that is in the table already does not enter
    | .answered_all _ answer => some ((s.fill answer).setThread t .idle)
    | _ => none
  | .ended t => some (s.setThread t .idle)

end State

/-- The key is read as the key that was sent, and a number in the table of its connection. -/
def Event.Right : Event K → Prop
  | .served sent read => read = sent
  | .received sent read => read = sent
  | .looked_up c table => table = c
  | .failed_assert => False

/-- The `Remote` still has the connection of the RPC when the RPC uses its table, or one to the same
run of the server where the table of either does, and no run of the server numbers more keys than an
`int` has values. -/
def on_its_connection [DecidableEq K] (client server : Bool) (s : State K) : Action K → Bool
  | .encode t =>
    match s.threads t with
    | .building c (k :: _) _ =>
      !client || (s.key_hash_cache.find k).isNone || s.leads s.connection = s.leads c
    | _ => true
  | .decode t =>
    match s.threads t with
    | .decoding c ((_, .hash _) :: _) => s.connection = c
    | _ => true
  | .resolved t =>
    match s.threads t with
    | .resolving c _ _ _ _ (.answered c' _) => s.connection = c && s.leads c' = s.leads c
    | _ => true
  | .resolved_all t =>
    match s.threads t with
    | .answered_all c _ => s.leads s.connection = s.leads c
    | _ => true
  | .other k | .number _ k =>
    !server || ((s.key_cache s.run).find k).isSome ||
      (s.key_cache s.run).elements.length < 4294967296
  | _ => true

/-! ## What the tables hold -/

section Tables

variable {cache : KeyCache K} {k : K} {n : Int} {x : KeyHash K} {answer : List (KeyHash K)}

/-- The numbers are the first ones. -/
structure Numbered (cache : KeyCache K) : Prop where
  first : ∀ x ∈ cache.elements, ∃ i < cache.elements.length, x.hash = elle.binary.to_int i
  few : cache.elements.length ≤ 4294967296

theorem to_int_inj {i j : Nat} (hi : i < 4294967296) (hj : j < 4294967296)
    (h : elle.binary.to_int i = elle.binary.to_int j) : i = j := by
  unfold elle.binary.to_int Int.bmod at h
  simp only at h
  split_ifs at h <;> omega

theorem numbered_empty : Numbered (.empty : KeyCache K) :=
  ⟨by simp [multi_index.Container.empty], by simp [multi_index.Container.empty]⟩

theorem Numbered.free [DecidableEq K] (h : Numbered cache) (hk : cache.find k = none)
    (hlt : cache.elements.length < 4294967296) :
    multi_index.Free KeyHash.key KeyHash.hash cache.elements
      ⟨elle.binary.to_int cache.elements.length, k⟩ := by
  intro x hx
  refine ⟨multi_index.Container.find_eq_none.mp hk x hx, ?_⟩
  obtain ⟨i, hi, hxi⟩ := h.first x hx
  intro heq
  simp only [hxi] at heq
  have := to_int_inj (hi.trans hlt) hlt heq
  omega

theorem ensure_key_spec [DecidableEq K] (h : Numbered cache)
    (hlt : (cache.find k).isSome ∨ cache.elements.length < 4294967296) :
    Numbered (ensure_key cache k).2 ∧
      ⟨(ensure_key cache k).1, k⟩ ∈ (ensure_key cache k).2.elements ∧
      ∀ x ∈ cache.elements, x ∈ (ensure_key cache k).2.elements := by
  unfold ensure_key
  cases hk : cache.find k with
  | some x =>
    obtain ⟨hx, rfl⟩ := multi_index.Container.mem_of_find hk
    exact ⟨h, hx, fun x hx => hx⟩
  | none =>
    have hlt : cache.elements.length < 4294967296 := by simpa [hk] using hlt
    have hfree := h.free hk hlt
    have hmem := (multi_index.Container.insert_free hfree).2
    have hlen := multi_index.Container.insert_length hfree
    dsimp only
    refine ⟨⟨fun x hx => ?_, ?_⟩, (hmem _).mpr (Or.inl rfl), fun x hx => (hmem x).mpr (Or.inr hx)⟩
    · simp only [hlen]
      rcases (hmem x).mp hx with rfl | hx
      · exact ⟨cache.elements.length, Nat.lt_succ_self _, by simp only⟩
      · obtain ⟨i, hi, hxi⟩ := h.first x hx
        exact ⟨i, Nat.lt_succ_of_lt hi, hxi⟩
    · simp only [hlen]
      omega

theorem resolve_key_eq_some : resolve_key cache n = some k ↔ ⟨n, k⟩ ∈ cache.elements := by
  simp only [resolve_key, Option.map_eq_some_iff, multi_index.Container.find_at_eq_some]
  constructor
  · rintro ⟨⟨n', k'⟩, ⟨hx, rfl⟩, rfl⟩
    exact hx
  · intro hx
    exact ⟨_, ⟨hx, rfl⟩, rfl⟩

theorem missing_singleton :
    missing cache [n] = if (cache.find_at n).isNone then [n] else [] := by
  simp [missing, List.filter_cons]

theorem mem_emplace [DecidableEq K] (h : x ∈ (emplace cache answer).elements) :
    x ∈ cache.elements ∨ x ∈ answer := by
  induction answer generalizing cache with
  | nil => exact Or.inl h
  | cons y answer ih =>
    rcases ih h with hx | hx
    · rcases multi_index.Container.mem_of_mem_insert hx with rfl | hx
      · exact Or.inr (List.mem_cons_self ..)
      · exact Or.inl hx
    · exact Or.inr (List.mem_cons_of_mem y hx)

theorem mem_emplace_singleton [DecidableEq K] {table : KeyCache K}
    (hsub : ∀ y ∈ cache.elements, y ∈ table.elements) (hx : x ∈ table.elements) :
    x ∈ (emplace cache [x]).elements := by
  simp only [emplace, List.foldl_cons, List.foldl_nil]
  by_cases hfree : multi_index.Free KeyHash.key KeyHash.hash cache.elements x
  · exact ((multi_index.Container.insert_free hfree).2 x).mpr (Or.inl rfl)
  · rw [multi_index.Container.insert_taken hfree]
    simp only [multi_index.Free, not_forall, not_and_or, not_not] at hfree
    obtain ⟨y, hy, htaken⟩ := hfree
    -- the element that takes its key or its number is the same one
    have hyx : y = x := by
      rcases htaken with hk | hn
      · exact multi_index.Container.key_inj (hsub y hy) hx hk
      · exact multi_index.Container.order_inj (hsub y hy) hx hn
    rwa [← hyx]

theorem serialize_local_spec [DecidableEq K] {server : Bool} (h : Numbered cache)
    (hlt : (!server || (cache.find k).isSome || cache.elements.length < 4294967296) = true) :
    Numbered (serialize_local server cache k).2 ∧
      (∀ x ∈ cache.elements, x ∈ (serialize_local server cache k).2.elements) ∧
      ((serialize_local server cache k).1 = .key k ∨
        ∃ n, (serialize_local server cache k).1 = .hash n ∧
          ⟨n, k⟩ ∈ (serialize_local server cache k).2.elements) := by
  cases server with
  | false => exact ⟨h, fun x hx => hx, Or.inl rfl⟩
  | true =>
    obtain ⟨hn, hk, hsub⟩ := ensure_key_spec h (k := k) (by simpa using hlt)
    exact ⟨hn, hsub, Or.inr ⟨_, rfl, hk⟩⟩

theorem mem_of_resolved {ids : List Int} {keys : List K}
    (h : ids.mapM (resolve_key cache) = some keys) (hx : x ∈ ids.zipWith KeyHash.mk keys) :
    x ∈ cache.elements := by
  induction ids generalizing keys with
  | nil => simp at hx
  | cons n ids ih =>
    simp only [List.mapM_cons, Option.pure_def, Option.bind_eq_bind, Option.bind_eq_some_iff,
      Option.some.injEq] at h
    obtain ⟨k, hk, keys, hkeys, rfl⟩ := h
    rcases List.mem_cons.mp hx with rfl | hx
    · exact resolve_key_eq_some.mp hk
    · exact ih hkeys hx

theorem right_of_served {request : List (K × KeyOrHash K)} {keys : List K}
    (hr : ∀ x ∈ request, ∀ k, deserialize_local cache x.2 = some k → k = x.1)
    (h : (request.mapM fun x => deserialize_local cache x.2) = some keys) :
    ∀ e ∈ (request.map Prod.fst).zipWith Event.served keys, e.Right := by
  induction request generalizing keys with
  | nil => simp
  | cons y request ih =>
    simp only [List.mapM_cons, Option.pure_def, Option.bind_eq_bind, Option.bind_eq_some_iff,
      Option.some.injEq] at h
    obtain ⟨k, hk, keys, hkeys, rfl⟩ := h
    intro e he
    rcases List.mem_cons.mp he with rfl | he
    · exact hr y (List.mem_cons_self ..) k hk
    · exact ih (fun x hx => hr x (List.mem_cons_of_mem y hx)) hkeys e he

end Tables

/-! ## What holds in the system -/

namespace State

variable {s s' : State K} {c t : Nat} {k : K} {n : Int} {x : KeyHash K}
variable {request answer rest : List (K × KeyOrHash K)}

/-- The key has the number in the run of the server that the connection leads to. -/
def Knows (s : State K) (c : Nat) (x : KeyHash K) : Prop :=
  ∃ r, s.leads c = some r ∧ x ∈ (s.key_cache r).elements

/-- The key is sent whole, or as the number that it has. -/
def Means (s : State K) (c : Nat) (x : K × KeyOrHash K) : Prop :=
  x.2 = .key x.1 ∨ ∃ n, x.2 = .hash n ∧ s.Knows c ⟨n, x.1⟩

def Sound (s : State K) : Call K → Prop
  | .idle | .asking_all _ => True
  | .building c _ request | .sent c request => ∀ x ∈ request, s.Means c x
  | .serving c answer | .decoding c answer => ∀ x ∈ answer, s.Means c x
  | .resolving c k n rest ids question =>
    s.Knows c ⟨n, k⟩ ∧ (∀ x ∈ rest, s.Means c x) ∧ ids = [n] ∧
      ∀ c' keys, question = .answered c' keys → ∀ x ∈ ids.zipWith KeyHash.mk keys, s.Knows c' x
  | .answered_all c answer => ∀ x ∈ answer, s.Knows c x

structure Inv (s : State K) : Prop where
  numbered : ∀ r, Numbered (s.key_cache r)
  caches : ∀ c, ∀ x ∈ (s.connections c).key_hash_cache.elements, s.Knows c x
  threads : ∀ t, s.Sound (s.threads t)
  events : ∀ e ∈ s.events, e.Right

/-- No connection leads elsewhere, and no run of the server forgets a key. -/
structure Grows (s s' : State K) : Prop where
  leads : ∀ c r, s.leads c = some r → s'.leads c = some r
  tables : ∀ r, ∀ x ∈ (s.key_cache r).elements, x ∈ (s'.key_cache r).elements

theorem Grows.of_same (hl : s'.leads = s.leads) (ht : s'.key_cache = s.key_cache) : Grows s s' :=
  ⟨fun c r h => by rwa [hl], fun r x h => by rwa [ht]⟩

theorem Knows.later (h : s.Knows c x) (hg : Grows s s') : s'.Knows c x := by
  obtain ⟨r, hr, hx⟩ := h
  exact ⟨r, hg.leads c r hr, hg.tables r x hx⟩

theorem Means.later {x : K × KeyOrHash K} (h : s.Means c x) (hg : Grows s s') : s'.Means c x := by
  rcases h with h | ⟨n, h, hn⟩
  · exact Or.inl h
  · exact Or.inr ⟨n, h, hn.later hg⟩

theorem Sound.later {call : Call K} (h : s.Sound call) (hg : Grows s s') : s'.Sound call := by
  cases call with
  | idle => trivial
  | asking_all c => trivial
  | building c args request => exact fun x hx => (h x hx).later hg
  | sent c request => exact fun x hx => (h x hx).later hg
  | serving c answer => exact fun x hx => (h x hx).later hg
  | decoding c answer => exact fun x hx => (h x hx).later hg
  | resolving c k n rest ids question =>
    obtain ⟨hk, hrest, hids, hq⟩ := h
    exact ⟨hk.later hg, fun x hx => (hrest x hx).later hg, hids,
      fun c' keys hc x hx => (hq c' keys hc x hx).later hg⟩
  | answered_all c answer => exact fun x hx => (h x hx).later hg

theorem Knows.inj {k' : K} (h : s.Knows c ⟨n, k⟩) (h' : s.Knows c ⟨n, k'⟩) : k' = k := by
  obtain ⟨r, hr, hx⟩ := h
  obtain ⟨r', hr', hx'⟩ := h'
  rw [hr, Option.some.injEq] at hr'
  subst hr'
  exact congrArg KeyHash.key (multi_index.Container.order_inj hx' hx rfl)

theorem Knows.of_leads {c' : Nat} (h : s.Knows c x) (hl : s.leads c' = s.leads c) :
    s.Knows c' x := by
  unfold Knows
  rwa [hl]

theorem Inv.later (h : s.Inv) (hg : Grows s s') (hn : ∀ r, Numbered (s'.key_cache r))
    (hc : ∀ c, ∀ x ∈ (s'.connections c).key_hash_cache.elements, s'.Knows c x)
    (ht : s'.threads = s.threads) (he : s'.events = s.events) : s'.Inv := by
  refine ⟨hn, hc, fun t => ?_, ?_⟩
  · rw [ht]
    exact (h.threads t).later hg
  · rw [he]
    exact h.events

theorem Inv.setThread {call : Call K} (h : s.Inv) (hc : s.Sound call) :
    (s.setThread t call).Inv := by
  have hg : Grows s (s.setThread t call) := .of_same rfl rfl
  refine ⟨h.numbered, fun c x hx => (h.caches c x hx).later hg, fun t' => ?_, h.events⟩
  simp only [State.setThread, Function.update_apply]
  split_ifs
  · exact hc.later hg
  · exact (h.threads t').later hg

theorem Inv.log {events : List (Event K)} (h : s.Inv) (he : ∀ e ∈ events, e.Right) :
    (s.log events).Inv := by
  have hg : Grows s (s.log events) := .of_same rfl rfl
  refine ⟨h.numbered, fun c x hx => (h.caches c x hx).later hg, fun t => (h.threads t).later hg,
    fun e hm => ?_⟩
  rcases List.mem_append.mp hm with hm | hm
  · exact h.events e hm
  · exact he e hm

theorem Inv.setConnection {connection : Connection K} (h : s.Inv)
    (hl : ∀ r, s.leads c = some r → connection.server = some r)
    (hc : ∀ x ∈ connection.key_hash_cache.elements, s.Knows c x) :
    (s.setConnection c connection).Inv := by
  have hg : Grows s (s.setConnection c connection) := by
    refine ⟨fun c' r hr => ?_, fun r x hx => hx⟩
    simp only [leads, State.setConnection, Function.update_apply]
    split_ifs with heq
    · exact hl r (heq ▸ hr)
    · exact hr
  refine h.later hg h.numbered (fun c' x hx => ?_) rfl rfl
  simp only [State.setConnection, Function.update_apply] at hx
  split_ifs at hx with heq
  · exact heq ▸ (hc x hx).later hg
  · exact (h.caches c' x hx).later hg

theorem Inv.fill [DecidableEq K] {answer : List (KeyHash K)} (h : s.Inv)
    (ha : ∀ x ∈ answer, s.Knows s.connection x) : (s.fill answer).Inv := by
  apply h.setConnection
  · exact fun r hr => hr
  · intro x hx
    rcases mem_emplace hx with hx | hx
    · exact h.caches s.connection x hx
    · exact ha x hx

theorem Inv.setTable {cache : KeyCache K} (h : s.Inv) (hn : Numbered cache)
    (hsub : ∀ x ∈ (s.key_cache s.run).elements, x ∈ cache.elements) :
    Grows s (s.setTable cache) ∧ (s.setTable cache).Inv := by
  have hg : Grows s (s.setTable cache) := by
    refine ⟨fun c r hr => hr, fun r x hx => ?_⟩
    simp only [State.setTable, Function.update_apply]
    split_ifs with heq
    · exact hsub x (heq ▸ hx)
    · exact hx
  refine ⟨hg, h.later hg (fun r => ?_) (fun c x hx => (h.caches c x hx).later hg) rfl rfl⟩
  simp only [State.setTable, Function.update_apply]
  split_ifs
  · exact hn
  · exact h.numbered r

theorem served_eq_some {cache : KeyCache K} :
    s.served c = some cache ↔ s.leads c = some s.run ∧ cache = s.key_cache s.run := by
  unfold served
  split_ifs with h
  · simp [h, eq_comm]
  · simp [h]

theorem Means.read {x : K × KeyOrHash K} {cache : KeyCache K} (h : s.Means c x)
    (hc : s.served c = some cache) (hr : deserialize_local cache x.2 = some k) : k = x.1 := by
  obtain ⟨hl, rfl⟩ := served_eq_some.mp hc
  rcases h with h | ⟨n, h, hn⟩
  · rw [h] at hr
    exact (Option.some.inj hr).symm
  · rw [h] at hr
    exact hn.inj ⟨s.run, hl, resolve_key_eq_some.mp hr⟩

theorem Inv.looked (h : s.Inv) (hc : s.connection = c)
    (hk : (⟨n, k⟩ : KeyHash K) ∈ s.key_hash_cache.elements) (hrest : ∀ x ∈ rest, s.Means c x) :
    (s.looked t c k n rest).Inv := by
  have hlog : (s.log [.looked_up c s.connection]).Inv := h.log (by simp [Event.Right, hc])
  have hfound : resolve_key (s.log [.looked_up c s.connection]).key_hash_cache n = some k :=
    resolve_key_eq_some.mpr hk
  simp only [State.looked, hfound]
  have hread : ((s.log [.looked_up c s.connection]).log [.received k k]).Inv :=
    hlog.log (by simp [Event.Right])
  refine hread.setThread ?_
  exact fun x hx => (hrest x hx).later (.of_same rfl rfl)

theorem Inv.encode [DecidableEq K] {client : Bool} {args : List K} (h : s.Inv)
    (ht : s.threads t = .building c (k :: args) request)
    (hok : (!client || (s.key_hash_cache.find k).isNone ||
      decide (s.leads s.connection = s.leads c)) = true) :
    (s.setThread t (.building c args
      (request ++ [(k, serialize_remote client s.key_hash_cache k)]))).Inv := by
  have hsound := h.threads t
  rw [ht] at hsound
  apply h.setThread
  intro x hx
  rcases List.mem_append.mp hx with hx | hx
  · exact hsound x hx
  · obtain rfl := List.mem_singleton.mp hx
    cases client with
    | false => exact Or.inl rfl
    | true =>
      cases hf : s.key_hash_cache.find k with
      | none => exact Or.inl (by simp [serialize_remote, hf])
      | some y =>
        obtain ⟨hy, rfl⟩ := multi_index.Container.mem_of_find hf
        have hleads : s.leads c = s.leads s.connection := by simpa [hf, eq_comm] using hok
        refine Or.inr ⟨y.hash, by simp [serialize_remote, hf], ?_⟩
        exact (h.caches s.connection y hy).of_leads hleads

theorem Inv.serve {cache : KeyCache K} {keys : List K} (h : s.Inv)
    (ht : s.threads t = .sent c request) (hc : s.served c = some cache)
    (hkeys : (request.mapM fun x => deserialize_local cache x.2) = some keys) :
    ((s.log ((request.map Prod.fst).zipWith Event.served keys)).setThread t
      (.serving c [])).Inv := by
  have hsound := h.threads t
  rw [ht] at hsound
  have hright := right_of_served (fun x hx k hr => (hsound x hx).read hc hr) hkeys
  exact (h.log hright).setThread (by simp [Sound])

theorem Inv.number [DecidableEq K] {server : Bool} {cache : KeyCache K} (h : s.Inv)
    (ht : s.threads t = .serving c answer) (hc : s.served c = some cache)
    (hok : (!server || ((s.key_cache s.run).find k).isSome ||
      decide ((s.key_cache s.run).elements.length < 4294967296)) = true) :
    ((s.setTable (serialize_local server cache k).2).setThread t
      (.serving c (answer ++ [(k, (serialize_local server cache k).1)]))).Inv := by
  have hsound := h.threads t
  rw [ht] at hsound
  obtain ⟨hl, rfl⟩ := served_eq_some.mp hc
  obtain ⟨hn, hsub, hsent⟩ := serialize_local_spec (h.numbered s.run) hok
  obtain ⟨hg, hinv⟩ := h.setTable hn hsub
  apply hinv.setThread
  intro x hx
  rcases List.mem_append.mp hx with hx | hx
  · exact (hsound x hx).later hg
  · obtain rfl := List.mem_singleton.mp hx
    rcases hsent with hsent | ⟨n, hsent, hmem⟩
    · exact Or.inl hsent
    · exact Or.inr ⟨n, hsent, s.run, hl, by simpa [State.setTable] using hmem⟩

theorem Inv.decode_hash (h : s.Inv) (ht : s.threads t = .decoding c ((k, .hash n) :: rest))
    (hc : s.connection = c) :
    (s.looked t c k n rest).Inv ∧ missing s.key_hash_cache [n] = [] ∨
      ((s.log [.looked_up c s.connection]).setThread t
        (.resolving c k n rest [n] .top)).Inv ∧ missing s.key_hash_cache [n] = [n] := by
  have hsound := h.threads t
  rw [ht] at hsound
  have hrest : ∀ x ∈ rest, s.Means c x := fun x hx => hsound x (List.mem_cons_of_mem _ hx)
  have hknows : s.Knows c ⟨n, k⟩ := by
    rcases hsound _ (List.mem_cons_self ..) with hkey | ⟨n', hn', hk⟩
    · cases hkey
    · cases hn'
      exact hk
  rw [missing_singleton]
  cases hf : s.key_hash_cache.find_at n with
  | some y =>
    obtain ⟨hy, rfl⟩ := multi_index.Container.find_at_eq_some.mp hf
    have hyk : y.key = k := hknows.inj (hc ▸ h.caches s.connection y hy)
    exact Or.inl ⟨h.looked hc (hyk ▸ hy) hrest, by simp⟩
  | none =>
    refine Or.inr ⟨?_, by simp⟩
    have hlog : (s.log [.looked_up c s.connection]).Inv := h.log (by simp [Event.Right, hc])
    have hg : Grows s (s.log [.looked_up c s.connection]) := .of_same rfl rfl
    exact hlog.setThread ⟨hknows.later hg, fun x hx => (hrest x hx).later hg, rfl, by simp⟩

theorem Inv.resolved [DecidableEq K] {ids : List Int} {c' : Nat} {keys : List K} (h : s.Inv)
    (ht : s.threads t = .resolving c k n rest ids (.answered c' keys)) (hc : s.connection = c)
    (hl : s.leads c' = s.leads c) (hlen : keys.length = ids.length) :
    ((s.fill (ids.zipWith KeyHash.mk keys)).looked t c k n rest).Inv := by
  have hsound := h.threads t
  rw [ht] at hsound
  obtain ⟨hknows, hrest, rfl, hanswer⟩ := hsound
  obtain ⟨k', rfl⟩ := List.length_eq_one_iff.mp hlen
  have hk' : s.Knows c ⟨n, k'⟩ := (hanswer c' _ rfl _ (by simp)).of_leads hl.symm
  obtain rfl := hknows.inj hk'
  have hfill : (s.fill [⟨n, k'⟩]).Inv := h.fill (by simpa [hc] using hk')
  have hg : Grows s (s.fill [⟨n, k'⟩]) := by
    refine ⟨fun i r hr => ?_, fun r x hx => hx⟩
    simp only [leads, State.fill, State.setConnection, Function.update_apply]
    split_ifs with heq
    · exact heq ▸ hr
    · exact hr
  refine hfill.looked hc ?_ fun x hx => (hrest x hx).later hg
  obtain ⟨r, hr, hx⟩ := hk'
  have hsub : ∀ y ∈ s.key_hash_cache.elements, y ∈ (s.key_cache r).elements := by
    intro y hy
    obtain ⟨r', hr', hy'⟩ := h.caches s.connection y hy
    rw [hc, hr, Option.some.injEq] at hr'
    exact hr' ▸ hy'
  simpa [State.fill, State.setConnection, State.key_hash_cache] using
    mem_emplace_singleton hsub hx

theorem Inv.start : (start : State K).Inv :=
  ⟨fun _ => numbered_empty, fun c x hx => by simp [State.start, multi_index.Container.empty] at hx,
    fun t => trivial, by simp [State.start]⟩

theorem Inv.step [DecidableEq K] {client server : Bool} {a : Action K} (h : s.Inv)
    (hok : on_its_connection client server s a = true) (hs : s.step client server a = some s') :
    s'.Inv := by
  cases a with
  | restart =>
    cases hs
    have hg : Grows s { s with run := s.run + 1 } := .of_same rfl rfl
    exact h.later hg h.numbered (fun c x hx => (h.caches c x hx).later hg) rfl rfl
  | other k =>
    cases hs
    obtain ⟨hn, hsub, -⟩ := serialize_local_spec (h.numbered s.run) hok
    exact (h.setTable hn hsub).2
  | connected c =>
    simp only [State.step] at hs
    split_ifs at hs with hnone
    cases hs
    exact h.setConnection (by simp [hnone]) (h.caches c)
  | disconnected c =>
    cases hs
    exact h.setConnection (fun r hr => hr) (h.caches c)
  | replace c =>
    simp only [State.step] at hs
    split_ifs at hs
    cases hs
    have hg : Grows s { s with connection := c } := .of_same rfl rfl
    exact h.later hg h.numbered (fun c x hx => (h.caches c x hx).later hg) rfl rfl
  | call t args =>
    simp only [State.step] at hs
    split at hs
    · cases hs
      exact h.setThread (by simp [Sound])
    · cases hs
  | encode t =>
    simp only [State.step] at hs
    split at hs
    · rename_i c k args request ht
      cases hs
      exact h.encode ht (by simpa only [on_its_connection, ht] using hok)
    · cases hs
  | send t =>
    simp only [State.step] at hs
    split at hs
    · rename_i c request ht
      cases hs
      have hsound := h.threads t
      rw [ht] at hsound
      exact h.setThread hsound
    · cases hs
  | serve t =>
    simp only [State.step] at hs
    split at hs
    · rename_i c request ht
      obtain ⟨cache, hc, rfl⟩ := Option.map_eq_some_iff.mp hs
      split
      · rename_i keys hkeys
        exact h.serve ht hc hkeys
      · exact h.setThread trivial
    · cases hs
  | number t k =>
    simp only [State.step] at hs
    split at hs
    · rename_i c answer ht
      obtain ⟨cache, hc, rfl⟩ := Option.map_eq_some_iff.mp hs
      exact h.number ht hc hok
    · cases hs
  | reply t =>
    simp only [State.step] at hs
    split at hs
    · rename_i c answer ht
      obtain ⟨cache, hc, rfl⟩ := Option.map_eq_some_iff.mp hs
      have hsound := h.threads t
      rw [ht] at hsound
      exact h.setThread hsound
    · cases hs
  | decode t =>
    simp only [State.step] at hs
    split at hs
    · rename_i c k k' rest ht
      cases hs
      have hsound := h.threads t
      rw [ht] at hsound
      have hk : k' = k := by simpa [Means] using hsound _ (List.mem_cons_self ..)
      have hread : (s.log [.received k k']).Inv := h.log (by simp [Event.Right, hk])
      refine hread.setThread ?_
      exact fun x hx => (hsound x (List.mem_cons_of_mem _ hx)).later (.of_same rfl rfl)
    · rename_i c k n rest ht
      have hc : s.connection = c := by simpa [on_its_connection, ht] using hok
      rcases h.decode_hash ht hc with ⟨hinv, hm⟩ | ⟨hinv, hm⟩
      · simp only [hm, Option.some.injEq] at hs
        exact hs ▸ hinv
      · simp only [hm, Option.some.injEq] at hs
        exact hs ▸ hinv
    · cases hs
  | ask t =>
    simp only [State.step] at hs
    split at hs
    · rename_i c k n rest ids r ht hr
      cases hs
      have hsound := h.threads t
      rw [ht] at hsound
      exact h.setThread ⟨hsound.1, hsound.2.1, hsound.2.2.1, by simp⟩
    · cases hs
  | resolve t =>
    simp only [State.step] at hs
    split at hs
    · rename_i c k n rest ids c' ht
      obtain ⟨cache, hc, rfl⟩ := Option.map_eq_some_iff.mp hs
      have hsound := h.threads t
      rw [ht] at hsound
      split
      · rename_i keys hkeys
        refine h.setThread ⟨hsound.1, hsound.2.1, hsound.2.2.1, ?_⟩
        rintro c'' keys' hq x hx
        cases hq
        obtain ⟨hl, rfl⟩ := served_eq_some.mp hc
        exact ⟨s.run, hl, mem_of_resolved hkeys hx⟩
      · exact h.setThread trivial
    · cases hs
  | resolved t =>
    simp only [State.step] at hs
    split at hs
    · rename_i c k n rest ids c' keys ht
      have hon : s.connection = c ∧ s.leads c' = s.leads c := by
        simpa [on_its_connection, ht] using hok
      split_ifs at hs with hlen
      · cases hs
        exact h.setThread trivial
      · cases hs
        exact h.resolved ht hon.1 hon.2 (not_not.mp hlen)
    · cases hs
  | ask_again t =>
    simp only [State.step] at hs
    split at hs
    · rename_i c k n rest ids question ht
      cases hs
      have hsound := h.threads t
      rw [ht] at hsound
      exact h.setThread ⟨hsound.1, hsound.2.1, hsound.2.2.1, by simp⟩
    · cases hs
  | ask_all t =>
    simp only [State.step] at hs
    split at hs
    · cases hs
      exact h.setThread trivial
    · cases hs
  | resolve_all t =>
    simp only [State.step] at hs
    split at hs
    · rename_i c ht
      obtain ⟨cache, hc, rfl⟩ := Option.map_eq_some_iff.mp hs
      obtain ⟨hl, rfl⟩ := served_eq_some.mp hc
      exact h.setThread fun x hx => ⟨s.run, hl, hx⟩
    · cases hs
  | resolved_all t =>
    simp only [State.step] at hs
    split at hs
    · rename_i c answer ht
      cases hs
      have hl : s.leads s.connection = s.leads c := by simpa [on_its_connection, ht] using hok
      have hsound := h.threads t
      rw [ht] at hsound
      exact (h.fill fun x hx => (hsound x hx).of_leads hl).setThread trivial
    · cases hs
  | ended t =>
    cases hs
    exact h.setThread trivial

end State

/-- In every run of the server and the client in which the table of the `Remote` is still that of
the connection of the RPC that uses it, each key is read at both ends as the key that was sent, each
number is looked up in the table of its connection, and the assertion holds. -/
theorem keys_mean_the_same [DecidableEq K] {client server : Bool} {as : List (Action K)}
    {s : State K}
    (hrun : Run (State.step client server) (fun s a => on_its_connection client server s a = true)
      .start as s) : ∀ e ∈ s.events, e.Right := by
  have hinv : s.Inv := hrun.invariant State.Inv.start fun _ _ _ h hok hs => h.step hok hs
  exact hinv.events

/-- Key 7 is sent as the number 0 and asked for, and is then sent by the client as this number. -/
def fetched_then_stored : List (Action Nat) :=
  [.connected 0, .call 0 [], .send 0, .serve 0, .number 0 7, .reply 0, .decode 0, .ask 0,
    .resolve 0, .resolved 0, .ended 0, .call 0 [7, 8], .encode 0, .encode 0, .send 0, .serve 0]

theorem stored_keys_mean_the_same : ∃ s : State Nat,
    Run (State.step true true) (fun s a => on_its_connection true true s a = true) .start
      fetched_then_stored s ∧
    s.events = [.looked_up 0 0, .looked_up 0 0, .received 7 7, .served 7 7, .served 8 8] ∧
    ∀ e ∈ s.events, e.Right := by
  have hexec : (exec (State.step true true)
      (fun s a => on_its_connection true true s a = true) .start fetched_then_stored).map
        State.events =
      some [.looked_up 0 0, .looked_up 0 0, .received 7 7, .served 7 7, .served 8 8] := by
    decide +kernel
  obtain ⟨s, hrun, hevents⟩ := Run.of_exec_map hexec
  exact ⟨s, hrun, hevents, keys_mean_the_same hrun⟩

/-- The server starts again while a client asks for the number 0 of key 7. Another thread then
fetches key 8, which has the number 0 in the new run, and the question is sent again on the new
connection. -/
def asked_again : List (Action Nat) :=
  [.connected 0, .call 0 [], .send 0, .serve 0, .number 0 7, .reply 0, .decode 0, .ask 0,
    .restart, .disconnected 0, .connected 1, .replace 1, .call 1 [], .send 1, .serve 1,
    .number 1 8, .reply 1, .ask_again 0, .ask 0, .resolve 0, .resolved 0]

theorem a_key_is_read_as_another : ¬ ∀ (as : List (Action Nat)) (s : State Nat),
    Run (State.step true true) anyStep .start as s → ∀ e ∈ s.events, e.Right := by
  have hexec : (exec (State.step true true) anyStep .start asked_again).map State.events =
      some [.looked_up 0 0, .looked_up 0 1, .received 7 8] := by decide +kernel
  obtain ⟨s, hrun, hevents⟩ := Run.of_exec_map hexec
  intro h
  have hread : (8 : Nat) = 7 := h asked_again s hrun (.received 7 8) (by simp [hevents])
  omega

end memo.Remote
