-- When a packet of an observer leaves the storage nodes that a node knows, its files, and its
-- pending requests as they are.
import Memo.KelipsObservers

open dictionaries runs vectors

namespace memo.overlay.kelips.Service

variable {A E P K B : Type} {k : Nat} [DecidableEq A] [DecidableEq E]
variable {s t : Service A E P K B k} {lib : Library A E P K B} {chance : Chance A E K B}
variable {now : Time} {source : E} {a b : A} {es : List E} {id : Int}

/-! ## The node of a service -/

/-- What a handler does to the node, but for that of a gossip. -/
inductive Quiet (chance : Chance A E K B) (now : Time) (n : Node A E k) : Node A E k → Prop
  | same (promised : List A) : Quiet chance now n { n with _promised_files := promised }
  | noted (table : Option (Fin k)) (a : A) {f : Contact A E → Contact A E}
      (hf : ∀ c, (f c).presence = c.presence) (promised : List A) :
      Quiet chance now n ({ n with _promised_files := promised }.update table a f)
  | made (promised : List A) (a : A) (es : List E) (count : Nat) : Quiet chance now n
      (({ n with _promised_files := promised }.get_or_make now a true es true).1.update
        (n.observed a) a (Contact.queue count))
  | picked : Quiet chance now n (n.pickFiles chance.pick_files now).2

theorem Quiet.refl (n : Node A E k) : Quiet chance now n n := .same n._promised_files

omit [DecidableEq A] [DecidableEq E] in
theorem resolve_node (f : PendingRequest A E → PendingRequest A E) :
    (s.resolve id f).node = s.node := by
  unfold resolve
  split <;> rfl

theorem Quiet.resolve (f : PendingRequest A E → PendingRequest A E) :
    Quiet chance now s.node (s.resolve id f).node := by
  rw [resolve_node]
  exact .refl _

variable {p : Packet A E P B} {f : PendingRequest A E → PendingRequest A E}
  {result : NodeLocations A E} {fg : Fin k}

theorem reply_eq : s.reply now a es p =
    { s with node := (s.node.get_or_make now a true es.dedup true).1 }.send_to
      (s.node.observed a) a p := by
  have htable : (s.node.get_or_make now a true es.dedup true).2 = some (s.node.observed a) := by
    rw [Node.get_or_make_observer]
  unfold reply
  cases hmade : s.node.get_or_make now a true es.dedup true with
  | mk n table =>
    rw [hmade] at htable
    subst htable
    rfl

theorem Quiet.answer (promised : List A)
    (hs : s.node = { t.node with _promised_files := promised }) :
    Quiet chance now t.node
      (if a = s.node._self then s.resolve id f else s.reply now a es p).node := by
  split
  · rw [resolve_node, hs]
    exact .same promised
  · rw [reply_eq]
    unfold send_to send
    dsimp only
    rw [hs]
    exact .made promised a _ _

theorem Quiet.forward :
    Quiet chance now s.node (s.forward chance fg p).node := by
  unfold Service.forward
  split
  · exact .noted (n := s.node) _ _ (fun _ => Contact.queue_presence) s.node._promised_files
  · exact .refl _

theorem Quiet.onMultiGetFileRequest {p : MultiGetFileRequest A E (List (NodeLocations A E))} :
    Quiet chance now s.node (s.onMultiGetFileRequest chance now source p).node := by
  unfold Service.onMultiGetFileRequest
  split
  · exact .refl _
  · dsimp only
    split
    · exact .refl _
    · split
      · exact .refl _
      · split
        · exact .answer s.node._promised_files rfl
        · exact .forward

theorem Quiet.onGetFileRequest {p : GetFileRequest A E} :
    Quiet chance now s.node (s.onGetFileRequest chance now source p).node := by
  unfold Service.onGetFileRequest
  dsimp only
  split
  · split
    · exact .answer s.node._promised_files rfl
    · exact .answer s.node._promised_files rfl
  · exact .forward

theorem Quiet.put_results {p : PutFileRequest A E} {insert_result : NodeLocations A E}
    (promised : List A) (hs : s.node = { t.node with _promised_files := promised }) :
    Quiet chance now t.node
      (s.put_results lib chance now source p result insert_result).node := by
  have hsame : Quiet chance now t.node s.node := hs ▸ .same promised
  unfold Service.put_results
  dsimp only
  split
  · split
    · exact .answer promised hs
    · exact .answer promised hs
  · split
    · unfold send_to send
      dsimp only
      rw [hs]
      exact .noted _ _ (fun _ => Contact.queue_presence) promised
    · exact hsame

theorem Quiet.onPutFileRequest {p : PutFileRequest A E} :
    Quiet chance now s.node (s.onPutFileRequest lib chance now source p).node := by
  unfold Service.onPutFileRequest
  dsimp only
  split
  · exact .refl _
  · split
    · exact .put_results _ rfl
    · exact .put_results s.node._promised_files rfl

theorem handle_node (lib : Library A E P K B) (chance : Chance A E K B) (now : Time)
    (source : E) (s : Service A E P K B k) (p : Packet A E P B) :
    (∃ q, p = .gossip q ∧
      (s.handle lib chance now source p).node = s.node.onGossip now source q) ∨
    Quiet chance now s.node (s.handle lib chance now source p).node := by
  cases p with
  | gossip q => exact .inl ⟨q, rfl, rfl⟩
  | mget p => exact .inr .onMultiGetFileRequest
  | get p => exact .inr .onGetFileRequest
  | put p => exact .inr .onPutFileRequest
  | fileBootstrapRequest sender observer => exact .inr .picked
  | pong sender observer endpoint =>
    refine .inr ?_
    change Quiet chance now s.node (s.onPong now sender endpoint).node
    unfold onPong
    split
    · rename_i t _
      exact .noted (n := s.node) (f := ({ · with rtt := now - t })) _ _ (fun _ => rfl)
        s.node._promised_files
    · exact .refl _
  | bootstrapRequest sender observer =>
    refine .inr ?_
    change Quiet chance now s.node (s.onBootstrapRequest chance source sender observer).node
    unfold onBootstrapRequest send
    dsimp only
    split <;> exact .refl _
  | mgetReply p => exact .inr (.resolve _)
  | getReply p => exact .inr (.resolve _)
  | putReply p => exact .inr (.resolve _)
  | ping sender observer endpoint => exact .inr (.refl _)
  | crypt sender observer payload => exact .inr (.refl _)
  | reqk p => exact .inr (.refl _)
  | repk p => exact .inr (.refl _)

/-! ### What datagrams keep -/

omit [DecidableEq E] in
theorem onRequestKey_node (p : RequestKey A P B) : (s.onRequestKey lib chance p).node = s.node := by
  unfold onRequestKey
  split
  · rfl
  · rfl
  · split
    · rfl
    · dsimp only
      split <;> rfl

theorem flush_bootstrap_same (lib : Library A E P K B) (source : E) (a : A)
    (s : Service A E P K B k) : (s.flush_bootstrap lib source a).node = s.node ∧
    (s.flush_bootstrap lib source a)._pending_requests = s._pending_requests ∧
    (s.flush_bootstrap lib source a).answered = s.answered ∧
    (s.flush_bootstrap lib source a).fault = s.fault := by
  unfold flush_bootstrap
  dsimp only
  split <;> exact ⟨rfl, rfl, rfl, rfl⟩

/-- The key of the reply is taken. -/
def TakesKey [DecidableEq B] (lib : Library A E P K B) (p : KeyReply A P B)
    (s : Service A E P K B k) : Prop :=
  ∃ encrypted_key stored_challenge, p.encrypted_key = some encrypted_key ∧
    lib.verify p.passport = some true ∧ s._challenges.lookup p.token = some stored_challenge ∧
    lib.verify_challenge p.passport p.signed_challenge stored_challenge = some true ∧
    (lib.open_key encrypted_key).isSome

/-- The requests wait as before, and nothing undefined happens. -/
structure SameRequests (s t : Service A E P K B k) : Prop where
  pending : t._pending_requests = s._pending_requests
  answered : t.answered = s.answered
  fault : t.fault = s.fault ∨ ∃ f ≠ .subscript, t.fault = some f

omit [DecidableEq A] [DecidableEq E] in
theorem SameRequests.fail {f : Fault} (hf : f ≠ .subscript) : s.SameRequests (s.fail f) :=
  ⟨rfl, rfl, .inr ⟨f, hf, rfl⟩⟩

omit [DecidableEq E] in
theorem onRequestKey_requests (p : RequestKey A P B) :
    s.SameRequests (s.onRequestKey lib chance p) := by
  unfold onRequestKey
  split
  · exact .fail (by decide)
  · exact ⟨rfl, rfl, .inl rfl⟩
  · split
    · exact .fail (by decide)
    · dsimp only
      split
      · exact ⟨rfl, rfl, .inr ⟨.cryptography_error, by decide, rfl⟩⟩
      · exact ⟨rfl, rfl, .inl rfl⟩

theorem onKeyReply_node [DecidableEq B] (lib : Library A E P K B) (now : Time) (source : E)
    (s : Service A E P K B k) (p : KeyReply A P B) :
    s.SameRequests (s.onKeyReply lib now source p) ∧
      (s.onKeyReply lib now source p).node =
        (open Classical in if s.TakesKey lib p
          then s.node.onContactSeen now p.sender source p.observer else s.node) := by
  unfold onKeyReply
  split
  · rename_i hkey
    rw [if_neg fun ⟨_, _, h, _⟩ => nomatch hkey.symm.trans h]
    exact ⟨⟨rfl, rfl, .inl rfl⟩, rfl⟩
  rename_i encrypted_key hkey
  split
  · rename_i hverify
    rw [if_neg fun ⟨_, _, _, h, _⟩ => nomatch hverify.symm.trans h]
    exact ⟨.fail (by decide), rfl⟩
  · rename_i hverify
    rw [if_neg fun ⟨_, _, _, h, _⟩ => nomatch hverify.symm.trans h]
    exact ⟨⟨rfl, rfl, .inl rfl⟩, rfl⟩
  rename_i hverify
  split
  · rename_i hchallenge
    rw [if_neg fun ⟨_, _, _, _, h, _⟩ => nomatch hchallenge.symm.trans h]
    exact ⟨⟨rfl, rfl, .inl rfl⟩, rfl⟩
  rename_i stored_challenge hchallenge
  have hsame : s.TakesKey lib p → lib.verify_challenge p.passport p.signed_challenge
      stored_challenge = some true ∧ (lib.open_key encrypted_key).isSome := by
    rintro ⟨k, c, hk, -, hc, hsigned, hopen⟩
    obtain rfl : encrypted_key = k := Option.some.inj (hkey.symm.trans hk)
    obtain rfl : stored_challenge = c := Option.some.inj (hchallenge.symm.trans hc)
    exact ⟨hsigned, hopen⟩
  split
  · rename_i hsigned
    rw [if_neg fun h => nomatch hsigned.symm.trans (hsame h).1]
    exact ⟨.fail (by decide), rfl⟩
  rename_i ok hsigned
  dsimp only
  split
  · rename_i hok
    split
    · rename_i hopen
      rw [if_neg fun h => Option.isSome_iff_ne_none.mp (hsame h).2 hopen]
      exact ⟨⟨rfl, rfl, .inr ⟨.cryptography_error, by decide, rfl⟩⟩, rfl⟩
    · rename_i sk hopen
      rw [if_pos ⟨encrypted_key, stored_challenge, hkey, hverify, hchallenge, hok ▸ hsigned,
        Option.isSome_iff_exists.mpr ⟨sk, hopen⟩⟩]
      dsimp only
      obtain ⟨hnode, hpending, hanswered, hfault⟩ := flush_bootstrap_same lib source p.sender
        (({ s with _challenges := s._challenges.filter fun c => c.1 ≠ p.token } :
          Service A E P K B k).setKey p.sender sk (!lib.allow_storage p.passport))
      rw [hnode]
      exact ⟨⟨hpending, hanswered, .inl hfault⟩, rfl⟩
  · rename_i hok
    rw [if_neg fun h => hok (Option.some.inj (hsigned.symm.trans (hsame h).1))]
    exact ⟨⟨rfl, rfl, .inl rfl⟩, rfl⟩

omit [DecidableEq A] [DecidableEq E] in
theorem send_key_request_node [DecidableEq B] :
    (s.send_key_request lib chance a).node = s.node := by
  unfold send_key_request
  dsimp only
  split <;> rfl

/-- A property of the node that no handler takes away. The origin of a request has endpoints. -/
structure Lasting (Q : Node A E k → Prop) : Prop where
  seen : ∀ {n now a e observer}, Q n → Q (n.onContactSeen now a e observer)
  gossip : ∀ {n now e p}, Q n → Q (n.onGossip now e p)
  origin : ∀ {n now a es}, es ≠ [] → Q n → Q (n.get_or_make now a true es true).1
  noted : ∀ {n} table a {f : Contact A E → Contact A E},
    (∀ c, (f c).address = c.address ∧ (f c).endpoints = c.endpoints) → Q n →
      Q (n.update table a f)
  promised : ∀ {n} l, Q n → Q { n with _promised_files := l }
  picked : ∀ {n now} l, Q n → Q (n.pickFiles l now).2

theorem dedup_origin_ne_nil (source : E) (es : List E) :
    (Service.origin source es).dedup ≠ [] := by
  rw [ne_eq, List.dedup_eq_nil]
  unfold Service.origin
  split
  · simp
  · assumption

section

variable {Q : Node A E k → Prop}

theorem Lasting.queue {n : Node A E k} {table : Option (Fin k)} {count : Nat} (h : Lasting Q)
    (hn : Q n) : Q (n.update table a (Contact.queue count)) := by
  refine h.noted table a (fun c => ?_) hn
  unfold Contact.queue
  split <;> exact ⟨rfl, rfl⟩

theorem Lasting.send_to {table : Option (Fin k)} (h : Lasting Q) (hs : Q s.node) :
    Q (s.send_to table a p).node := h.queue hs

theorem Lasting.answer (h : Lasting Q) (hs : Q s.node) :
    Q (if a = s.node._self then s.resolve id f
      else s.reply now a (Service.origin source es) p).node := by
  split
  · rwa [resolve_node]
  · rw [reply_eq]
    exact h.send_to (h.origin (dedup_origin_ne_nil source es) hs)

theorem Lasting.forward (h : Lasting Q) (hs : Q s.node) :
    Q (s.forward chance fg p).node := by
  unfold Service.forward
  split
  · exact h.send_to hs
  · exact hs

theorem Lasting.onMultiGetFileRequest (h : Lasting Q) (hs : Q s.node)
    (p : MultiGetFileRequest A E (List (NodeLocations A E))) :
    Q (s.onMultiGetFileRequest chance now source p).node := by
  unfold Service.onMultiGetFileRequest
  split
  · exact hs
  · dsimp only
    split
    · exact hs
    · split
      · exact hs
      · split
        · exact h.answer hs
        · exact h.forward hs

theorem Lasting.onGetFileRequest (h : Lasting Q) (hs : Q s.node) (p : GetFileRequest A E) :
    Q (s.onGetFileRequest chance now source p).node := by
  unfold Service.onGetFileRequest
  dsimp only
  split
  · split
    · exact h.answer hs
    · exact h.answer hs
  · exact h.forward hs

theorem Lasting.put_results (h : Lasting Q) (hs : Q s.node) (p : PutFileRequest A E)
    (result insert_result : NodeLocations A E) :
    Q (s.put_results lib chance now source p result insert_result).node := by
  unfold Service.put_results
  dsimp only
  split
  · split
    · exact h.answer hs
    · exact h.answer hs
  · split
    · exact h.send_to hs
    · exact hs

theorem Lasting.onPutFileRequest (h : Lasting Q) (hs : Q s.node) (p : PutFileRequest A E) :
    Q (s.onPutFileRequest lib chance now source p).node := by
  unfold Service.onPutFileRequest
  dsimp only
  split
  · exact hs
  · apply h.put_results
    split
    · exact h.promised _ hs
    · exact hs

theorem Lasting.handle (h : Lasting Q) (hs : Q s.node) (p : Packet A E P B) :
    Q (s.handle lib chance now source p).node := by
  cases p with
  | gossip q => exact h.gossip hs
  | mget p => exact h.onMultiGetFileRequest hs p
  | get p => exact h.onGetFileRequest hs p
  | put p => exact h.onPutFileRequest hs p
  | fileBootstrapRequest sender observer => exact h.picked _ hs
  | pong sender observer endpoint =>
    change Q (s.onPong now sender endpoint).node
    unfold onPong
    split
    · exact h.noted _ _ (fun _ => ⟨rfl, rfl⟩) hs
    · exact hs
  | bootstrapRequest sender observer =>
    change Q (s.onBootstrapRequest chance source sender observer).node
    unfold onBootstrapRequest send
    dsimp only
    split <;> exact hs
  | mgetReply p | getReply p | putReply p =>
    change Q (s.resolve _ _).node
    rwa [resolve_node]
  | ping sender observer endpoint => exact hs
  | crypt sender observer payload => exact hs
  | reqk p => exact hs
  | repk p => exact hs

variable [DecidableEq B]

theorem Lasting.dispatch {was_crypted : Bool} (h : Lasting Q) (hs : Q s.node)
    (p : Packet A E P B) : Q (s.dispatch lib chance now source was_crypted p).node := by
  unfold Service.dispatch
  split
  · rwa [onRequestKey_node]
  · rename_i q
    rw [(onKeyReply_node lib now source s q).2]
    split
    · exact h.seen hs
    · exact hs
  · split
    · exact hs
    · exact h.handle (h.seen hs) p

theorem Lasting.process_crypt {payload : B} (h : Lasting Q) (hs : Q s.node) :
    Q (s.process_crypt lib chance now source a payload).node := by
  unfold Service.process_crypt
  split
  · rwa [send_key_request_node]
  · split
    · rwa [send_key_request_node]
    · exact hs
    · exact hs
    · split_ifs
      · exact hs
      · exact hs
      · exact hs
      · exact h.dispatch hs _

theorem Lasting.process {buf : B} (h : Lasting Q) (hs : Q s.node) :
    Q (s.process lib chance now source buf).node := by
  unfold Service.process
  split
  · exact hs
  · split
    · exact hs
    · exact hs
    · exact hs
    · exact h.process_crypt hs
    · exact h.dispatch hs _

theorem Lasting.step {event : Time × Event A E K B} (h : Lasting Q) (hs : Q s.node)
    (hnode : ∀ act, event.2 = .node act → Q (s.node.step (event.1, act))) :
    Q (step lib s event).node := by
  have hunanswered : ∀ a, Q (s.unanswered a).node := by
    intro a
    unfold unanswered
    split
    · exact h.noted _ _ (fun _ => ⟨rfl, rfl⟩) hs
    · exact hs
  obtain ⟨now, event⟩ := event
  cases event with
  | node act => exact hnode act rfl
  | datagram chance source buf => exact h.process hs
  | request id files => exact hs
  | timeout id => exact hs
  | ping a => exact h.queue (hunanswered a)
  | ping_timeout a => exact hunanswered a
  | send_to observer a => exact h.queue hs
  | contact observer a endpoint => exact h.noted _ _ (fun _ => ⟨rfl, rfl⟩) hs
  | send_key_request chance a =>
    change Q (s.send_key_request lib chance a).node
    rwa [send_key_request_node]

end

/-! ### Tables stay maps -/

theorem lasting_mapped : Lasting (Node.Mapped (A := A) (E := E) (k := k)) where
  seen h := h.onContactSeen
  gossip h := h.onGossip
  origin _ h := h.get_or_make
  noted _ _ _ hf h := h.update fun c => (hf c).1
  promised _ h := ⟨h.once, h.grouped⟩
  picked _ h := ⟨h.once, h.grouped⟩

theorem step_mapped [DecidableEq B] (h : s.node.Mapped) (event : Time × Event A E K B) :
    (step lib s event).node.Mapped :=
  lasting_mapped.step h fun act _ => h.step (event.1, act)

theorem run_mapped [DecidableEq B] (lib : Library A E P K B) (h : s.node.Mapped)
    (events : List (Time × Event A E K B)) : (events.foldl (step lib) s).node.Mapped :=
  List.foldlRecOn (motive := fun s : Service A E P K B k => s.node.Mapped) _ _ h
    fun _ h event _ => step_mapped h event

/-! ## Nothing is touched -/

/-- The storage nodes, the files and the requests are as before, and nothing undefined
happened. -/
structure Untouched (s t : Service A E P K B k) : Prop where
  contacts : s.node.SameStorage t.node
  files : t.node.files = s.node.files
  pending : t._pending_requests = s._pending_requests
  answered : t.answered = s.answered
  defined : t.fault ≠ some .subscript

omit [DecidableEq A] [DecidableEq E] in
theorem SameRequests.defined (h : s.SameRequests t) (hs : s.fault ≠ some .subscript) :
    t.fault ≠ some .subscript := by
  rcases h.fault with hfault | ⟨f, hf, hfault⟩
  · exact hfault ▸ hs
  · rw [hfault]
    exact fun heq => hf (Option.some.inj heq)

omit [DecidableEq A] [DecidableEq E] in
theorem SameRequests.untouched_iff (h : s.SameRequests t) (hs : s.fault ≠ some .subscript) :
    s.Untouched t ↔ s.node.SameStorage t.node ∧ t.node.files = s.node.files :=
  ⟨fun h => ⟨h.contacts, h.files⟩,
    fun hsame => ⟨hsame.1, hsame.2, h.pending, h.answered, h.defined hs⟩⟩

omit [DecidableEq A] [DecidableEq E] in
theorem SameRequests.untouched (h : s.SameRequests t) (hs : s.fault ≠ some .subscript)
    (hnode : t.node = s.node) : s.Untouched t :=
  (h.untouched_iff hs).mpr ⟨fun _ => hnode ▸ rfl, hnode ▸ rfl⟩

/-- An answer that is due to the origin of a request changes nothing. -/
def Spared (now : Time) (a : A) (es : List E) (id : Int) (s : Service A E P K B k) : Prop :=
  if a = s.node._self then s._pending_requests.lookup id = none else s.node.Known now es a

/-- The files are as they are once they are picked. -/
def Unpicked (chance : Chance A E K B) (now : Time) (s : Service A E P K B k) : Prop :=
  ∀ f ∈ s.node.files, (f.address, f.home_node) ∉ chance.pick_files ∧
    (f.home_node = s.node._self → f.last_seen = now)

/-- The contact of the group that is picked, is not one for which one more packet waits. -/
def Unqueued (chance : Chance A E K B) (fg : Fin k) (s : Service A E P K B k) : Prop :=
  ∀ c, s.pick chance fg = some c → s.node.Flushed fg c.address

/-- The handler of a packet touches nothing: no reply is for a request that waits, no round trip
has another time, no file is picked, the requests that the node answers are from origins that it
knows, and the others do not wait for a contact. -/
def Spares (chance : Chance A E K B) (now : Time) (source : E) (s : Service A E P K B k) :
    Packet A E P B → Prop
  | .mgetReply p => s._pending_requests.lookup p.request_id = none
  | .pong sender _ _ => ∀ t, s._ping_time.lookup sender = some t →
      ∀ c ∈ s.node.contacts (some (s.node.group_of sender)), c.address = sender → c.rtt = now - t
  | .fileBootstrapRequest _ _ => s.Unpicked chance now
  | .get p =>
      if s.get_done chance p ∨ p.ttl = 0 then
        s.Spared now p.originAddress (origin source p.originEndpoints) p.request_id
      else
        s.Unqueued chance (s.node.group_of p.fileAddress)
  | .put p =>
      let fg := s.node.group_of p.fileAddress
      let result := s.addLocalResults chance p.fileAddress p.result
      if s.put_done p (result.length + (s.put_inserted chance p result).length) then
        s.Spared now p.originAddress (origin source p.originEndpoints) p.request_id
      else
        s.Unqueued chance fg ∧ (s.pick chance fg = none → s.Unqueued chance s.node._group)
  | .mget p => ∀ front ∈ p.fileAddresses.head?,
      let fg := s.node.group_of front
      ¬(fg = s.node._group ∧ p.fileAddresses.length < p.results.length) →
        ∃ done, complete (unsigned p.count) p.fileAddresses (s.mget_results chance fg p) =
            some done ∧
          if done ∨ s.alone fg p.originAddress ∨ p.ttl = 0 then
            s.Spared now p.originAddress (origin source p.originEndpoints) p.request_id
          else
            s.Unqueued chance fg
  | _ => True

omit [DecidableEq A] [DecidableEq E] in
theorem untouched_resolve_iff (hs : s.fault ≠ some .subscript) :
    s.Untouched (s.resolve id f) ↔ s._pending_requests.lookup id = none := by
  unfold resolve
  cases hlookup : s._pending_requests.lookup id with
  | none => exact ⟨fun _ => rfl, fun _ => ⟨fun _ => rfl, rfl, rfl, rfl, hs⟩⟩
  | some r =>
    refine ⟨fun h => ?_, nofun⟩
    have hanswered : s.answered ++ [(id, f r)] = s.answered := h.answered
    simp at hanswered

omit [DecidableEq E] in
theorem sends_pos (a : A) (s : Service A E P K B k) : 0 < s.sends a := by
  unfold sends
  split <;> decide

theorem untouched_reply_iff (h : s.node.Mapped) (hs : s.fault ≠ some .subscript) :
    s.Untouched (s.reply now a es p) ↔ s.node.Known now es a := by
  have hknown : s.node.Known now es.dedup a ↔ s.node.Known now es a := by
    unfold Node.Known
    simp only [List.mem_dedup]
  rw [reply_eq, ← hknown, ← Node.sameStorage_told_iff h (sends_pos a s)]
  refine Iff.trans (SameRequests.untouched_iff ?_ hs) ?_
  · exact ⟨rfl, rfl, .inl rfl⟩
  · exact and_iff_left (Node.SameFiles.get_or_make now a true es.dedup true s.node).files

omit [DecidableEq E] in
theorem untouched_send_to_iff (hs : s.fault ≠ some .subscript) :
    s.Untouched (s.send_to (some fg) a p) ↔ s.node.Flushed fg a := by
  rw [← Node.sameStorage_queue_iff (sends_pos a s)]
  refine Iff.trans (SameRequests.untouched_iff ?_ hs) (and_iff_left rfl)
  exact ⟨rfl, rfl, .inl rfl⟩

theorem untouched_answer_iff (h : s.node.Mapped) (hs : s.fault ≠ some .subscript) :
    s.Untouched (if a = s.node._self then s.resolve id f else s.reply now a es p) ↔
      s.Spared now a es id := by
  unfold Spared
  split
  · exact untouched_resolve_iff hs
  · exact untouched_reply_iff h hs

omit [DecidableEq E] in
theorem untouched_forward_iff (hs : s.fault ≠ some .subscript) :
    s.Untouched (s.forward chance fg p) ↔ s.Unqueued chance fg := by
  unfold forward Unqueued
  cases s.pick chance fg with
  | none => exact ⟨fun _ => nofun, fun _ => ⟨fun _ => rfl, rfl, rfl, rfl, hs⟩⟩
  | some c =>
    simp only [Option.some.injEq, forall_eq']
    exact untouched_send_to_iff hs

omit [DecidableEq A] [DecidableEq E] in
theorem untouched_dropped_gets {m : Nat} :
    s.Untouched { t with _dropped_gets := m } ↔ s.Untouched t :=
  ⟨fun h => { h with },
    fun h => { h with }⟩

omit [DecidableEq A] [DecidableEq E] in
theorem untouched_dropped_puts {m : Nat} :
    s.Untouched { t with _dropped_puts := m } ↔ s.Untouched t :=
  ⟨fun h => { h with },
    fun h => { h with }⟩

theorem untouched_get_iff {p : GetFileRequest A E} (h : s.node.Mapped)
    (hs : s.fault ≠ some .subscript) :
    s.Untouched (s.onGetFileRequest chance now source p) ↔
      s.Spares (P := P) chance now source (.get p) := by
  unfold onGetFileRequest Spares
  dsimp only
  split
  · split
    · exact untouched_answer_iff h hs
    · exact untouched_dropped_gets.trans (untouched_answer_iff h hs)
  · exact untouched_forward_iff hs

theorem untouched_mget_iff {p : MultiGetFileRequest A E (List (NodeLocations A E))}
    (h : s.node.Mapped) (hs : s.fault ≠ some .subscript) :
    s.Untouched (s.onMultiGetFileRequest chance now source p) ↔
      s.Spares (P := P) chance now source (.mget p) := by
  have hsame : s.Untouched s := ⟨fun _ => rfl, rfl, rfl, rfl, hs⟩
  unfold onMultiGetFileRequest Spares
  dsimp only
  split
  · rename_i hnil
    rw [hnil]
    refine ⟨fun _ _ hfront => ?_, fun _ => hsame⟩
    exact nomatch hfront
  · rename_i front rest hfront
    have hhead : ∀ q : A → Prop, (∀ a ∈ p.fileAddresses.head?, q a) ↔ q front := by
      intro q
      rw [hfront]
      simp
    rw [hhead]
    split
    · rename_i hmany
      refine ⟨fun _ hno => absurd hmany hno, fun _ => ?_⟩
      exact (SameRequests.fail (by decide)).untouched hs rfl
    · rename_i hfew
      rw [forall_prop_of_true hfew]
      split
      · rename_i hnone
        rw [hnone]
        exact ⟨fun ht => absurd rfl ht.defined, fun ⟨_, hdone, _⟩ => nomatch hdone⟩
      · rename_i done hdone
        rw [hdone]
        simp only [Option.some.injEq, exists_eq_left']
        split
        · exact untouched_answer_iff h hs
        · exact untouched_forward_iff hs

/-! ### Files that are put -/

theorem local_result_subset {f : File A} {r : NodeLocation A E} (hr : r ∈ result) :
    r ∈ local_result fg s result f := by
  unfold local_result
  split
  · exact hr
  · split
    · exact List.mem_append_left _ hr
    · split
      · exact List.mem_append_left _ hr
      · exact hr

theorem local_result_self (fg : Fin k) (result : NodeLocations A E) {f : File A}
    (hf : f.home_node = s.node._self) :
    ∃ r ∈ local_result fg s result f, r.id = s.node._self := by
  unfold local_result
  split
  · rename_i hany
    obtain ⟨r, hr, hid⟩ := List.any_eq_true.mp hany
    exact ⟨r, hr, (of_decide_eq_true hid).trans hf⟩
  · exact ⟨_, List.mem_append_right _ (List.mem_singleton_self _), hf⟩

theorem addLocalResults_self (chance : Chance A E K B) {file : A} (result : NodeLocations A E)
    {f : File A} (hf : f ∈ s.node.files) (haddress : f.address = file)
    (hhome : f.home_node = s.node._self) :
    ∃ r ∈ s.addLocalResults chance file result, r.id = s.node._self := by
  have hmem : f ∈ chance.shuffle (s.node.files.filter fun f => f.address = file) :=
    (chance.shuffled _).mem_iff.mpr (List.mem_filter.mpr ⟨hf, decide_eq_true haddress⟩)
  obtain ⟨before, after, hsplit⟩ := List.append_of_mem hmem
  unfold addLocalResults
  rw [hsplit, List.foldl_append, List.foldl_cons]
  obtain ⟨r, hr, hid⟩ := local_result_self (s.node.group_of file)
    (before.foldl (local_result (s.node.group_of file) s) result) hhome
  exact ⟨r, List.foldlRecOn (motive := fun l => r ∈ l) _ _ hr fun _ h _ _ =>
    local_result_subset h, hid⟩

theorem accepts_unstored {p : PutFileRequest A E}
    (haccepts : s.accepts chance p (s.addLocalResults chance p.fileAddress p.result) = true) :
    ¬s.node.files.any fun f => f.address = p.fileAddress ∧ f.home_node = s.node._self := by
  intro hany
  obtain ⟨f, hf, hown⟩ := List.any_eq_true.mp hany
  rw [decide_eq_true_eq] at hown
  obtain ⟨r, hr, hid⟩ := addLocalResults_self chance p.result hf hown.1 hown.2
  unfold accepts at haccepts
  rw [decide_eq_true_eq] at haccepts
  exact haccepts.2.2.2.1 (List.any_eq_true.mpr ⟨r, hr, decide_eq_true hid⟩)

theorem untouched_put_results {p : PutFileRequest A E} {insert_result : NodeLocations A E}
    (h : s.node.Mapped) (hs : s.fault ≠ some .subscript) :
    s.Untouched (s.put_results lib chance now source p result insert_result) ↔
      if s.put_done p (result.length + insert_result.length) then
        s.Spared now p.originAddress (origin source p.originEndpoints) p.request_id
      else
        s.Unqueued chance (s.node.group_of p.fileAddress) ∧
          (s.pick chance (s.node.group_of p.fileAddress) = none →
            s.Unqueued chance s.node._group) := by
  have hsent : ∀ g a p, s.Untouched (s.send_to (some g) a p) ↔ s.node.Flushed g a :=
    fun _ _ _ => untouched_send_to_iff hs
  have hnone : s.Untouched s := ⟨fun _ => rfl, rfl, rfl, rfl, hs⟩
  unfold put_results
  dsimp only
  split
  · split
    · exact untouched_dropped_puts.trans (untouched_answer_iff h hs)
    · exact untouched_answer_iff h hs
  · unfold Unqueued
    cases s.pick chance (s.node.group_of p.fileAddress) with
    | some c => simpa using hsent _ c.address _
    | none =>
      cases s.pick chance s.node._group with
      | some c => simpa using hsent _ c.address _
      | none => simpa using hnone

/-- The promised files do not matter. -/
theorem untouched_put_results_iff {p : PutFileRequest A E} {insert_result : NodeLocations A E}
    (promised : List A) (h : s.node.Mapped) (hs : s.fault ≠ some .subscript) :
    s.Untouched ({ s with node := { s.node with _promised_files := promised } }.put_results lib
      chance now source p result insert_result) ↔
        if s.put_done p (result.length + insert_result.length) then
          s.Spared now p.originAddress (origin source p.originEndpoints) p.request_id
        else
          s.Unqueued chance (s.node.group_of p.fileAddress) ∧
            (s.pick chance (s.node.group_of p.fileAddress) = none →
              s.Unqueued chance s.node._group) := by
  let t : Service A E P K B k := { s with node := { s.node with _promised_files := promised } }
  have hanswer : ∀ u : Service A E P K B k, s.Untouched u ↔ t.Untouched u := fun u =>
    ⟨fun h => { h with },
      fun h => { h with }⟩
  exact (hanswer _).trans (untouched_put_results (s := t) ⟨h.once, h.grouped⟩ hs)

theorem untouched_put_iff {p : PutFileRequest A E} (h : s.node.Mapped)
    (hs : s.fault ≠ some .subscript) :
    s.Untouched (s.onPutFileRequest lib chance now source p) ↔
      s.Spares (P := P) chance now source (.put p) := by
  unfold onPutFileRequest Spares
  dsimp only
  rw [if_neg fun hstored => accepts_unstored hstored.1 hstored.2]
  split
  · exact untouched_put_results_iff _ h hs
  · exact untouched_put_results_iff s.node._promised_files h hs

theorem untouched_files_iff {sender : A} {observer : Bool} (hs : s.fault ≠ some .subscript) :
    s.Untouched (s.onFileBootstrapRequest chance now sender) ↔
      s.Spares (P := P) chance now source (.fileBootstrapRequest sender observer) := by
  have hrequests : s.SameRequests (s.onFileBootstrapRequest chance now sender) :=
    ⟨rfl, rfl, .inl rfl⟩
  have hcontacts : s.node.SameStorage (s.onFileBootstrapRequest chance now sender).node :=
    fun _ => rfl
  rw [hrequests.untouched_iff hs, and_iff_right hcontacts]
  unfold onFileBootstrapRequest Node.pickFiles send Spares Unpicked
  dsimp only
  rw [List.map_map, map_eq_self_iff]
  refine forall₂_congr fun f _ => ?_
  dsimp only [Function.comp]
  have hcount : f.gossip_count + 1 ≠ f.gossip_count := by omega
  by_cases hself : f.home_node = s.node._self
  · simp only [if_pos hself]
    split
    · rename_i hpicked
      exact ⟨fun h => absurd (congrArg File.gossip_count h) hcount, fun h => absurd hpicked h.1⟩
    · rename_i hpicked
      refine ⟨fun h => ⟨hpicked, fun _ => (congrArg File.last_seen h).symm⟩, fun h => ?_⟩
      rw [← h.2 hself]
  · simp only [if_neg hself]
    split
    · rename_i hpicked
      exact ⟨fun h => absurd (congrArg File.gossip_count h) hcount, fun h => absurd hpicked h.1⟩
    · rename_i hpicked
      exact ⟨fun _ => ⟨hpicked, fun h => absurd h hself⟩, fun _ => rfl⟩

theorem untouched_handle_iff (h : s.node.Mapped) (hs : s.fault ≠ some .subscript)
    (hp : p.non_observer = false) :
    s.Untouched (s.handle lib chance now source p) ↔ s.Spares chance now source p := by
  have hsame : ∀ t : Service A E P K B k, s.SameRequests t → t.node = s.node →
      (s.Untouched t ↔ True) := fun t ht hnode => iff_true_intro (ht.untouched hs hnode)
  cases p with
  | gossip p => exact nomatch hp
  | getReply p => exact nomatch hp
  | putReply p => exact nomatch hp
  | get p => exact untouched_get_iff h hs
  | put p => exact untouched_put_iff h hs
  | mget p => exact untouched_mget_iff h hs
  | mgetReply p => exact untouched_resolve_iff hs
  | fileBootstrapRequest sender observer => exact untouched_files_iff hs
  | ping sender observer endpoint => exact hsame _ ⟨rfl, rfl, .inl rfl⟩ rfl
  | pong sender observer endpoint =>
    change s.Untouched (s.onPong now sender endpoint) ↔ _
    unfold onPong Spares
    dsimp only
    cases s._ping_time.lookup sender with
    | none => exact ⟨fun _ _ h => (nomatch h), fun _ => ⟨fun _ => rfl, rfl, rfl, rfl, hs⟩⟩
    | some t =>
      simp only [Option.some.injEq, forall_eq']
      refine Iff.trans (SameRequests.untouched_iff ?_ hs) ?_
      · exact ⟨rfl, rfl, .inl rfl⟩
      rw [Node.sameStorage_update_iff]
      refine (and_iff_left rfl).trans (forall₃_congr fun c _ _ => ?_)
      exact ⟨fun h => (congrArg Contact.rtt h).symm, fun h => by rw [← h]⟩
  | bootstrapRequest sender observer =>
    have hbootstrap : s.SameRequests (s.onBootstrapRequest chance source sender observer) ∧
        (s.onBootstrapRequest chance source sender observer).node = s.node := by
      unfold onBootstrapRequest send
      dsimp only
      split <;> exact ⟨⟨rfl, rfl, .inl rfl⟩, rfl⟩
    exact hsame _ hbootstrap.1 hbootstrap.2
  | crypt sender observer payload => exact hsame _ (.fail (by decide)) rfl
  | reqk p => exact hsame _ (.fail (by decide)) rfl
  | repk p => exact hsame _ (.fail (by decide)) rfl

/-! ## A packet of an observer -/

/-- The service, once a packet is seen as one of an observer. -/
def seen (now : Time) (source : E) (a : A) (s : Service A E P K B k) : Service A E P K B k :=
  { s with node := s.node.onContactSeen now a source true }

theorem sameStorage_seen (h : s.node.Mapped) (hp : p.non_observer = false)
    (hsame : s.node.SameStorage ((s.seen now source a).handle lib chance now source p).node) :
    s.node.SameStorage (s.seen now source a).node := by
  obtain ⟨q, rfl, -⟩ | hquiet := handle_node lib chance now source (s.seen now source a) p
  · exact nomatch hp
  · generalize ((s.seen now source a).handle lib chance now source p).node = n at hsame hquiet
    cases hquiet with
    | same promised => exact hsame
    | picked => exact hsame
    | noted table b hf promised =>
      have hpresence : s.node.SamePresence (s.seen now source a).node :=
        (Node.samePresence_update_iff hf).mp hsame.presence
      exact hpresence.onContactSeen h
    | made promised b es count =>
      have hmapped : (s.seen now source a).node.Mapped := h.onContactSeen
      have hpromised : Node.Mapped
          { (s.seen now source a).node with _promised_files := promised } :=
        ⟨hmapped.once, hmapped.grouped⟩
      have hpresence := (Node.samePresence_update_iff fun _ => Contact.queue_presence).mp
        hsame.presence
      have hmade : s.node.SamePresence
          ((s.node.onContactSeen now a source true).get_or_make now b true es true).1 := by
        intro g
        have hg := hpresence g
        rw [Node.contacts_get_or_make hpromised] at hg
        rw [Node.contacts_get_or_make h.onContactSeen]
        exact hg
      exact Node.SamePresence.of_get_or_make h hmade

theorem spared_seen_iff (h : s.node.Mapped)
    (hsame : s.node.SameStorage (s.seen now source a).node) :
    (s.seen now source a).Spared now b es id ↔ s.Spared now b es id := by
  unfold Spared
  have hself : (s.seen now source a).node._self = s.node._self :=
    (Node.SameFiles.onContactSeen now a source true s.node).self
  rw [hself]
  split
  · rfl
  · exact Node.known_onContactSeen h hsame

/-! ### What the handlers look at -/

/-- The storage nodes, the files, the pings and the endpoints of the node are as before. -/
structure Alike (s t : Service A E P K B k) : Prop where
  contacts : s.node.SameStorage t.node
  files : Node.SameFiles s.node t.node
  local_endpoints : t._local_endpoints = s._local_endpoints
  localhost : t.localhost = s.localhost
  ping_time : t._ping_time = s._ping_time

omit [DecidableEq E] in
theorem Alike.find (h : s.Alike t) (fg : Fin k) (a : A) :
    t.node.find (some fg) a = s.node.find (some fg) a := by
  unfold Node.find
  rw [h.contacts]

omit [DecidableEq A] [DecidableEq E] in
theorem Alike.group_of (h : s.Alike t) (a : A) : t.node.group_of a = s.node.group_of a := by
  unfold Node.group_of
  rw [h.files.config]

omit [DecidableEq A] [DecidableEq E] in
theorem Alike.group (h : s.Alike t) : t.node._group = s.node._group := by
  unfold Node._group
  rw [h.group_of, h.files.self]

omit [DecidableEq A] [DecidableEq E] in
theorem Alike.pick (h : s.Alike t) (fg : Fin k) : t.pick chance fg = s.pick chance fg := by
  unfold Service.pick
  rw [h.contacts]

omit [DecidableEq A] [DecidableEq E] in
theorem Alike.unqueued (h : s.Alike t) (fg : Fin k) :
    t.Unqueued chance fg ↔ s.Unqueued chance fg := by
  unfold Unqueued Node.Flushed
  rw [h.pick, h.contacts]

omit [DecidableEq E] in
theorem Alike.alone (h : s.Alike t) (fg : Fin k) (a : A) : t.alone fg a = s.alone fg a := by
  unfold Service.alone
  rw [h.contacts, h.find]

theorem Alike.addLocalResults (h : s.Alike t) (file : A) (result : NodeLocations A E) :
    t.addLocalResults chance file result = s.addLocalResults chance file result := by
  have hresult : local_result (s.node.group_of file) t = local_result (s.node.group_of file) s := by
    funext result f
    unfold local_result
    rw [h.files.self, h.find, h.local_endpoints, h.localhost]
  unfold Service.addLocalResults
  rw [h.group_of, hresult, h.files.files]

theorem Alike.addLocalResultsMulti (h : s.Alike t) (files : List A)
    (results : List (NodeLocations A E)) :
    t.addLocalResultsMulti chance files results = s.addLocalResultsMulti chance files results := by
  induction files generalizing results with
  | nil => rfl
  | cons file files ih =>
    cases results with
    | nil | cons result results =>
      unfold Service.addLocalResultsMulti
      rw [h.addLocalResults, ih]

theorem Alike.get_result (h : s.Alike t) (p : GetFileRequest A E) :
    t.get_result chance p = s.get_result chance p := by
  unfold Service.get_result
  dsimp only
  rw [h.group_of, h.group, h.find, h.addLocalResults]

theorem Alike.get_done (h : s.Alike t) (p : GetFileRequest A E) :
    t.get_done chance p = s.get_done chance p := by
  unfold Service.get_done
  rw [h.get_result, h.group_of, h.alone]

theorem Alike.mget_results (h : s.Alike t) (fg : Fin k)
    (p : MultiGetFileRequest A E (List (NodeLocations A E))) :
    t.mget_results chance fg p = s.mget_results chance fg p := by
  unfold Service.mget_results
  rw [h.group, h.addLocalResultsMulti]

theorem Alike.put_inserted (h : s.Alike t) (p : PutFileRequest A E)
    (result : NodeLocations A E) :
    t.put_inserted chance p result = s.put_inserted chance p result := by
  unfold Service.put_inserted accepts
  rw [h.group_of, h.group, h.files.self, h.contacts, h.local_endpoints]

omit [DecidableEq A] [DecidableEq E] in
theorem Alike.put_done (h : s.Alike t) (p : PutFileRequest A E) (size : Nat) :
    t.put_done p size = s.put_done p size := by
  unfold Service.put_done
  rw [h.group, h.contacts]

theorem spares_seen_iff (h : s.node.Mapped)
    (hsame : s.node.SameStorage (s.seen now source a).node) :
    (s.seen now source a).Spares chance now source p ↔ s.Spares chance now source p := by
  have hfiles : Node.SameFiles s.node (s.seen now source a).node :=
    Node.SameFiles.onContactSeen now a source true s.node
  have halike : s.Alike (s.seen now source a) := ⟨hsame, hfiles, rfl, rfl, rfl⟩
  cases p with
  | get p =>
    unfold Spares
    dsimp only
    rw [spared_seen_iff h hsame, halike.get_done, halike.group_of, halike.unqueued]
  | put p =>
    unfold Spares
    dsimp only
    rw [spared_seen_iff h hsame, halike.addLocalResults, halike.put_inserted, halike.put_done,
      halike.group_of, halike.group, halike.pick, halike.unqueued, halike.unqueued]
  | pong sender observer endpoint =>
    unfold Spares
    dsimp only
    rw [halike.ping_time, halike.group_of, halike.contacts]
  | mget p =>
    unfold Spares
    dsimp only
    refine forall₂_congr fun front _ => ?_
    rw [halike.group_of, halike.group, halike.mget_results, halike.alone]
    simp only [spared_seen_iff h hsame, halike.unqueued]
  | fileBootstrapRequest sender observer =>
    unfold Spares Unpicked
    dsimp only
    rw [hfiles.files, hfiles.self]
  | _ => exact Iff.rfl

theorem untouched_seen_iff (h : s.node.Mapped) (hs : s.fault ≠ some .subscript)
    (hp : p.non_observer = false) :
    s.Untouched ((s.seen now source a).handle lib chance now source p) ↔
      s.node.Stamped now source a ∧ s.Spares chance now source p := by
  have hfiles : Node.SameFiles s.node (s.seen now source a).node :=
    Node.SameFiles.onContactSeen now a source true s.node
  have hmapped : (s.seen now source a).node.Mapped := h.onContactSeen
  have htouch : s.node.SameStorage (s.seen now source a).node → ∀ t : Service A E P K B k,
      s.Untouched t ↔ (s.seen now source a).Untouched t := by
    intro hsame t
    refine ⟨fun ht => ⟨fun g => ?_, ?_, ht.pending, ht.answered, ht.defined⟩,
      fun ht => ⟨fun g => ?_, ?_, ht.pending, ht.answered, ht.defined⟩⟩
    · exact (ht.contacts g).trans (hsame g).symm
    · exact ht.files.trans hfiles.files.symm
    · exact (ht.contacts g).trans (hsame g)
    · exact ht.files.trans hfiles.files
  constructor
  · intro ht
    have hsame := sameStorage_seen h hp ht.contacts
    refine ⟨(Node.sameStorage_onContactSeen_iff h).mp hsame, ?_⟩
    rw [← spares_seen_iff h hsame, ← untouched_handle_iff hmapped hs hp, ← htouch hsame]
    exact ht
  · rintro ⟨hstamped, hspares⟩
    have hsame := (Node.sameStorage_onContactSeen_iff h).mpr hstamped
    rw [htouch hsame, untouched_handle_iff hmapped hs hp, spares_seen_iff h hsame]
    exact hspares

variable [DecidableEq B]

/-- A packet of an observer touches nothing: it is a key request, or a key reply whose key is not
taken, or it comes from where its sender was just seen and what it asks for spares what is
stored. -/
def Harmless (lib : Library A E P K B) (chance : Chance A E K B) (now : Time) (source : E)
    (s : Service A E P K B k) : Packet A E P B → Prop
  | .reqk _ => True
  | .repk p => s.TakesKey lib p → s.node.Stamped now source p.sender
  | p => s.node.Stamped now source p.sender ∧ s.Spares chance now source p

theorem untouched_dispatch_iff (h : s.node.Mapped) (hs : s.fault ≠ some .subscript)
    (hp : p.non_observer = false) (hobserver : p.observer = true) :
    s.Untouched (s.dispatch lib chance now source true p) ↔
      s.Harmless lib chance now source p := by
  unfold dispatch Harmless
  cases p with
  | reqk p => exact iff_true_intro ((onRequestKey_requests p).untouched hs (onRequestKey_node p))
  | repk p =>
    obtain ⟨hrequests, hnode⟩ := onKeyReply_node lib now source s p
    have hseen : p.observer = true := hobserver
    dsimp only
    rw [hrequests.untouched_iff hs, hnode, hseen]
    split
    · rename_i htakes
      rw [forall_prop_of_true htakes, Node.sameStorage_onContactSeen_iff h]
      exact and_iff_left (Node.SameFiles.onContactSeen now p.sender source true s.node).files
    · rename_i htakes
      exact ⟨fun _ h => absurd h htakes, fun _ => ⟨fun _ => rfl, rfl⟩⟩
  | _ =>
    dsimp only
    rw [if_neg (by simp), hobserver]
    exact untouched_seen_iff h hs hp

/-! ## Runs -/

/-- A node that takes no plain packets, and that is just started. -/
def started (a : A) (observer : Bool) (config : Configuration A k) (now : Time) (keys : List A)
    (localhost : E) : Service A E P K B k :=
  { node := Node.started a observer config now keys, localhost }

/-- The packet is encrypted, and is taken as one of an observer. -/
structure FromObserver (lib : Library A E P K B) (buf : B) (s : Service A E P K B k)
    (plain : Packet A E P B) : Prop where
  magic : lib._check_magic buf
  received : ∃ sender observer payload key,
    lib.deserialize buf = .packet (.crypt sender observer payload) ∧
    s._keys.lookup sender = some (key, true) ∧ lib.decrypt key payload = .packet plain ∧
    plain.sender = sender
  observer : plain.observer = true
  accepted : plain.non_observer = false

theorem FromObserver.process {buf : B} (h : FromObserver lib buf s p) :
    s.process lib chance now source buf = s.dispatch lib chance now source true p := by
  obtain ⟨sender, observer, payload, key, hbuf, hkey, hplain, rfl⟩ := h.received
  unfold Service.process
  rw [if_neg (by simp [h.magic]), hbuf]
  dsimp only
  unfold process_crypt
  rw [hkey]
  dsimp only
  rw [hplain]
  dsimp only
  rw [if_neg fun hne => hne rfl, h.observer, if_neg (by decide), h.accepted, if_neg (by decide)]

/-- In every state that is reached, a packet of an observer that is taken touches nothing that is
stored if and only if it is harmless. -/
theorem observer_touches_nothing_iff {a : A} {observer : Bool} {config : Configuration A k}
    {start : Time} {keys : List A} {localhost : E} (events : List (Time × Event A E K B))
    (hlives : (events.foldl (step lib) (started a observer config start keys localhost)).fault =
      none) (buf : B) (p : Packet A E P B)
    (h : FromObserver lib buf
      (events.foldl (step lib) (started a observer config start keys localhost)) p) :
    (events.foldl (step lib) (started a observer config start keys localhost)).Untouched
      ((events.foldl (step lib) (started a observer config start keys localhost)).process
        lib chance now source buf) ↔
    (events.foldl (step lib) (started a observer config start keys localhost)).Harmless
      lib chance now source p := by
  have hmapped := run_mapped lib (s := started a observer config start keys localhost)
    ⟨fun _ => List.nodup_nil, nofun⟩ events
  generalize events.foldl (step lib) (started a observer config start keys localhost) = s at *
  rw [h.process]
  exact untouched_dispatch_iff hmapped (by rw [hlives]; exact nofun) h.accepted h.observer

/-- What an observer sends: its key request, and encrypted packets. -/
def observing : Library Nat Nat Unit Unit Nat where
  compress := false
  _check_magic _ := true
  read
    | 0 => .packet (.reqk ⟨5, true, (), 0, 0⟩)
    | 1 => .packet (.crypt 5 true 2)
    | 2 => .packet (.ping 5 true 9)
    | 3 => .packet (.crypt 5 true 4)
    | 4 => .packet (.mgetReply ⟨5, true, 7, 0, [8], .result [[⟨6, {6}⟩]], 1⟩)
    | _ => .null
  decipher _ payload := some payload
  verify _ := some true
  allow_storage _ := false
  verify_challenge _ _ _ := some true
  sign_challenge challenge := some challenge
  seal_key _ _ := some 0
  open_key _ := some ()
  unmapped endpoint := endpoint
  passport := ()
  invalid_passport := 0
  null := 0

/-- The observer has a key, and then the node asks for a file. -/
def asked : List (Time × Event Nat Nat Unit Nat) :=
  [(1, .datagram { token := 0, challenge := 0, secret := () } 9 0), (2, .request 7 (some [8]))]

/-- The node, that no one knows. -/
def asking : Service Nat Nat Unit Unit Nat 1 :=
  asked.foldl (step observing) (started 0 false Node.lonely 0 [] 1)

theorem ping_touches_nothing : FromObserver observing 1 asking (.ping 5 true 9) ∧
    asking.Untouched
      (asking.process observing { token := 0, challenge := 0, secret := () } 3 9 1) := by
  have h : FromObserver observing 1 asking (.ping 5 true 9) :=
    ⟨rfl, ⟨5, true, 2, (), rfl, rfl, rfl, rfl⟩, rfl, rfl⟩
  have hcontacts : ∀ g, asking.node.contacts (some g) = [] := by decide +kernel
  refine ⟨h, (observer_touches_nothing_iff asked (by decide +kernel) 1 _ h).mpr ⟨?_, trivial⟩⟩
  intro _ _ g c hc
  exact absurd ((hcontacts g : asking.node.contacts (some g) = []) ▸ hc) List.not_mem_nil

/-- The observer answers the request, with the nodes that it wants. -/
theorem observer_answers_mget :
    FromObserver observing 3 asking (.mgetReply ⟨5, true, 7, 0, [8], [[⟨6, {6}⟩]], 1⟩) ∧
      ¬asking.Untouched
        (asking.process observing { token := 0, challenge := 0, secret := () } 3 9 3) := by
  refine ⟨⟨rfl, ⟨5, true, 4, (), rfl, rfl, rfl, rfl⟩, rfl, rfl⟩, fun h => ?_⟩
  have hpending := congrArg List.length h.pending
  exact absurd hpending (by decide +kernel)

end memo.overlay.kelips.Service
