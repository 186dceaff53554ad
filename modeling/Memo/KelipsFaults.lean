-- Which datagrams break a node: its handling of them ends with an exception that it does not
-- catch, a failed assertion, or an access to what is not there.
import Memo.KelipsInfluence

open runs vectors

namespace memo.overlay.kelips

variable {A E P K B : Type} {k : Nat}

/-- The results of a reply that `Node::kelipsMGet` reads are each for one of its files. -/
def kelipsMGet_reads : List A → List (NodeLocations A E) → Bool
  | _, [] => true
  | [], result :: results => result.isEmpty && kelipsMGet_reads [] results
  | _ :: files, _ :: results => kelipsMGet_reads files results

/-- The thread of the request can read its reply. -/
def PendingRequest.Readable (r : PendingRequest A E) : Prop :=
  ∀ files ∈ r.files, kelipsMGet_reads files r.multi_result

namespace Service

variable {s t : Service A E P K B k} {lib : Library A E P K B} {chance : Chance A E K B}
variable {now : Time} {source : E} {a : A} {es : List E} {id : Int}

/-- Nothing went wrong, and nothing will when a request goes on. -/
structure Unbroken (s : Service A E P K B k) : Prop where
  fault : s.fault = none
  pending : ∀ r ∈ s._pending_requests, r.2.Readable
  answered : ∀ r ∈ s.answered, r.2.Readable

/-! ## Replies -/

theorem Unbroken.same (h : s.Unbroken) (hfault : t.fault = s.fault)
    (hpending : t._pending_requests = s._pending_requests) (hanswered : t.answered = s.answered) :
    t.Unbroken :=
  ⟨hfault.trans h.fault, hpending ▸ h.pending, hanswered ▸ h.answered⟩

theorem not_unbroken_fail {f : Fault} : ¬(s.fail f).Unbroken :=
  fun h => nomatch h.fault

theorem unbroken_resolve_iff {f : PendingRequest A E → PendingRequest A E} (h : s.Unbroken) :
    (s.resolve id f).Unbroken ↔ ∀ r, s._pending_requests.lookup id = some r → (f r).Readable := by
  unfold resolve
  cases hlookup : s._pending_requests.lookup id with
  | none => exact ⟨fun _ => nofun, fun _ => h⟩
  | some r =>
    have hanswered : (∀ q ∈ s.answered ++ [(id, f r)], q.2.Readable) ↔ (f r).Readable := by
      rw [List.forall_mem_append]
      exact ⟨fun hall => hall.2 _ (List.mem_singleton_self _),
        fun hr => ⟨h.answered, fun q hq => List.mem_singleton.mp hq ▸ hr⟩⟩
    constructor
    · rintro hunbroken r' hr'
      obtain rfl : r = r' := Option.some.inj hr'
      exact hanswered.mp hunbroken.answered
    · intro hr
      exact ⟨h.fault, fun q hq => h.pending q (List.mem_of_mem_filter hq),
        hanswered.mpr (hr r rfl)⟩

theorem Unbroken.lookup (h : s.Unbroken) {r : PendingRequest A E}
    (hr : s._pending_requests.lookup id = some r) : r.Readable := by
  obtain ⟨l, l', heq, -⟩ := List.lookup_eq_some_iff.mp hr
  exact h.pending (id, r) (heq ▸ List.mem_append_right l List.mem_cons_self)

/-- The reply can be read by the thread that waits for it. -/
def Reads (id : Int) (results : List (NodeLocations A E)) (s : Service A E P K B k) : Prop :=
  ∀ r, s._pending_requests.lookup id = some r → ∀ files ∈ r.files, kelipsMGet_reads files results

theorem Unbroken.onGetFileReply (h : s.Unbroken) (p : GetFileReply A E) :
    (s.onGetFileReply p).Unbroken :=
  (unbroken_resolve_iff h).mpr fun r hr => (h.lookup hr : r.Readable)

theorem Unbroken.onPutFileReply (h : s.Unbroken) (p : PutFileReply A E) :
    (s.onPutFileReply p).Unbroken :=
  (unbroken_resolve_iff h).mpr fun r hr => (h.lookup hr : r.Readable)

theorem unbroken_mgetReply_iff (h : s.Unbroken)
    (p : MultiGetFileReply A (List (NodeLocations A E))) :
    (s.onMultiGetFileReply p).Unbroken ↔ s.Reads p.request_id p.results :=
  unbroken_resolve_iff h

/-! ## Requests -/

variable [DecidableEq A]

theorem Unbroken.forward (h : s.Unbroken) {fg : Fin k} {p : Packet A E P B} :
    (s.forward chance fg p).Unbroken := by
  unfold Service.forward
  split
  · exact h.same rfl rfl rfl
  · exact h

variable [DecidableEq E]

theorem Unbroken.onGetFileRequest (h : s.Unbroken) (p : GetFileRequest A E) :
    (s.onGetFileRequest chance now source p).Unbroken := by
  have hanswer : ∀ q r, (if p.originAddress = s.node._self then s.onGetFileReply q
      else s.reply now p.originAddress (origin source p.originEndpoints) r).Unbroken := by
    intro q r
    split
    · exact h.onGetFileReply q
    · rw [reply_eq]
      exact h.same rfl rfl rfl
  unfold Service.onGetFileRequest
  dsimp only
  split
  · split
    · exact hanswer _ _
    · exact (hanswer _ _).same rfl rfl rfl
  · exact h.forward

theorem Unbroken.put_results (h : s.Unbroken) (p : PutFileRequest A E)
    (result insert_result : NodeLocations A E) :
    (s.put_results lib chance now source p result insert_result).Unbroken := by
  have hanswer : ∀ q r, (if p.originAddress = s.node._self then s.onPutFileReply q
      else s.reply now p.originAddress (origin source p.originEndpoints) r).Unbroken := by
    intro q r
    split
    · exact h.onPutFileReply q
    · rw [reply_eq]
      exact h.same rfl rfl rfl
  unfold Service.put_results
  dsimp only
  split
  · split
    · exact (hanswer _ _).same rfl rfl rfl
    · exact hanswer _ _
  · split
    · exact h.same rfl rfl rfl
    · exact h

theorem Unbroken.onPutFileRequest (h : s.Unbroken) (p : PutFileRequest A E) :
    (s.onPutFileRequest lib chance now source p).Unbroken := by
  unfold Service.onPutFileRequest
  dsimp only
  rw [if_neg fun hstored => accepts_unstored hstored.1 hstored.2]
  refine Unbroken.put_results ?_ _ _ _
  exact h.same rfl rfl rfl

/-- A request for several files has a list of results for each that is looked at, and no more if
the files are of the group of the node, and its reply can be read if it is for the node. -/
def SoundRequest (chance : Chance A E K B)
    (p : MultiGetFileRequest A E (List (NodeLocations A E))) (s : Service A E P K B k) : Prop :=
  ∀ front ∈ p.fileAddresses.head?,
    let fg := s.node.group_of front
    let results := s.mget_results chance fg p
    ¬(fg = s.node._group ∧ p.fileAddresses.length < p.results.length) ∧
      ∃ done, complete (unsigned p.count) p.fileAddresses results = some done ∧
        (done ∨ s.alone fg p.originAddress ∨ p.ttl = 0 → p.originAddress = s.node._self →
          s.Reads p.request_id results)

theorem unbroken_mget_iff (h : s.Unbroken)
    (p : MultiGetFileRequest A E (List (NodeLocations A E))) :
    (s.onMultiGetFileRequest chance now source p).Unbroken ↔ s.SoundRequest chance p := by
  unfold onMultiGetFileRequest SoundRequest
  dsimp only
  split
  · rename_i hnil
    rw [hnil]
    refine ⟨fun _ _ hfront => ?_, fun _ => h⟩
    cases hfront
  · rename_i front rest hfront
    have hhead : ∀ q : A → Prop, (∀ a ∈ p.fileAddresses.head?, q a) ↔ q front := by
      intro q
      rw [hfront]
      simp
    rw [hhead]
    split
    · rename_i hmany
      exact ⟨fun h => absurd h not_unbroken_fail, fun hsound => absurd hmany hsound.1⟩
    · rename_i hfew
      rw [and_iff_right hfew]
      split
      · rename_i hnone
        rw [hnone]
        refine ⟨fun h => absurd h not_unbroken_fail, ?_⟩
        rintro ⟨_, hdone, -⟩
        cases hdone
      · rename_i done hdone
        rw [hdone]
        simp only [Option.some.injEq, exists_eq_left']
        split
        · rename_i hanswer
          rw [forall_prop_of_true hanswer]
          split
          · rename_i hself
            rw [forall_prop_of_true hself]
            exact unbroken_mgetReply_iff h _
          · rename_i hself
            rw [reply_eq]
            exact ⟨fun _ heq => absurd heq hself, fun _ => h.same rfl rfl rfl⟩
        · rename_i hanswer
          exact ⟨fun _ heq => absurd heq hanswer, fun _ => h.forward⟩

/-! ## Packets -/

/-- The handler of a packet can deal with it. -/
def SoundHandler (chance : Chance A E K B) (s : Service A E P K B k) : Packet A E P B → Prop
  | .mget p => s.SoundRequest chance p
  | .mgetReply p => s.Reads p.request_id p.results
  | .crypt .. | .reqk _ | .repk _ => False
  | _ => True

theorem unbroken_handle_iff (h : s.Unbroken) (p : Packet A E P B) :
    (s.handle lib chance now source p).Unbroken ↔ s.SoundHandler chance p := by
  cases p with
  | mget p => exact unbroken_mget_iff h p
  | mgetReply p => exact unbroken_mgetReply_iff h p
  | get p => exact iff_true_intro (h.onGetFileRequest p)
  | put p => exact iff_true_intro (h.onPutFileRequest p)
  | getReply p => exact iff_true_intro (h.onGetFileReply p)
  | putReply p => exact iff_true_intro (h.onPutFileReply p)
  | gossip p | ping sender observer endpoint | fileBootstrapRequest sender observer =>
    exact iff_true_intro (h.same rfl rfl rfl)
  | pong sender observer endpoint =>
    refine iff_true_intro ?_
    change (s.onPong now sender endpoint).Unbroken
    unfold onPong
    split
    · exact h.same rfl rfl rfl
    · exact h
  | bootstrapRequest sender observer =>
    refine iff_true_intro ?_
    change (s.onBootstrapRequest chance source sender observer).Unbroken
    unfold onBootstrapRequest send
    dsimp only
    split <;> exact h.same rfl rfl rfl
  | crypt sender observer payload => exact iff_false_intro not_unbroken_fail
  | reqk p => exact iff_false_intro not_unbroken_fail
  | repk p => exact iff_false_intro not_unbroken_fail

/-- The cryptography that a key request needs does not throw. -/
def SoundRequestKey (lib : Library A E P K B) (chance : Chance A E K B) (p : RequestKey A P B) :
    Prop :=
  ∃ ok, lib.verify p.passport = some ok ∧ (ok → (lib.sign_challenge p.challenge).isSome ∧
    (lib.seal_key p.passport chance.secret).isSome)

omit [DecidableEq E] in
theorem unbroken_requestKey_iff (h : s.Unbroken) (p : RequestKey A P B) :
    (s.onRequestKey lib chance p).Unbroken ↔ SoundRequestKey lib chance p := by
  unfold onRequestKey SoundRequestKey
  cases hverify : lib.verify p.passport with
  | none => exact ⟨fun h => absurd h not_unbroken_fail, fun ⟨_, hok, _⟩ => nomatch hok⟩
  | some ok =>
    simp only [Option.some.injEq, exists_eq_left']
    cases ok with
    | false => exact ⟨fun _ => nofun, fun _ => h.same rfl rfl rfl⟩
    | true =>
      rw [forall_prop_of_true rfl]
      cases lib.sign_challenge p.challenge with
      | none => exact ⟨fun h => absurd h not_unbroken_fail, fun hsound => nomatch hsound.1⟩
      | some signed =>
        dsimp only
        cases lib.seal_key p.passport chance.secret with
        | none => exact ⟨fun h => absurd h not_unbroken_fail, fun hsound => nomatch hsound.2⟩
        | some encrypted => exact ⟨fun _ => ⟨rfl, rfl⟩, fun _ => h.same rfl rfl rfl⟩

variable [DecidableEq B]

/-- The cryptography that a key reply needs does not throw. -/
def SoundKeyReply (lib : Library A E P K B) (p : KeyReply A P B) (s : Service A E P K B k) :
    Prop :=
  ∀ encrypted_key ∈ p.encrypted_key, ∃ ok, lib.verify p.passport = some ok ∧
    (ok → ∀ stored ∈ s._challenges.lookup p.token,
      ∃ signed, lib.verify_challenge p.passport p.signed_challenge stored = some signed ∧
        (signed → (lib.open_key encrypted_key).isSome))

theorem unbroken_keyReply_iff (h : s.Unbroken) (p : KeyReply A P B) :
    (s.onKeyReply lib now source p).Unbroken ↔ s.SoundKeyReply lib p := by
  unfold onKeyReply SoundKeyReply
  cases hkey : p.encrypted_key with
  | none => exact ⟨fun _ => nofun, fun _ => h⟩
  | some encrypted_key =>
    simp only [Option.mem_def, Option.some.injEq, forall_eq']
    cases hverify : lib.verify p.passport with
    | none => exact ⟨fun h => absurd h not_unbroken_fail, fun ⟨_, hok, _⟩ => nomatch hok⟩
    | some ok =>
      simp only [Option.some.injEq, exists_eq_left']
      cases ok with
      | false => exact ⟨fun _ => nofun, fun _ => h⟩
      | true =>
        rw [forall_prop_of_true rfl]
        cases hchallenge : s._challenges.lookup p.token with
        | none => exact ⟨fun _ => nofun, fun _ => h⟩
        | some stored =>
          simp only [Option.some.injEq, forall_eq']
          cases lib.verify_challenge p.passport p.signed_challenge stored with
          | none => exact ⟨fun h => absurd h not_unbroken_fail, fun ⟨_, hok, _⟩ => nomatch hok⟩
          | some signed =>
            simp only [Option.some.injEq, exists_eq_left']
            cases signed with
            | false => exact ⟨fun _ => nofun, fun _ => h.same rfl rfl rfl⟩
            | true =>
              rw [forall_prop_of_true rfl, if_pos rfl]
              cases lib.open_key encrypted_key with
              | none =>
                exact ⟨fun h => absurd h not_unbroken_fail, nofun⟩
              | some sk =>
                refine ⟨fun _ => rfl, fun _ => ?_⟩
                obtain ⟨-, hpending, hanswered, hfault⟩ := flush_bootstrap_same lib source p.sender
                  (({ s with _challenges := s._challenges.filter fun c => c.1 ≠ p.token } :
                    Service A E P K B k).setKey p.sender sk (!lib.allow_storage p.passport))
                exact h.same hfault hpending hanswered

/-- A packet that is decrypted, or plain, can be dealt with. -/
def SoundPacket (lib : Library A E P K B) (chance : Chance A E K B) (now : Time) (source : E)
    (was_crypted : Bool) (s : Service A E P K B k) : Packet A E P B → Prop
  | .reqk p => SoundRequestKey lib chance p
  | .repk p => s.SoundKeyReply lib p
  | p => was_crypted ∨ s.accept_plain →
      { s with node := s.node.onContactSeen now p.sender source p.observer }.SoundHandler chance p

theorem unbroken_dispatch_iff {was_crypted : Bool} (h : s.Unbroken) (p : Packet A E P B) :
    (s.dispatch lib chance now source was_crypted p).Unbroken ↔
      s.SoundPacket lib chance now source was_crypted p := by
  have hplain : (!was_crypted) = true ∧ (!s.accept_plain) = true ↔
      ¬(was_crypted = true ∨ s.accept_plain = true) := by simp
  have hseen : ∀ n, Unbroken { s with node := n } := fun n => h.same rfl rfl rfl
  unfold dispatch SoundPacket
  cases p with
  | reqk p => exact unbroken_requestKey_iff h p
  | repk p => exact unbroken_keyReply_iff h p
  | _ =>
    dsimp only
    split
    · rename_i hrejected
      exact ⟨fun _ haccepted => absurd haccepted (hplain.mp hrejected), fun _ => h⟩
    · rename_i haccepted
      rw [forall_prop_of_true (not_not.mp fun hno => haccepted (hplain.mpr hno))]
      exact unbroken_handle_iff (hseen _) _

/-- What is deciphered is a packet, and one that can be dealt with if it is taken. -/
def SoundPayload (lib : Library A E P K B) (chance : Chance A E K B) (now : Time) (source : E)
    (sender : A) (payload : B) (s : Service A E P K B k) : Prop :=
  ∀ key ∈ s._keys.lookup sender,
    match lib.decrypt key.1 payload with
    | .fault f => f = .cryptography_error
    | .null => False
    | .packet plain =>
      plain.sender = sender → ¬plain.observer < key.2 → ¬(key.2 ∧ plain.non_observer) →
        s.SoundPacket lib chance now source true plain

omit [DecidableEq A] [DecidableEq E] in
theorem Unbroken.send_key_request (h : s.Unbroken) :
    (s.send_key_request lib chance a).Unbroken := by
  unfold Service.send_key_request
  dsimp only
  split <;> exact h.same rfl rfl rfl

theorem unbroken_crypt_iff {payload : B} (h : s.Unbroken) :
    (s.process_crypt lib chance now source a payload).Unbroken ↔
      s.SoundPayload lib chance now source a payload := by
  unfold process_crypt SoundPayload
  cases s._keys.lookup a with
  | none => exact ⟨fun _ => nofun, fun _ => h.send_key_request⟩
  | some key =>
    obtain ⟨key, observer⟩ := key
    simp only [Option.mem_def, Option.some.injEq, forall_eq']
    cases lib.decrypt key payload with
    | null => exact ⟨fun h => absurd h not_unbroken_fail, False.elim⟩
    | fault f =>
      cases f with
      | cryptography_error => exact ⟨fun _ => rfl, fun _ => h.send_key_request⟩
      | _ => exact ⟨fun h => absurd h not_unbroken_fail, nofun⟩
    | packet plain =>
      dsimp only
      split
      · rename_i hsender
        exact ⟨fun _ heq => absurd heq hsender, fun _ => h⟩
      rename_i hsender
      rw [forall_prop_of_true (not_not.mp hsender)]
      split
      · rename_i hflag
        exact ⟨fun _ hno => absurd hflag hno, fun _ => h⟩
      rename_i hflag
      rw [forall_prop_of_true hflag]
      split
      · rename_i hobserver
        exact ⟨fun _ hno => absurd hobserver hno, fun _ => h⟩
      · rename_i hobserver
        rw [forall_prop_of_true hobserver]
        exact unbroken_dispatch_iff h plain

/-- A datagram starts with 0 and is read, or fails to be read as it may, and what is read can be
dealt with. -/
def SoundDatagram (lib : Library A E P K B) (chance : Chance A E K B) (now : Time) (source : E)
    (buf : B) (s : Service A E P K B k) : Prop :=
  lib._check_magic buf ∧
    match lib.deserialize buf with
    | .fault f => f = .serialization_error
    | .null => True
    | .packet (.crypt sender _ payload) => s.SoundPayload lib chance now source sender payload
    | .packet p => s.SoundPacket lib chance now source false p

theorem unbroken_process_iff {buf : B} (h : s.Unbroken) :
    (s.process lib chance now source buf).Unbroken ↔
      s.SoundDatagram lib chance now source buf := by
  unfold process SoundDatagram
  cases lib._check_magic buf with
  | false => exact ⟨fun h => absurd h not_unbroken_fail, nofun⟩
  | true =>
  rw [if_neg (by decide), and_iff_right rfl]
  cases lib.deserialize buf with
  | null => exact iff_true_intro h
  | fault f =>
    cases f with
    | serialization_error => exact ⟨fun _ => rfl, fun _ => h⟩
    | _ => exact ⟨fun h => absurd h not_unbroken_fail, nofun⟩
  | packet p =>
    cases p with
    | crypt sender observer payload => exact unbroken_crypt_iff h
    | _ => exact unbroken_dispatch_iff h _

/-! ## Runs -/

/-- What happens is no datagram, or one that the node can deal with. -/
def SoundEvent (lib : Library A E P K B) (s : Service A E P K B k) :
    Time × Event A E K B → Prop
  | (now, .datagram chance source buf) => s.SoundDatagram lib chance now source buf
  | _ => True

theorem unbroken_step_iff (h : s.Unbroken) (event : Time × Event A E K B) :
    (step lib s event).Unbroken ↔ s.SoundEvent lib event := by
  have hunanswered : ∀ a, (s.unanswered a).Unbroken := by
    intro a
    unfold unanswered
    split
    · exact h.same rfl rfl rfl
    · exact h
  obtain ⟨now, event⟩ := event
  cases event with
  | datagram chance source buf => exact unbroken_process_iff h
  | node act => exact iff_true_intro (h.same rfl rfl rfl)
  | ping a => exact iff_true_intro ((hunanswered a).same rfl rfl rfl)
  | ping_timeout a => exact iff_true_intro (hunanswered a)
  | send_to observer a | contact observer a endpoint => exact iff_true_intro (h.same rfl rfl rfl)
  | send_key_request chance a => exact iff_true_intro h.send_key_request
  | timeout id =>
    exact iff_true_intro ⟨h.fault, fun r hr => h.pending r (List.mem_of_mem_filter hr), h.answered⟩
  | request id files =>
    refine iff_true_intro ⟨h.fault, fun r hr => ?_, h.answered⟩
    rcases List.mem_append.mp hr with hr | hr
    · exact h.pending r hr
    · rw [List.mem_singleton.mp hr]
      intro files _
      unfold kelipsMGet_reads
      rfl

/-- Nothing goes wrong, all along a run, if and only if the node can deal with all datagrams. -/
theorem unbroken_iff {observer accept_plain : Bool} {config : Configuration A k} {start : Time}
    {keys : List A} {localhost : E} (events : List (Time × Event A E K B)) :
    (∀ done, done <+: events → (done.foldl (step lib)
      { started a observer config start keys localhost with accept_plain }).Unbroken) ↔
    ∀ done event, done ++ [event] <+: events → (done.foldl (step lib)
      { started a observer config start keys localhost with accept_plain }).SoundEvent lib event :=
  foldl_always_iff ⟨rfl, nofun, nofun⟩ (fun _ h => h)
    (fun _ event h hsound => (unbroken_step_iff h event).mpr hsound)
    fun _ event h hunsound hunbroken => hunsound ((unbroken_step_iff h event).mp hunbroken)

/-- Two groups of nodes. -/
def paired : Configuration Nat 2 := { group_of a := ⟨a / 10 % 2, Nat.mod_lt _ Nat.two_pos⟩ }

/-- A node of another group asks for a file of it, and sends no list of results. -/
def asks : Library Nat Nat Unit Unit Nat :=
  { observing with
    allow_storage _ := true
    read
      | 0 => .packet (.reqk ⟨15, false, (), 0, 0⟩)
      | 1 => .packet (.crypt 15 false 2)
      | 2 => .packet (.mget ⟨15, false, 3, 15, [15], [12], 2, 1, .result []⟩)
      | _ => .null }

/-- The list of results is read, that is not there. -/
theorem foreign_request_breaks :
    ¬([(1, .datagram { token := 0, challenge := 0, secret := () } 15 0),
      (2, .datagram { token := 0, challenge := 0, secret := () } 15 1)].foldl (step asks)
        { started 0 false paired 0 [] 1 with accept_plain := false } :
          Service Nat Nat Unit Unit Nat 2).Unbroken := by
  intro h
  exact absurd h.fault (by decide +kernel)

end Service

end memo.overlay.kelips
