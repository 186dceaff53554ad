-- The history of the calls. The calls of a world are never forgotten, and a
-- reply never changes, so they say for good what the servers answered. Each
-- accept call is justified by the promises of a majority, and each confirm call
-- by the accepts of one.
import Memo.PaxosWorld
import Memo.Voting

open majority voting

namespace athena.paxos.World

variable {T Id : Type}
variable {w w' : World T Id} {Q : Finset Id}

/-! ## Calls and replies -/

/-- The call of an attempt on a peer was answered. -/
def Replied (w : World T Id) (k n : Nat) (s : Id) (r : Request T Id) (a : Answer T Id) : Prop :=
  ∃ i : Nat, w.calls[i]? = some ⟨k, n, s, r, some (.ok a)⟩

/-- The calls of `w` are calls of `w'`, with the same replies once they have one. -/
def Follows (w w' : World T Id) : Prop :=
  ∀ (i : Nat) k n s r x, w.calls[i]? = some ⟨k, n, s, r, x⟩ →
    ∃ x', w'.calls[i]? = some ⟨k, n, s, r, x'⟩ ∧ (x.isSome → x' = x)

theorem Follows.of_append {new : List (Call T Id)} (h : w'.calls = w.calls ++ new) :
    Follows w w' := by
  intro i k n s r x hi
  refine ⟨x, ?_, fun _ => rfl⟩
  have hlt : i < w.calls.length := by
    by_contra hge
    rw [List.getElem?_eq_none (not_lt.mp hge)] at hi
    cases hi
  rw [h, List.getElem?_append_left hlt]
  exact hi

theorem Follows.of_calls (h : w'.calls = w.calls) : Follows w w' :=
  Follows.of_append (by rw [h, List.append_nil])

variable {p : Proposal Id} {v : Value T Id} {call : Call T Id} {a : Answer T Id} {s : Id} {i : Nat}

theorem deliver_calls [LinearOrder Id] [Inhabited Id] {j : Nat} (hi : w.calls[i]? = some call) :
    (w.deliver i call).calls[j]? = if j = i then
      some { call with reply := some ((w.servers call.peer).handle call.request).1 }
      else w.calls[j]? := by
  have hlt : i < w.calls.length := by
    by_contra hge
    rw [List.getElem?_eq_none (not_lt.mp hge)] at hi
    cases hi
  simp only [deliver, List.getElem?_set]
  by_cases hji : i = j
  · subst hji
    simp [hlt]
  · simp [hji, Ne.symm hji]

theorem Follows.of_deliver [LinearOrder Id] [Inhabited Id] (hi : w.calls[i]? = some call)
    (hr : call.reply = none) :
    Follows w (w.deliver i call) := by
  intro j k n s r x hj
  rw [deliver_calls hi]
  by_cases hji : j = i
  · subst hji
    rw [hi] at hj
    cases hj
    simp only at hr
    subst hr
    exact ⟨_, if_pos rfl, by simp⟩
  · exact ⟨x, by rw [if_neg hji]; exact hj, fun _ => rfl⟩

theorem Replied.follows {k n : Nat} {r : Request T Id} (hf : Follows w w')
    (h : w.Replied k n s r a) : w'.Replied k n s r a := by
  obtain ⟨i, hi⟩ := h
  obtain ⟨x', hx', hsame⟩ := hf i _ _ _ _ _ hi
  rw [hsame rfl] at hx'
  exact ⟨i, hx'⟩

theorem replied_deliver [LinearOrder Id] [Inhabited Id] {k n : Nat} {r : Request T Id}
    (hi : w.calls[i]? = some call) (h : (w.deliver i call).Replied k n s r a) :
    w.Replied k n s r a ∨ call.task = k ∧ call.attempt = n ∧ call.peer = s ∧ call.request = r ∧
      ((w.servers s).handle r).1 = .ok a := by
  obtain ⟨j, hj⟩ := h
  rw [deliver_calls hi] at hj
  by_cases hji : j = i
  · rw [if_pos hji] at hj
    simp only [Option.some.injEq, Call.mk.injEq] at hj
    obtain ⟨rfl, rfl, rfl, rfl, h⟩ := hj
    exact Or.inr ⟨rfl, rfl, rfl, rfl, h⟩
  · rw [if_neg hji] at hj
    exact Or.inl ⟨j, hj⟩

theorem servers_deliver [LinearOrder Id] [Inhabited Id] (s : Id) :
    (w.deliver i call).servers s =
      if s = call.peer then ((w.servers s).handle call.request).2 else w.servers s := by
  simp only [deliver, Function.update_apply]
  by_cases hs : s = call.peer
  · subst hs
    rfl
  · rw [if_neg hs, if_neg hs]

/-- No server executes a call: new calls at most. -/
def Quiet (w w' : World T Id) : Prop :=
  w'.servers = w.servers ∧ ∃ new, w'.calls = w.calls ++ new ∧ ∀ c ∈ new, c.reply = none

theorem Quiet.of_calls (hs : w'.servers = w.servers) (hc : w'.calls = w.calls) : Quiet w w' :=
  ⟨hs, [], by rw [hc, List.append_nil], by simp⟩

theorem Quiet.of_launch {k n : Nat} {peers : List Id} {r : Request T Id}
    (hs : w'.servers = w.servers) (hc : w'.calls = w.calls ++ callsOf k n peers r) :
    Quiet w w' := by
  refine ⟨hs, _, hc, ?_⟩
  intro c hc
  obtain ⟨s, -, rfl⟩ := List.mem_map.mp hc
  rfl

theorem Quiet.replied {k n : Nat} {r : Request T Id} (hq : Quiet w w') :
    w'.Replied k n s r a ↔ w.Replied k n s r a := by
  obtain ⟨-, new, hnew, hnone⟩ := hq
  constructor
  · rintro ⟨i, hi⟩
    rw [hnew, List.getElem?_append] at hi
    by_cases hlt : i < w.calls.length
    · rw [if_pos hlt] at hi
      exact ⟨i, hi⟩
    · rw [if_neg hlt] at hi
      cases hnone _ (List.mem_of_getElem? hi)
  · exact fun h => h.follows (Follows.of_append hnew)

variable [LinearOrder Id]

theorem step_deliver_or_quiet [Inhabited Id] {a : Action T Id} (h : w.step a = some w') :
    (∃ i call, a = .deliver i ∧ w.calls[i]? = some call ∧ call.reply = none ∧
      w' = w.deliver i call) ∨ Quiet w w' := by
  cases step_cases h with
  | deliver hi hr => exact Or.inl ⟨_, _, rfl, hi, hr, rfl⟩
  | _ => exact Or.inr (by first | exact Quiet.of_calls rfl rfl | exact Quiet.of_launch rfl rfl)

theorem Follows.of_step [Inhabited Id] {a : Action T Id} (h : w.step a = some w') :
    Follows w w' := by
  rcases step_deliver_or_quiet h with ⟨i, call, -, hi, hr, rfl⟩ | ⟨-, new, hnew, -⟩
  · exact Follows.of_deliver hi hr
  · exact Follows.of_append hnew

theorem replyTo_spec {waiting : List (Id × Nat)} {reply : Except (Error Id) (Answer T Id)}
    (h : w.replyTo waiting s = some reply) :
    ∃ (i : Nat) (c : Call T Id), (s, i) ∈ waiting ∧ w.calls[i]? = some c ∧
      c.reply = some reply := by
  unfold replyTo at h
  simp only [Option.bind_eq_some_iff] at h
  obtain ⟨⟨s', i⟩, hfind, c, hc, hreply⟩ := h
  have hs : s' = s := by simpa using List.find?_some hfind
  subst hs
  exact ⟨i, c, List.mem_of_find?_eq_some hfind, hc, hreply⟩

/-! ## The parallel sections -/

omit [LinearOrder Id] in
theorem launch_pending {k n : Nat} {peers : List Id} {r : Request T Id} {task : Task T Id}
    {x : Id × Nat} (hx : x ∈ w.waitingFor peers) :
    (w.launch k n peers r task).calls[x.2]? = some ⟨k, n, x.1, r, none⟩ := by
  obtain ⟨s, i⟩ := x
  simp only [waitingFor, List.mem_zipIdx_iff_le_and_getElem?_sub] at hx
  obtain ⟨hle, hs⟩ := hx
  simp only [World.launch, callsOf]
  rw [List.getElem?_append_right hle, List.getElem?_map, hs]
  rfl

/-- A parallel section of an attempt: the pending calls, and the peers that are done with. -/
structure Section (w : World T Id) (Q : Finset Id) (k n : Nat) (r : Request T Id)
    (waiting : List (Id × Nat)) (done : List Id) : Prop where
  pending : ∀ x ∈ waiting, ∃ reply, w.calls[x.2]? = some ⟨k, n, x.1, r, reply⟩
  distinct : (done ++ waiting.map (·.1)).Nodup
  members : ∀ s ∈ done ++ waiting.map (·.1), s ∈ Q

namespace Section

variable {k n : Nat} {r : Request T Id} {waiting : List (Id × Nat)} {done : List Id}

omit [LinearOrder Id] in
theorem follows (hf : Follows w w') (h : Section w Q k n r waiting done) :
    Section w' Q k n r waiting done := by
  refine ⟨?_, h.distinct, h.members⟩
  intro x hx
  obtain ⟨reply, hr⟩ := h.pending x hx
  obtain ⟨x', hx', _⟩ := hf _ _ _ _ _ _ hr
  exact ⟨x', hx'⟩

theorem replied (h : Section w Q k n r waiting done) (hr : w.replyTo waiting s = some (.ok a)) :
    w.Replied k n s r a := by
  obtain ⟨i, c, hmem, hc, hreply⟩ := replyTo_spec hr
  obtain ⟨x, hx⟩ := h.pending _ hmem
  rw [hc] at hx
  cases hx
  simp only at hreply
  subst hreply
  exact ⟨i, hc⟩

theorem mem_of_replyTo {reply : Except (Error Id) (Answer T Id)}
    (hr : w.replyTo waiting s = some reply) : s ∈ waiting.map (·.1) := by
  obtain ⟨i, c, hmem, _⟩ := replyTo_spec hr
  exact List.mem_map.mpr ⟨_, hmem, rfl⟩

theorem map_filter_ne (waiting : List (Id × Nat)) (s : Id) :
    (waiting.filter (·.1 ≠ s)).map (·.1) = (waiting.map (·.1)).filter (· ≠ s) := by
  rw [List.filter_map]
  rfl

theorem lose (h : Section w Q k n r waiting done) (s : Id) :
    Section w Q k n r (waiting.filter (·.1 ≠ s)) done := by
  have hsub : (done ++ (waiting.filter (·.1 ≠ s)).map (·.1)).Sublist
      (done ++ waiting.map (·.1)) :=
    (List.Sublist.refl done).append (List.filter_sublist.map _)
  refine ⟨?_, h.distinct.sublist hsub, fun t ht => h.members t (hsub.subset ht)⟩
  intro x hx
  exact h.pending x (List.mem_of_mem_filter hx)

omit [LinearOrder Id] in
theorem stop (h : Section w Q k n r waiting done) : Section w Q k n r [] done := by
  refine ⟨by simp, ?_, ?_⟩
  · simpa using h.distinct.of_append_left
  · intro s hs
    exact h.members s (List.mem_append_left _ (by simpa using hs))

theorem answer (h : Section w Q k n r waiting done) (hs : s ∈ waiting.map (·.1)) :
    Section w Q k n r (waiting.filter (·.1 ≠ s)) (done ++ [s]) := by
  have hl := h.lose s
  have hnd := h.distinct
  rw [List.nodup_append] at hnd
  refine ⟨hl.pending, ?_, ?_⟩
  · have hldist := hl.distinct
    rw [List.nodup_append] at hldist ⊢
    refine ⟨?_, hldist.2.1, ?_⟩
    · rw [List.nodup_append]
      refine ⟨hnd.1, List.nodup_singleton s, ?_⟩
      intro a ha b hb
      rw [List.mem_singleton] at hb
      subst hb
      exact hnd.2.2 a ha b hs
    · intro a ha b hb
      rw [List.mem_append, List.mem_singleton] at ha
      rcases ha with ha | rfl
      · exact hldist.2.2 a ha b hb
      · rw [map_filter_ne, List.mem_filter] at hb
        have := hb.2
        simp only [ne_eq, decide_not, Bool.not_eq_eq_eq_not, Bool.not_true,
          decide_eq_false_iff_not] at this
        exact fun he => this he.symm
  · intro t ht
    rw [List.mem_append, List.mem_append, List.mem_singleton] at ht
    rcases ht with (ht | rfl) | ht
    · exact h.members t (List.mem_append_left _ ht)
    · exact h.members t (List.mem_append_right _ hs)
    · exact hl.members t (List.mem_append_right _ ht)

omit [LinearOrder Id] in
theorem launch {peers : List Id} {task : Task T Id} (hn : peers.Nodup)
    (hQ : ∀ s ∈ peers, s ∈ Q) :
    Section (w.launch k n peers r task) Q k n r (w.waitingFor peers) [] := by
  have hmap : (w.waitingFor peers).map (·.1) = peers := by
    simp [waitingFor, List.zipIdx_map_fst]
  refine ⟨?_, by simpa [hmap] using hn, by simpa [hmap] using hQ⟩
  exact fun x hx => ⟨none, launch_pending hx⟩

end Section

/-! ## What the calls stand on -/

/-- The server accepted the value under the proposal: it answered with no higher promise. -/
def Voted (w : World T Id) (Q : Finset Id) (s : Id) (p : Proposal Id) (v : Value T Id) : Prop :=
  ∃ k n m, w.Replied k n s (.accept Q p v) (.minimum m) ∧ ¬ p < m

/-- The votes of the servers, and the proposals that each one has moved past. -/
def ledger (w : World T Id) (Q : Finset Id) : Ledger Id (Proposal Id) (Value T Id) where
  voted := w.Voted Q
  closed s p := ∃ st, (w.servers s).state = some st ∧ p < st.proposal

/-- A majority accepted the value under the proposal. -/
def Chosen (w : World T Id) (Q : Finset Id) (p : Proposal Id) (v : Value T Id) : Prop :=
  Decided (w.ledger Q) Q p v

/-- A majority promised the proposal to the attempt, and none of it confirmed a value. The value
submitted is the one of the highest answer that has one. -/
def Justified (w : World T Id) (Q : Finset Id) (k n : Nat) (p : Proposal Id)
    (v : Value T Id) : Prop :=
  ∃ (responses : List (Id × Response T Id)) (replace : Option (Value T Id)) (own : Value T Id),
    Majority Q (responses.map (·.1)).toFinset ∧
    (∀ x ∈ responses, w.Replied k n x.1 (.propose Q p) (.response x.2) ∧ x.2.Grants p ∧
      x.2.choice = none) ∧
    v = (replacement replace (responses.map (·.2))).getD own

/-- The server accepted a value under the proposal, and so did a majority. -/
def Backed (w : World T Id) (Q : Finset Id) (s : Id) (p : Proposal Id) : Prop :=
  ∃ v, w.Voted Q s p v ∧ w.Chosen Q p v

theorem Voted.follows (hf : Follows w w') (h : w.Voted Q s p v) : w'.Voted Q s p v := by
  obtain ⟨k, n, m, hr, hm⟩ := h
  exact ⟨k, n, m, hr.follows hf, hm⟩

theorem Chosen.follows (hf : Follows w w') (h : w.Chosen Q p v) : w'.Chosen Q p v := by
  obtain ⟨M, hM, hv⟩ := h
  exact ⟨M, hM, fun m hm => (hv m hm).follows hf⟩

theorem Justified.follows {k n : Nat} (hf : Follows w w') (h : w.Justified Q k n p v) :
    w'.Justified Q k n p v := by
  obtain ⟨responses, replace, own, hM, hr, hv⟩ := h
  exact ⟨responses, replace, own, hM, fun x hx => ⟨(hr x hx).1.follows hf, (hr x hx).2⟩, hv⟩

theorem Backed.follows (hf : Follows w w') (h : w.Backed Q s p) : w'.Backed Q s p := by
  obtain ⟨v, hv, hc⟩ := h
  exact ⟨v, hv.follows hf, hc.follows hf⟩

/-- The servers that accepted the value under the proposal, as the calls show them. -/
def voters [DecidableEq T] (w : World T Id) (Q : Finset Id) (p : Proposal Id) (v : Value T Id) :
    List Id :=
  w.calls.filterMap fun c =>
    match c.request, c.reply with
    | .accept q p' v', some (.ok (.minimum m)) =>
      if q = Q ∧ p' = p ∧ v' = v ∧ ¬ p < m then some c.peer else none
    | _, _ => none

theorem voted_of_voters [DecidableEq T] (h : s ∈ w.voters Q p v) : w.Voted Q s p v := by
  obtain ⟨⟨k, n, s', r, x⟩, hc, hs⟩ := List.mem_filterMap.mp h
  obtain ⟨i, hi⟩ := List.getElem?_of_mem hc
  simp only at hs
  split at hs
  · split_ifs at hs with hq
    obtain ⟨rfl, rfl, rfl, hm⟩ := hq
    cases hs
    exact ⟨k, n, _, ⟨i, hi⟩, hm⟩
  · cases hs

theorem Chosen.of_voters [DecidableEq T]
    (h : (w.voters Q p v).toFinset ⊆ Q ∧ Q.card / 2 < (w.voters Q p v).toFinset.card) :
    w.Chosen Q p v :=
  ⟨_, h, fun _ hs => voted_of_voters (List.mem_toFinset.mp hs)⟩

/-! ## The invariant of the calls and of the tasks -/

/-- What a call stands on. -/
def Sent (w : World T Id) (Q : Finset Id) (k n : Nat) (s : Id) : Request T Id → Prop
  | .propose q _ => q = Q
  | .accept q p v => q = Q ∧ w.Justified Q k n p v
  | .confirm q p => q = Q ∧ w.Backed Q s p
  | .get q => q = Q

/-- The task of a call, and its attempt. A run that proposes made no other call in its attempt. -/
def Dated (Q : Finset Id) (c : Call T Id) : Task T Id → Prop
  | .choose run => c.attempt ≤ run.attempt ∧
      ∀ responses, run.phase = .proposing responses → c.attempt = run.attempt →
        c.request = .propose Q run.proposal
  | .state _ => True

/-- The answer is of the kind of the call. -/
def Answers : Request T Id → Answer T Id → Prop
  | .propose _ _, .response _ => True
  | .accept _ _ _, .minimum _ => True
  | .confirm _ _, .confirmed => True
  | .get _, .current _ => True
  | _, _ => False

theorem handle_answers [Inhabited Id] {s : Server T Id} {r : Request T Id}
    (h : (s.handle r).1 = .ok a) :
    Answers r a := by
  cases r with
  | propose q p =>
    simp only [Server.handle] at h
    cases hr : (s.propose q p).1 <;> simp only [hr, Except.map] at h <;> cases h
    trivial
  | accept q p v =>
    simp only [Server.handle] at h
    cases hr : (s.accept q p v).1 <;> simp only [hr, Except.map] at h <;> cases h
    trivial
  | confirm q p =>
    simp only [Server.handle] at h
    cases hr : (s.confirm q p).1 <;> simp only [hr, Except.map] at h <;> cases h
    trivial
  | get q =>
    simp only [Server.handle] at h
    cases hr : s.get q <;> simp only [hr, Except.map] at h <;> cases h
    trivial

/-- Where a run stands, by its phase. -/
def Stands (w : World T Id) (Q : Finset Id) (k : Nat) (run : Choose T Id) : Phase T Id → Prop
  | .proposing responses =>
    Section w Q k run.attempt (.propose Q run.proposal) run.waiting (responses.map (·.1)) ∧
    ∀ x ∈ responses, w.Replied k run.attempt x.1 (.propose Q run.proposal) (.response x.2)
  | .accepting reached =>
    Section w Q k run.attempt (.accept Q run.proposal run.submitted) run.waiting reached ∧
    w.Justified Q k run.attempt run.proposal run.submitted ∧
    (∀ s ∈ reached, w.Voted Q s run.proposal run.submitted) ∧
    ∀ s ∈ Q, s ∉ run.unavailables → s ∈ reached ∨ s ∈ run.waiting.map (·.1)
  | .confirming reached =>
    Section w Q k run.attempt (.confirm Q run.proposal) run.waiting reached ∧
    w.Chosen Q run.proposal run.submitted ∧
    ∀ s ∈ reached, w.Replied k run.attempt s (.confirm Q run.proposal) .confirmed
  | _ => True

def TaskInv (w : World T Id) (Q : Finset Id) (k : Nat) : Task T Id → Prop
  | .choose run => w.Stands Q k run run.phase
  | .state read => Section w Q k 0 (.get Q) read.waiting read.gathered.reached

/-- The clients reach the same quorum, the calls were made for a reason, and each task keeps
account of its own. -/
structure Orderly (Q : Finset Id) (w : World T Id) : Prop where
  peers : ∀ c, (w.clients c).peers.Nodup ∧ (w.clients c).peers.toFinset = Q
  dated : ∀ c ∈ w.calls, ∃ task, w.tasks c.task = some task ∧ Dated Q c task
  sent : ∀ c ∈ w.calls, w.Sent Q c.task c.attempt c.peer c.request
  one_value : ∀ c ∈ w.calls, ∀ c' ∈ w.calls, c.task = c'.task → c.attempt = c'.attempt →
    ∀ q p v q' p' v', c.request = .accept q p v → c'.request = .accept q' p' v' → v = v'
  answered : ∀ c ∈ w.calls, ∀ a, c.reply = some (.ok a) → Answers c.request a
  tasks : ∀ k task, w.tasks k = some task → w.TaskInv Q k task

theorem Sent.follows {k n : Nat} {r : Request T Id} (hf : Follows w w') (h : w.Sent Q k n s r) :
    w'.Sent Q k n s r := by
  cases r with
  | propose q p => exact h
  | accept q p v => exact ⟨h.1, h.2.follows hf⟩
  | confirm q p => exact ⟨h.1, h.2.follows hf⟩
  | get q => exact h

theorem TaskInv.follows {k : Nat} {task : Task T Id} (hf : Follows w w')
    (h : w.TaskInv Q k task) : w'.TaskInv Q k task := by
  cases task with
  | state read => exact Section.follows hf h
  | choose run =>
    simp only [TaskInv] at h ⊢
    cases hp : run.phase with
    | proposing responses =>
      rw [hp] at h
      exact ⟨h.1.follows hf, fun x hx => (h.2 x hx).follows hf⟩
    | accepting reached =>
      rw [hp] at h
      obtain ⟨h1, h2, h3, h4⟩ := h
      exact ⟨h1.follows hf, h2.follows hf, fun s hs => (h3 s hs).follows hf, h4⟩
    | confirming reached =>
      rw [hp] at h
      exact ⟨h.1.follows hf, h.2.1.follows hf, fun s hs => (h.2.2 s hs).follows hf⟩
    | conflicted => trivial
    | returned c => trivial
    | failed e => trivial

namespace Orderly

variable {run : Choose T Id} {reply : Except (Error Id) (Answer T Id)} {k : Nat}

theorem setTask (h : Orderly Q w) {task task' : Task T Id} (hk : w.tasks k = some task)
    (hinv : w.TaskInv Q k task') (hd : ∀ c : Call T Id, Dated Q c task → Dated Q c task') :
    Orderly Q (w.setTask k task') := by
  have hf : Follows w (w.setTask k task') := Follows.of_calls rfl
  refine ⟨h.peers, ?_, fun c hc => (h.sent c hc).follows hf, h.one_value, h.answered, ?_⟩
  · intro c hc
    obtain ⟨t, ht, hdt⟩ := h.dated c hc
    simp only [World.setTask, Function.update_apply]
    by_cases hck : c.task = k
    · rw [hck, hk] at ht
      cases ht
      exact ⟨task', if_pos hck, hd c hdt⟩
    · exact ⟨t, by rw [if_neg hck]; exact ht, hdt⟩
  · intro k' t ht
    simp only [World.setTask, Function.update_apply] at ht
    split_ifs at ht with hkk
    · cases ht
      subst hkk
      exact hinv.follows hf
    · exact (h.tasks k' t ht).follows hf

theorem setRound (h : Orderly Q w) (c : Nat) (round : Int) : Orderly Q (w.setRound c round) := by
  have hf : Follows w (w.setRound c round) := Follows.of_calls rfl
  refine ⟨?_, h.dated, fun c hc => (h.sent c hc).follows hf, h.one_value, h.answered,
    fun k t ht => (h.tasks k t ht).follows hf⟩
  intro c'
  simp only [World.setRound, Function.update_apply]
  split_ifs with hc
  · exact hc ▸ h.peers c'
  · exact h.peers c'

theorem deliver [Inhabited Id] (h : Orderly Q w) (hi : w.calls[i]? = some call)
    (hr : call.reply = none) :
    Orderly Q (w.deliver i call) := by
  have hf := Follows.of_deliver hi hr
  -- the calls are the same but for a reply
  have hmem : ∀ c ∈ (w.deliver i call).calls, ∃ c₀ ∈ w.calls, c.task = c₀.task ∧
      c.attempt = c₀.attempt ∧ c.peer = c₀.peer ∧ c.request = c₀.request := by
    intro c hc
    rcases List.mem_or_eq_of_mem_set hc with hc | rfl
    · exact ⟨c, hc, rfl, rfl, rfl, rfl⟩
    · exact ⟨call, List.mem_of_getElem? hi, rfl, rfl, rfl, rfl⟩
  refine ⟨h.peers, ?_, ?_, ?_, ?_, fun k t ht => (h.tasks k t ht).follows hf⟩
  · intro c hc
    obtain ⟨c₀, hc₀, h1, h2, -, h4⟩ := hmem c hc
    obtain ⟨t, ht, hdt⟩ := h.dated c₀ hc₀
    refine ⟨t, by rw [h1]; exact ht, ?_⟩
    cases t with
    | choose run => simpa only [Dated, h2, h4] using hdt
    | state read => trivial
  · intro c hc
    obtain ⟨c₀, hc₀, h1, h2, h3, h4⟩ := hmem c hc
    rw [h1, h2, h3, h4]
    exact (h.sent c₀ hc₀).follows hf
  · intro c hc c' hc' hk hn q p v q' p' v' hv hv'
    obtain ⟨c₀, hc₀, h1, h2, -, h4⟩ := hmem c hc
    obtain ⟨c₁, hc₁, h1', h2', -, h4'⟩ := hmem c' hc'
    exact h.one_value c₀ hc₀ c₁ hc₁ (by rw [← h1, ← h1', hk]) (by rw [← h2, ← h2', hn])
      q p v q' p' v' (h4 ▸ hv) (h4' ▸ hv')
  · intro c hc a ha
    rcases List.mem_or_eq_of_mem_set hc with hc | rfl
    · exact h.answered c hc a ha
    · simp only [Option.some.injEq] at ha
      exact handle_answers ha

theorem launch (h : Orderly Q w) {n : Nat} {peers : List Id} {r : Request T Id} {task : Task T Id}
    (hs : ∀ s ∈ peers, w.Sent Q k n s r) (hnew : ∀ s : Id, Dated Q ⟨k, n, s, r, none⟩ task)
    (hold : ∀ c ∈ w.calls, c.task = k → Dated Q c task)
    (hfirst : ∀ c ∈ w.calls, c.task = k → c.attempt = n → ∀ q p v q' p' v',
      c.request = .accept q p v → r ≠ .accept q' p' v')
    (hinv : (w.launch k n peers r task).TaskInv Q k task) :
    Orderly Q (w.launch k n peers r task) := by
  have hf : Follows w (w.launch k n peers r task) := Follows.of_append rfl
  have hmem : ∀ c ∈ (w.launch k n peers r task).calls,
      c ∈ w.calls ∨ ∃ s ∈ peers, c = ⟨k, n, s, r, none⟩ := by
    intro c hc
    rcases List.mem_append.mp hc with hc | hc
    · exact Or.inl hc
    · obtain ⟨s, hs, rfl⟩ := List.mem_map.mp hc
      exact Or.inr ⟨s, hs, rfl⟩
  refine ⟨h.peers, ?_, ?_, ?_, ?_, ?_⟩
  · intro c hc
    simp only [World.launch, World.setTask, Function.update_apply]
    rcases hmem c hc with hc | ⟨s, -, rfl⟩
    · obtain ⟨t, ht, hdt⟩ := h.dated c hc
      by_cases hck : c.task = k
      · exact ⟨task, if_pos hck, hold c hc hck⟩
      · exact ⟨t, by rw [if_neg hck]; exact ht, hdt⟩
    · exact ⟨task, if_pos rfl, hnew s⟩
  · intro c hc
    rcases hmem c hc with hc | ⟨s, hs', rfl⟩
    · exact (h.sent c hc).follows hf
    · exact (hs s hs').follows hf
  · intro c hc c' hc' hk hn q p v q' p' v' hv hv'
    rcases hmem c hc with hc | ⟨s, -, rfl⟩
    · rcases hmem c' hc' with hc' | ⟨s', -, rfl⟩
      · exact h.one_value c hc c' hc' hk hn q p v q' p' v' hv hv'
      · exact absurd hv' (hfirst c hc hk hn q p v q' p' v' hv)
    · rcases hmem c' hc' with hc' | ⟨s', -, rfl⟩
      · exact absurd hv (hfirst c' hc' hk.symm hn.symm q' p' v' q p v hv')
      · simp only at hv hv'
        rw [hv] at hv'
        cases hv'
        rfl
  · intro c hc a ha
    rcases hmem c hc with hc | ⟨s, -, rfl⟩
    · exact h.answered c hc a ha
    · cases ha
  · intro k' t ht
    simp only [World.launch, World.setTask, Function.update_apply] at ht
    split_ifs at ht with hkk
    · cases ht
      exact hkk ▸ hinv
    · exact (h.tasks k' t ht).follows hf

/-! ## The steps of the tasks -/

theorem peers_mem (h : Orderly Q w) (c : Nat) : s ∈ (w.clients c).peers ↔ s ∈ Q := by
  rw [← (h.peers c).2, List.mem_toFinset]

theorem quorumOf_eq (h : Orderly Q w) (c : Nat) : w.quorumOf c = Q := (h.peers c).2

/-- The calls of task `k` are of the attempts of the run so far. -/
def Before (w : World T Id) (k : Nat) (run : Choose T Id) : Prop :=
  ∀ c ∈ w.calls, c.task = k → c.attempt ≤ run.attempt

theorem before (h : Orderly Q w) (hk : w.tasks k = some (.choose run)) : Before w k run := by
  intro c hc hck
  obtain ⟨t, ht, hdt⟩ := h.dated c hc
  rw [hck, hk] at ht
  cases ht
  exact hdt.1

theorem attempt (h : Orderly Q w) (hb : Before w k run) :
    Orderly Q (w.attempt k run) := by
  have hpeers := (h.setRound run.client ((w.clients run.client).round + 1)).peers
  apply (h.setRound run.client _).launch
  · exact fun s _ => h.quorumOf_eq run.client
  · intro s
    refine ⟨le_rfl, fun _ _ _ => ?_⟩
    rw [h.quorumOf_eq]
  · intro c hc hck
    have := hb c hc hck
    exact ⟨by simp only; omega, fun _ _ he => by simp only at he; omega⟩
  · intro c hc hck hn
    have := hb c hc hck
    omega
  · rw [h.quorumOf_eq]
    refine ⟨?_, by simp⟩
    exact Section.launch (w := w.setRound _ _) (h.peers run.client).1
      fun s hs => (h.peers_mem _).mp hs

theorem available_nodup (h : Orderly Q w) (run : Choose T Id) : (w.available run).Nodup :=
  (h.peers run.client).1.filter _

theorem mem_available (h : Orderly Q w) :
    s ∈ w.available run ↔ s ∈ Q ∧ s ∉ run.unavailables := by
  simp [World.available, h.peers_mem run.client]

theorem justified (h : Orderly Q w) {responses : List (Id × Response T Id)}
    {replace : Option (Value T Id)} (hk : w.tasks k = some (.choose run)) (hw : run.waiting = [])
    (hp : run.phase = .proposing responses)
    (hv : weigh (w.quorumOf run.client) run.proposal run.replace run.weak_error
      (responses.map (·.2)) = .accept replace) :
    w.Justified Q k run.attempt run.proposal (Choose.submitted { run with replace }) := by
  have hinv := h.tasks k _ hk
  simp only [TaskInv, hp, Stands, hw] at hinv
  obtain ⟨hsec, hrep⟩ := hinv
  obtain ⟨hnone, hcount, hgrants, hreplace⟩ := weigh_accept hv
  rw [h.quorumOf_eq, List.length_map] at hcount
  refine ⟨responses, run.replace, run.value, ?_, ?_, ?_⟩
  · refine Majority.of_list ?_ ?_ (by simpa using hcount)
    · simpa using hsec.distinct
    · simpa using hsec.members
  · intro x hx
    have hmem : x.2 ∈ responses.map (·.2) := List.mem_map.mpr ⟨x, hx, rfl⟩
    exact ⟨hrep x hx, hgrants _ hmem, hnone _ hmem⟩
  · rw [← hreplace]
    rfl

theorem accept (h : Orderly Q w) {responses : List (Id × Response T Id)}
    {replace : Option (Value T Id)} (hk : w.tasks k = some (.choose run)) (hw : run.waiting = [])
    (hp : run.phase = .proposing responses)
    (hv : weigh (w.quorumOf run.client) run.proposal run.replace run.weak_error
      (responses.map (·.2)) = .accept replace) :
    Orderly Q (w.accept k { run with replace }) := by
  have hj := h.justified hk hw hp hv
  have hb := h.before hk
  apply h.launch
  · exact fun s _ => ⟨h.quorumOf_eq run.client, hj⟩
  · exact fun s => ⟨le_rfl, fun _ hphase => by cases hphase⟩
  · exact fun c hc hck => ⟨hb c hc hck, fun _ hphase => by cases hphase⟩
  · -- the attempt only made proposals so far
    intro c hc hck hn q p v q' p' v' ha
    obtain ⟨t, ht, hdt⟩ := h.dated c hc
    rw [hck, hk] at ht
    cases ht
    rw [hdt.2 responses hp hn] at ha
    cases ha
  · have hf : Follows w (w.accept k { run with replace }) := Follows.of_append rfl
    rw [h.quorumOf_eq]
    refine ⟨?_, ?_, by simp, ?_⟩
    · exact Section.launch (h.available_nodup _) fun s hs => (h.mem_available.mp hs).1
    · rw [World.accept, h.quorumOf_eq] at hf
      exact hj.follows hf
    · intro s hs hu
      right
      simp only [waitingFor, List.zipIdx_map_fst]
      exact h.mem_available.mpr ⟨hs, hu⟩

theorem confirm (h : Orderly Q w) {reached : List Id} (hk : w.tasks k = some (.choose run))
    (hw : run.waiting = []) (hp : run.phase = .accepting reached)
    (hc : (w.quorumOf run.client).card / 2 < reached.length) :
    Orderly Q (w.confirm k run) := by
  have hinv := h.tasks k _ hk
  have hb := h.before hk
  simp only [TaskInv, hp, Stands, hw] at hinv
  obtain ⟨hsec, -, hvoted, hall⟩ := hinv
  rw [h.quorumOf_eq] at hc
  have hchosen : w.Chosen Q run.proposal run.submitted := by
    refine ⟨reached.toFinset, Majority.of_list ?_ ?_ hc, ?_⟩
    · simpa using hsec.distinct
    · simpa using hsec.members
    · exact fun m hm => hvoted m (List.mem_toFinset.mp hm)
  apply h.launch
  · -- each peer that is not unavailable has accepted
    intro s hs
    obtain ⟨hsQ, hu⟩ := h.mem_available.mp hs
    have hr : s ∈ reached := by simpa using hall s hsQ hu
    exact ⟨h.quorumOf_eq run.client, run.submitted, hvoted s hr, hchosen⟩
  · exact fun s => ⟨le_rfl, fun _ hphase => by cases hphase⟩
  · exact fun c hc hck => ⟨hb c hc hck, fun _ hphase => by cases hphase⟩
  · exact fun c _ _ _ q p v q' p' v' _ hr => by cases hr
  · have hf : Follows w (w.confirm k run) := Follows.of_append rfl
    rw [h.quorumOf_eq]
    refine ⟨?_, ?_, by simp⟩
    · exact Section.launch (h.available_nodup _) fun s hs => (h.mem_available.mp hs).1
    · rw [World.confirm, h.quorumOf_eq] at hf
      exact hchosen.follows hf

theorem read (h : Orderly Q w) {c : Nat} (hk : w.tasks k = none) : Orderly Q (w.read k c) := by
  have hnone : ∀ call ∈ w.calls, call.task ≠ k := by
    intro call hc hck
    obtain ⟨t, ht, -⟩ := h.dated call hc
    rw [hck, hk] at ht
    cases ht
  apply h.launch
  · exact fun s _ => h.quorumOf_eq c
  · exact fun s => trivial
  · exact fun call hc hck => absurd hck (hnone call hc)
  · exact fun call hc hck => absurd hck (hnone call hc)
  · rw [h.quorumOf_eq]
    exact Section.launch (h.peers c).1 fun s hs => (h.peers_mem _).mp hs

theorem answers (h : Orderly Q w) {n : Nat} {r : Request T Id} (hr : w.Replied k n s r a) :
    Answers r a := by
  obtain ⟨i, hi⟩ := hr
  exact h.answered _ (List.mem_of_getElem? hi) a rfl

theorem stands_receive (h : Orderly Q w) (round : Int) (hinv : w.Stands Q k run run.phase)
    (hr : w.replyTo run.waiting s = some reply) :
    w.Stands Q k (run.receive round s reply).1 (run.receive round s reply).1.phase := by
  have hs := Section.mem_of_replyTo hr
  cases reply with
  | error e => trivial
  | ok answer =>
    cases hp : run.phase with
    | proposing responses =>
      rw [hp] at hinv
      obtain ⟨hsec, hrep⟩ := hinv
      cases answer with
      | response r =>
        simp only [Choose.receive, hp]
        refine ⟨?_, ?_⟩
        · rw [List.map_append]
          exact hsec.answer hs
        · intro x hx
          rcases List.mem_append.mp hx with hx | hx
          · exact hrep x hx
          · rw [List.mem_singleton.mp hx]
            exact hsec.replied hr
      | _ =>
        simp only [Choose.receive, hp, Choose.without]
        exact ⟨hsec.lose s, hrep⟩
    | accepting reached =>
      rw [hp] at hinv
      obtain ⟨hsec, hj, hvoted, hall⟩ := hinv
      cases answer with
      | minimum m =>
        by_cases hlt : run.proposal < m
        · simp only [Choose.receive, hp, if_pos hlt]
          trivial
        · simp only [Choose.receive, hp, if_neg hlt]
          refine ⟨hsec.answer hs, hj, ?_, ?_⟩
          · intro t ht
            rcases List.mem_append.mp ht with ht | ht
            · exact hvoted t ht
            · rw [List.mem_singleton.mp ht]
              exact ⟨k, run.attempt, m, hsec.replied hr, hlt⟩
          · intro t htQ hu
            rcases hall t htQ hu with ht | ht
            · exact Or.inl (List.mem_append_left _ ht)
            · by_cases hts : t = s
              · exact Or.inl (List.mem_append_right _ (List.mem_singleton.mpr hts))
              · right
                simp only [Choose.without, Section.map_filter_ne]
                exact List.mem_filter.mpr ⟨ht, by simpa using hts⟩
      | _ => exact absurd (h.answers (hsec.replied hr)) (by simp [Answers])
    | confirming reached =>
      rw [hp] at hinv
      obtain ⟨hsec, hchosen, hrep⟩ := hinv
      cases answer with
      | confirmed =>
        simp only [Choose.receive, hp]
        refine ⟨hsec.answer hs, hchosen, ?_⟩
        intro t ht
        rcases List.mem_append.mp ht with ht | ht
        · exact hrep t ht
        · rw [List.mem_singleton.mp ht]
          exact hsec.replied hr
      | _ =>
        simp only [Choose.receive, hp, Choose.without]
        exact ⟨hsec.lose s, hchosen, hrep⟩
    | conflicted | returned c | failed e =>
      simp only [Choose.receive, hp, Choose.without]
      trivial

theorem dated_receive {round : Int} {c : Call T Id} (h : Dated Q c (.choose run)) :
    Dated Q c (.choose (run.receive round s reply).1) := by
  unfold Choose.receive
  split
  · exact ⟨h.1, fun _ hp => by cases hp⟩
  · split
    · rename_i responses r hp
      exact ⟨h.1, fun _ _ => h.2 responses hp⟩
    · split
      · exact ⟨h.1, fun _ hp => by cases hp⟩
      · exact ⟨h.1, fun _ hp => by cases hp⟩
    · exact ⟨h.1, fun _ hp => by cases hp⟩
    · exact h

theorem stands_unavailable (s : Id) (hinv : w.Stands Q k run run.phase) :
    w.Stands Q k (run.unavailable s) (run.unavailable s).phase := by
  have hphase : (run.unavailable s).phase = run.phase := rfl
  rw [hphase]
  cases hp : run.phase with
  | proposing responses =>
    rw [hp] at hinv
    exact ⟨hinv.1.lose s, hinv.2⟩
  | accepting reached =>
    rw [hp] at hinv
    obtain ⟨hsec, hj, hvoted, hall⟩ := hinv
    refine ⟨hsec.lose s, hj, hvoted, ?_⟩
    intro t htQ hu
    simp only [Choose.unavailable, List.mem_cons, not_or] at hu
    rcases hall t htQ hu.2 with ht | ht
    · exact Or.inl ht
    · right
      simp only [Choose.unavailable, Choose.without, Section.map_filter_ne]
      exact List.mem_filter.mpr ⟨ht, by simpa using hu.1⟩
  | confirming reached =>
    rw [hp] at hinv
    exact ⟨hinv.1.lose s, hinv.2⟩
  | conflicted => trivial
  | returned c => trivial
  | failed e => trivial

theorem stands_weakened (s : Id) (e : Error Id) (hinv : w.Stands Q k run run.phase) :
    w.Stands Q k (run.weakened s e) (run.weakened s e).phase := by
  have hu := stands_unavailable s hinv
  cases hp : (run.weakened s e).phase with
  | proposing responses => exact (hp ▸ hu : w.Stands Q k (run.unavailable s) (.proposing responses))
  | accepting reached => exact (hp ▸ hu : w.Stands Q k (run.unavailable s) (.accepting reached))
  | confirming reached => exact (hp ▸ hu : w.Stands Q k (run.unavailable s) (.confirming reached))
  | conflicted => trivial
  | returned c => trivial
  | failed e => trivial

theorem answered_reached {g g' : Gathered T Id} {a : Except (Error Id) (Option (Accepted T Id))}
    (h : g.answered s a = .ok g') :
    g'.reached = g.reached ++ [s] := by
  unfold Gathered.answered at h
  split at h <;> cases h <;> rfl

theorem section_receive {read : Read T Id}
    (hinv : Section w Q k 0 (.get Q) read.waiting read.gathered.reached)
    (hr : w.replyTo read.waiting s = some reply) :
    Section w Q k 0 (.get Q) (read.receive s reply).waiting
      (read.receive s reply).gathered.reached := by
  have hs := Section.mem_of_replyTo hr
  unfold Read.receive
  split
  · split
    · rename_i hg
      simp only [answered_reached hg]
      exact hinv.answer hs
    · exact hinv.stop
  · exact hinv.lose s
  · split
    · rename_i hg
      simp only [answered_reached hg]
      exact hinv.answer hs
    · exact hinv.stop

theorem setPhase (h : Orderly Q w) {phase : Phase T Id} (hk : w.tasks k = some (.choose run))
    (hs : w.Stands Q k { run with phase } phase) (hp : ∀ responses, phase ≠ .proposing responses) :
    Orderly Q (w.setPhase k run phase) :=
  h.setTask hk hs fun _ hd => ⟨hd.1, fun responses he => absurd he (hp responses)⟩

theorem step [Inhabited Id] {a : Action T Id} (h : Orderly Q w) (hs : w.step a = some w') :
    Orderly Q w' := by
  cases step_cases hs with
  | choose hk =>
    apply h.attempt
    intro c hc hck
    obtain ⟨t, ht, -⟩ := h.dated c hc
    rw [hck, hk] at ht
    cases ht
  | state hk => exact h.read hk
  | deliver hi hr => exact h.deliver hi hr
  | @receive k s run reply hk hr =>
    have hinv : w.TaskInv Q k (.choose (run.receive (w.clients run.client).round s reply).1) :=
      h.stands_receive _ (h.tasks _ _ hk) hr
    exact (h.setRound _ _).setTask hk (TaskInv.follows (w := w) (Follows.of_calls rfl) hinv)
      fun c hd => dated_receive hd
  | unavailable hk hm =>
    exact h.setTask hk (stands_unavailable _ (h.tasks _ _ hk)) fun c hd => hd
  | weak_error hk hm =>
    exact h.setTask hk (stands_weakened _ _ (h.tasks _ _ hk)) fun c hd => hd
  | chosen hk hw hp hv => exact h.setPhase hk trivial (by simp)
  | failed hk hw => exact h.setPhase hk trivial (by simp)
  | retry hk hw hp hv =>
    have hb := h.before hk
    exact (h.setRound _ _).attempt hb
  | accept hk hw hp hv => exact h.accept hk hw hp hv
  | resume hk hw hp => exact h.attempt (h.before hk)
  | confirm hk hw hp hc => exact h.confirm hk hw hp hc
  | returned hk hw hp hc => exact h.setPhase hk trivial (by simp)
  | read_receive hk hr =>
    exact h.setTask hk (section_receive (h.tasks _ _ hk) hr) fun c hd => hd
  | read_unavailable hk hm | read_weak_error hk hm =>
    exact h.setTask hk (Section.lose (h.tasks _ _ hk) _) fun c hd => hd
  | read_finish hk hw ho =>
    have hinv := h.tasks _ _ hk
    exact h.setTask hk hinv fun c hd => hd

end Orderly

/-- The world before any call: new servers, and clients whose peers are the quorum. -/
structure Initial (Q : Finset Id) (w : World T Id) : Prop where
  servers : ∀ s, ∃ value version, w.servers s = Server.new s Q value version
  peers : ∀ c, (w.clients c).peers.Nodup ∧ (w.clients c).peers.toFinset = Q
  tasks : ∀ k, w.tasks k = none
  calls : w.calls = []

theorem Initial.orderly (h : Initial Q w) : Orderly Q w := by
  refine ⟨h.peers, ?_, ?_, ?_, ?_, ?_⟩
  · simp [h.calls]
  · simp [h.calls]
  · simp [h.calls]
  · simp [h.calls]
  · simp [h.tasks]

/-- Three new servers, and clients with the given ids. -/
def three (ids : Nat → Nat) : World Nat Nat where
  servers s := Server.new s {1, 2, 3} none ⟨0, 4, 0⟩
  clients c := ⟨ids c, [1, 2, 3], 0⟩
  tasks _ := none
  calls := []

theorem initial_three (ids : Nat → Nat) : Initial {1, 2, 3} (three ids) where
  servers s := ⟨none, ⟨0, 4, 0⟩, rfl⟩
  peers _ := ⟨(by decide : [1, 2, 3].Nodup), (by decide : [1, 2, 3].toFinset = {1, 2, 3})⟩
  tasks _ := rfl
  calls := rfl

end athena.paxos.World
