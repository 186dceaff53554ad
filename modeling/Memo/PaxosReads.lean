-- Reading what was decided. A read takes the newest value of a read quorum,
-- which meets the majority that confirmed a decision. It returns what was
-- decided while it reaches no server that missed versions, and while a
-- `choose` that returns at once does so on a value that a majority serves.
import Memo.PaxosOnce
import Memo.PaxosServed

open majority voting runs

namespace athena.paxos

variable {T Id : Type} [LinearOrder Id]

/-! ## The newest of the answers -/

namespace Gathered

/-- The newest value of a list of answers, as `state` finds it. -/
def newestOf (l : List (Option (Accepted T Id))) : Option (Accepted T Id) :=
  l.foldl (fun res a => match a with
    | none => res
    | some a => newest res a) none

theorem newestOf_append (l : List (Option (Accepted T Id))) (a : Option (Accepted T Id)) :
    newestOf (l ++ [a]) = match a with
      | none => newestOf l
      | some a => newest (newestOf l) a := by
  simp [newestOf, List.foldl_append]

theorem newestOf_spec (l : List (Option (Accepted T Id))) :
    (∀ a, newestOf l = some a → some a ∈ l) ∧
      ∀ b, some b ∈ l → ∃ a, newestOf l = some a ∧ b.proposal ≤ a.proposal := by
  induction l using List.reverseRecOn with
  | nil => simp [newestOf]
  | append_singleton l x ih =>
    obtain ⟨hmem, hmax⟩ := ih
    rw [newestOf_append]
    cases x with
    | none =>
      refine ⟨fun a ha => List.mem_append_left _ (hmem a ha), fun b hb => hmax b ?_⟩
      simpa using hb
    | some c =>
      cases hres : newestOf l with
      | none =>
        simp only [newest]
        refine ⟨by simp, ?_⟩
        intro b hb
        rw [List.mem_append, List.mem_singleton] at hb
        rcases hb with hb | hb
        · obtain ⟨a, ha, -⟩ := hmax b hb
          simp [hres] at ha
        · cases hb
          exact ⟨c, rfl, le_rfl⟩
      | some r =>
        simp only [newest]
        have hold : ∀ b, some b ∈ l → b.proposal ≤ r.proposal := by
          intro b hb
          obtain ⟨a, ha, hle⟩ := hmax b hb
          rw [hres] at ha
          cases ha
          exact hle
        by_cases hlt : r.proposal < c.proposal
        · rw [if_pos hlt]
          refine ⟨by simp, ?_⟩
          intro b hb
          rw [List.mem_append, List.mem_singleton] at hb
          rcases hb with hb | hb
          · exact ⟨c, rfl, (hold b hb).trans hlt.le⟩
          · cases hb
            exact ⟨c, rfl, le_rfl⟩
        · rw [if_neg hlt]
          refine ⟨?_, ?_⟩
          · rintro a ⟨⟩
            exact List.mem_append_left _ (hmem r hres)
          · intro b hb
            rw [List.mem_append, List.mem_singleton] at hb
            rcases hb with hb | hb
            · exact ⟨r, rfl, hold b hb⟩
            · cases hb
              exact ⟨r, rfl, not_lt.mp hlt⟩

theorem newestOf_perm {l l' : List (Option (Accepted T Id))} (hp : l'.Perm l)
    (htie : ∀ a b, some a ∈ l → some b ∈ l → a.proposal = b.proposal → a = b) :
    newestOf l' = newestOf l := by
  obtain ⟨hmem, hmax⟩ := newestOf_spec l
  obtain ⟨hmem', hmax'⟩ := newestOf_spec l'
  cases hres : newestOf l with
  | none =>
    cases hres' : newestOf l' with
    | none => rfl
    | some a' =>
      obtain ⟨a, ha, -⟩ := hmax a' (hp.mem_iff.mp (hmem' a' hres'))
      simp [hres] at ha
  | some a =>
    have hal := hmem a hres
    obtain ⟨a', ha', hle⟩ := hmax' a (hp.mem_iff.mpr hal)
    have hal' := hp.mem_iff.mp (hmem' a' ha')
    obtain ⟨a₂, ha₂, hle'⟩ := hmax a' hal'
    rw [hres] at ha₂
    cases ha₂
    rw [ha', htie a' a hal' hal (le_antisymm hle' hle)]

/-- What `state` gathers from a list of answers. -/
def gather (answers : List (Id × Option (Accepted T Id))) : Gathered T Id :=
  ⟨answers.map (·.1), newestOf (answers.map (·.2)), none, none⟩

end Gathered

namespace World

variable {w w' : World T Id} {Q : Finset Id}

/-! ## The condition on the steps -/

/-- The run returns at once only with a version that a majority serves. -/
def returnsServed [Inhabited Id] (w : World T Id) (run : Choose T Id) : Bool :=
  let q := w.quorumOf run.client
  match run.phase with
  | .proposing responses =>
    match weigh q run.proposal run.replace run.weak_error (responses.map (·.2)) with
    | .chosen choice =>
      decide (q.card / 2 < (q.filter fun s => (w.servers s).serves choice.proposal.version).card)
    | _ => true
  | _ => true

/-- A value of the user, not a quorum. -/
def isValue : Value T Id → Bool
  | .value _ => true
  | .quorum _ => false

/-- The condition on a step: the answers bear the right label, a read reaches no server that
missed versions, a `choose` that returns at once returns what a majority serves, and no quorum is
submitted. -/
def SoundReads [Inhabited Id] (w : World T Id) (a : Action T Id) : Prop :=
  TrueLabels w a ∧ match a with
    | .choose _ _ _ value => isValue value = true
    | .deliver i => ∀ call ∈ w.calls[i]?, call.request.proposal = none →
        (w.servers call.peer).partial_state = false ∧ ⟨0, 1, 0⟩ ≤ (w.servers call.peer).version
    | .advance k => ofChoose w.returnsServed (w.tasks k) = true
    | _ => True

instance [Inhabited Id] (w : World T Id) (a : Action T Id) : Decidable (SoundReads w a) :=
  match a with
  | .choose _ _ _ value => inferInstanceAs (Decidable (_ ∧ isValue value = true))
  | .deliver i => inferInstanceAs (Decidable (_ ∧ ∀ call ∈ w.calls[i]?,
      call.request.proposal = none → (w.servers call.peer).partial_state = false ∧
        ⟨0, 1, 0⟩ ≤ (w.servers call.peer).version))
  | .advance k => inferInstanceAs (Decidable (_ ∧ ofChoose w.returnsServed (w.tasks k) = true))
  | .state _ _ => inferInstanceAs (Decidable (_ ∧ True))
  | .receive _ _ => inferInstanceAs (Decidable (_ ∧ True))
  | .unavailable _ _ => inferInstanceAs (Decidable (_ ∧ True))
  | .weak_error _ _ _ => inferInstanceAs (Decidable (_ ∧ True))

/-! ## Values only -/

/-- No quorum is asked for, reported, or found by a run. -/
structure Values (Q : Finset Id) (w : World T Id) : Prop where
  asked : ∀ k p v, w.Asked k p v → isValue v = true
  answers : ∀ k n s p r, w.Replied k n s (.propose Q p) (.response r) →
    ∀ u, r.value = some u → isValue u = true
  runs : ∀ k run, w.tasks k = some (.choose run) →
    isValue run.value = true ∧ ∀ v, run.replace = some v → isValue v = true

omit [LinearOrder Id] in
theorem isValue_iff {v : Value T Id} : isValue v = true ↔ ∃ t, v = .value t := by
  cases v <;> simp [isValue]

variable {a : Action T Id} {read : Read T Id} {k : Nat}

theorem Values.replacement (h : Values Q w) (ho : Orderly Q w) {run : Choose T Id}
    {responses : List (Id × Response T Id)} (hk : w.tasks k = some (.choose run))
    (hp : run.phase = .proposing responses) {v : Value T Id}
    (hv : paxos.replacement run.replace (responses.map (·.2)) = some v) : isValue v = true := by
  rcases replacement_mem hv with hv | ⟨r, hr, hv⟩
  · exact (h.runs k run hk).2 v hv
  · obtain ⟨x, hx, rfl⟩ := List.mem_map.mp hr
    have hinv := ho.tasks k _ hk
    simp only [TaskInv, hp] at hinv
    exact h.answers _ _ _ _ _ (hinv.2 x hx) v hv

theorem reported_value {sv sv' : Server T Id} {p : Proposal Id} {r : Response T Id}
    {u : Value T Id} (hp : Server.Proposed sv p (.ok r) sv') (hu : r.value = some u) :
    ∃ sp a, sv.state = some ⟨sp, some a⟩ ∧ a.value = u := by
  cases hp with
  | newer hs hv =>
    cases hu
    exact ⟨_, _, hs, rfl⟩
  | first hs => cases hu
  | next hs hv hc => cases hu
  | skip hs hv hpart hc => cases hu
  | @raise st hs hlt hv | @refused st hs hle =>
    obtain ⟨sp, _ | a⟩ := st
    · cases hu
    · cases hu
      exact ⟨sp, a, hs, rfl⟩

variable [Inhabited Id]

theorem Values.runs_step (h : Values Q w) (ho : Orderly Q w) (hok : SoundReads w a)
    (hs : Stepped w a w') {run' : Choose T Id} (hk : w'.tasks k = some (.choose run')) :
    isValue run'.value = true ∧ ∀ v, run'.replace = some v → isValue v = true := by
  rcases run_cases hs hk with ⟨run, hk', hr⟩ | ⟨-, c, version, value, proposal, -, rfl, -, rfl⟩
  · obtain ⟨hvalue, hreplace⟩ := h.runs k run hk'
    cases hr with
    | receive hr =>
      obtain ⟨hsame, hsame'⟩ := Choose.receive_keeps run _ _ _
      exact ⟨hsame ▸ hvalue, fun v hv => hreplace v (hsame' ▸ hv)⟩
    | retry hp hv hver =>
      obtain ⟨hrepl, -⟩ := weigh_retry hv
      exact ⟨hvalue, fun v hv => h.replacement ho hk' hp (hrepl ▸ hv)⟩
    | accept hp hv =>
      obtain ⟨-, -, -, hrepl⟩ := weigh_accept hv
      exact ⟨hvalue, fun v hv => h.replacement ho hk' hp (hrepl ▸ hv)⟩
    | _ => exact ⟨hvalue, hreplace⟩
  · exact ⟨hok.2, by simp [renewed, Choose.start]⟩

theorem Values.step (h : Values Q w) (ho : Orderly Q w) (hplain : ∀ s, (w.servers s).Plain)
    (hok : SoundReads w a) (hs : w.step a = some w') : Values Q w' := by
  have hc := step_cases hs
  refine ⟨?_, ?_, fun k run hk => h.runs_step ho hok hc hk⟩
  · intro k p v ha
    rcases asked_step hc ha with ha | ⟨run, responses, replace, -, hk, hp, hv, -, rfl, -⟩
    · exact h.asked k p v ha
    · obtain ⟨-, -, -, hrepl⟩ := weigh_accept hv
      cases hr : replace with
      | none => exact (h.runs k run hk).1
      | some u => exact h.replacement ho hk hp (by rw [← hrepl, hr]; rfl)
  · intro k n s p r hr u hu
    rcases step_deliver_or_quiet hs with ⟨i, call, rfl, hi, -, rfl⟩ | hq
    · rcases replied_deliver hi hr with hr | ⟨-, -, -, -, hres⟩
      · exact h.answers k n s p r hr u hu
      · obtain ⟨sp, a, hst, rfl⟩ := reported_value (Server.propose_answer hres) hu
        exact isValue_iff.mpr (hplain s sp a hst)
    · exact h.answers k n s p r (hq.replied.mp hr) u hu

/-! ## The servers after a step -/

theorem Safe.serving_deliver (h : Safe Q w) (hv : Values Q w)
    (hserv : ∀ s, Serving w Q s (w.servers s)) {i : Nat} {call : Call T Id}
    (hi : w.calls[i]? = some call) (hr : call.reply = none) (s : Id) :
    Serving (w.deliver i call) Q s ((w.deliver i call).servers s) ∧
      ∀ n, (w.servers s).serves n = true → ((w.deliver i call).servers s).serves n = true := by
  have hf := Follows.of_deliver hi hr
  have hmem := List.mem_of_getElem? hi
  rw [servers_deliver]
  by_cases hs : s = call.peer
  · rw [if_pos hs]
    subst hs
    have hsent := h.orderly.sent call hmem
    have hrec := h.records call.peer
    have hold := hserv call.peer
    cases hreq : call.request with
    | propose q p =>
      have hcases := Server.propose_cases (w.servers call.peer) q p
      exact ⟨(hold.propose hrec hcases).follows hf (voted_of_not_accept hi (by simp [hreq])),
        fun n hn => hold.serves_propose hrec hcases hn⟩
    | confirm q p =>
      simp only [hreq, Sent] at hsent
      have hcases := Server.confirm_cases (w.servers call.peer) q p
      have hnew := hold.confirm hsent.1 hcases
      exact ⟨hnew.follows hf (voted_of_not_accept hi (by simp [hreq])), fun n hn =>
        hold.serves_confirm hnew hrec (hrec.confirm h.sound hsent.2 hcases) hcases hn⟩
    | get q => exact ⟨hold.follows hf (voted_of_not_accept hi (by simp [hreq])), fun n hn => hn⟩
    | accept q p v =>
      simp only [hreq, Sent] at hsent
      obtain ⟨rfl, -⟩ := hsent
      obtain ⟨t, rfl⟩ := isValue_iff.mp (hv.asked call.task p v ⟨call, hmem, rfl, q, hreq⟩)
      have hrefused := fun hne => voted_of_refused (s := call.peer) hi hreq hne
      have hcases := Server.accept_cases (w.servers call.peer) q p (.value t)
      simp only [Server.handle]
      generalize (w.servers call.peer).accept q p (.value t) = res at hcases hrefused
      obtain ⟨res, sv⟩ := res
      cases hcases with
      | failed e => exact ⟨hold.follows hf (hrefused (by simp)), fun n hn => hn⟩
      | obsolete hst hlt =>
        exact ⟨hold.follows hf (hrefused (by simpa using hlt.ne')), fun n hn => hn⟩
      | accepted hst hp =>
        exact ⟨hold.accept hf hst hp (voted_or_of_accept hi hreq),
          fun n hn => hold.serves_accept hrec hst hp hn⟩
  · rw [if_neg hs]
    exact ⟨(hserv s).follows hf (voted_of_other hi hs), fun n hn => hn⟩

theorem Safe.serving_step (h : Safe Q w) (hv : Values Q w)
    (hserv : ∀ s, Serving w Q s (w.servers s)) (hs : w.step a = some w') (s : Id) :
    Serving w' Q s (w'.servers s) ∧
      ∀ n, (w.servers s).serves n = true → (w'.servers s).serves n = true := by
  rcases step_deliver_or_quiet hs with ⟨i, call, rfl, hi, hr, rfl⟩ | hq
  · exact h.serving_deliver hv hserv hi hr s
  · rw [hq.1]
    exact ⟨(hserv s).follows (Follows.of_step hs) fun p v hvote => hq.voted.mp hvote,
      fun n hn => hn⟩

/-! ## The reads -/

/-- A read in progress gathered the answers of the servers, each with the value that its server
served. -/
def Gathering (w : World T Id) (Q : Finset Id) (k : Nat) (read : Read T Id) : Prop :=
  (read.outcome.isSome → read.waiting = []) ∧
  (∀ state, read.outcome = some (.ok state) → read.gathered.finish Q = .ok state) ∧
  read.gathered.wrong_quorum = none ∧
  ∃ answers : List (Id × Option (Accepted T Id)), answers.map (·.1) = read.gathered.reached ∧
    Gathered.newestOf (answers.map (·.2)) = read.gathered.res ∧
    ∀ x ∈ answers, w.Replied k 0 x.1 (.get Q) (.current x.2)

/-- A majority serves the version. -/
def Served (w : World T Id) (Q : Finset Id) (n : Int) : Prop :=
  Q.card / 2 < (Q.filter fun s => (w.servers s).serves n).card

structure Reads (Q : Finset Id) (w : World T Id) : Prop where
  safe : Safe Q w
  values : Values Q w
  serving : ∀ s, Serving w Q s (w.servers s)
  confirms : ∀ k n s p, w.Replied k n s (.confirm Q p) .confirmed →
    (w.servers s).serves p.version = true
  gets : ∀ c ∈ w.calls, ∀ q x, c.request = .get q → c.reply = some x → ∃ a, x = .ok (.current a)
  current : ∀ k n s a, w.Replied k n s (.get Q) (.current (some a)) →
    a.confirmed = true ∧ (∃ t, a.value = .value t) ∧
      ∃ p₀, p₀.version = a.proposal.version ∧ w.Chosen Q p₀ a.value
  reads : ∀ k read, w.tasks k = some (.state read) → Gathering w Q k read
  returned : ∀ k p v, w.decision k = some (p, v) → w.Served Q p.version

omit [LinearOrder Id] in
theorem Served.mono {n : Int}
    (h : ∀ s, (w.servers s).serves n = true → (w'.servers s).serves n = true)
    (hs : w.Served Q n) : w'.Served Q n := by
  refine lt_of_lt_of_le hs (Finset.card_le_card ?_)
  intro s hs'
  rw [Finset.mem_filter] at hs' ⊢
  exact ⟨hs'.1, h s hs'.2⟩

namespace Reads

theorem serves_step (h : Reads Q w) (hs : w.step a = some w') (s : Id) {n : Int}
    (hn : (w.servers s).serves n = true) : (w'.servers s).serves n = true :=
  (h.safe.serving_step h.values h.serving hs s).2 n hn

theorem confirms_step (h : Reads Q w) (hs : w.step a = some w') {n : Nat} {s : Id} {p : Proposal Id}
    (hr : w'.Replied k n s (.confirm Q p) .confirmed) :
    (w'.servers s).serves p.version = true := by
  have hstep := hs
  rcases step_deliver_or_quiet hs with ⟨i, call, rfl, hi, -, rfl⟩ | hq
  · rcases replied_deliver hi hr with hr | ⟨-, -, hpeer, hreq, hres⟩
    · exact h.serves_step hstep s (h.confirms k n s p hr)
    · subst hpeer
      have hsent := h.safe.orderly.sent call (List.mem_of_getElem? hi)
      simp only [hreq, Sent] at hsent
      have hcases := Server.confirm_cases (w.servers call.peer) Q p
      have hok : ((w.servers call.peer).confirm Q p).1 = .ok () := by
        simp only [Server.handle] at hres
        cases hc : ((w.servers call.peer).confirm Q p).1 with
        | error e => simp [hc, Except.map] at hres
        | ok u => rfl
      have hserv := h.serving call.peer
      have hrec := h.safe.records call.peer
      have hserv' := hserv.confirm rfl hcases
      have hrec' := hrec.confirm h.safe.sound hsent.2 hcases
      rw [hok] at hcases
      rw [servers_deliver, if_pos rfl, hreq]
      exact hserv.serves_of_confirmed hserv' hrec hrec' hsent.2 hcases
  · exact h.serves_step hstep s (h.confirms k n s p (hq.replied.mp hr))

theorem gets_step (h : Reads Q w) (hs : w.step a = some w') {c : Call T Id} (hc : c ∈ w'.calls)
    {q : Finset Id} {x : Except (Error Id) (Answer T Id)} (hreq : c.request = .get q)
    (hx : c.reply = some x) : ∃ a, x = .ok (.current a) := by
  rcases step_deliver_or_quiet hs with ⟨i, call, rfl, hi, -, rfl⟩ | ⟨-, new, hnew, hnone⟩
  · rcases List.mem_or_eq_of_mem_set hc with hc | rfl
    · exact h.gets c hc q x hreq hx
    · have hsent := h.safe.orderly.sent call (List.mem_of_getElem? hi)
      simp only at hreq hx
      simp only [hreq, Sent] at hsent
      subst hsent
      simp only [hreq, Server.handle, (h.serving call.peer).get, Except.map,
        Option.some.injEq] at hx
      exact ⟨_, hx.symm⟩
  · rw [hnew] at hc
    rcases List.mem_append.mp hc with hc | hc
    · exact h.gets c hc q x hreq hx
    · simp [hnone c hc] at hx

theorem current_step (h : Reads Q w) (hok : SoundReads w a) (hs : w.step a = some w') {n : Nat}
    {s : Id} {acc : Accepted T Id} (hr : w'.Replied k n s (.get Q) (.current (some acc))) :
    acc.confirmed = true ∧ (∃ t, acc.value = .value t) ∧
      ∃ p₀, p₀.version = acc.proposal.version ∧ w'.Chosen Q p₀ acc.value := by
  have hf := Follows.of_step hs
  suffices acc.confirmed = true ∧ (∃ t, acc.value = .value t) ∧
      ∃ p₀, p₀.version = acc.proposal.version ∧ w.Chosen Q p₀ acc.value by
    obtain ⟨hconf, hval, p₀, hver, hchosen⟩ := this
    exact ⟨hconf, hval, p₀, hver, hchosen.follows hf⟩
  rcases step_deliver_or_quiet hs with ⟨i, call, rfl, hi, -, rfl⟩ | hq
  · rcases replied_deliver hi hr with hr | ⟨-, -, hpeer, hreq, hres⟩
    · exact h.current k n s acc hr
    · subst hpeer
      obtain ⟨hpart, hver⟩ := hok.2 call hi (by rw [hreq]; rfl)
      simp only [Server.handle, (h.serving call.peer).get, Except.map, Except.ok.injEq,
        Answer.current.injEq] at hres
      exact (h.serving call.peer).current_chosen (h.safe.records call.peer) hver hpart hres
  · exact h.current k n s acc (hq.replied.mp hr)

theorem returned_step (h : Reads Q w) (hok : SoundReads w a) (hs : w.step a = some w')
    {p : Proposal Id} {v : Value T Id} (hd : w'.decision k = some (p, v)) :
    w'.Served Q p.version := by
  refine Served.mono (fun s => h.serves_step hs s) ?_
  rcases decision_step (step_cases hs) hd with
    hd | ⟨run, responses, choice, rfl, hk, -, hp, hv, rfl, -⟩ |
    ⟨run, reached, rfl, hk, -, hp, hc, rfl, -⟩
  · exact h.returned k p v hd
  · have hserved := hok.2
    rw [h.safe.orderly.quorumOf_eq] at hv
    simp only [hk, ofChoose, returnsServed, hp, h.safe.orderly.quorumOf_eq, hv,
      decide_eq_true_eq] at hserved
    exact hserved
  · have hinv := h.safe.orderly.tasks k _ hk
    simp only [TaskInv, hp] at hinv
    obtain ⟨hsec, -, hrep⟩ := hinv
    rw [h.safe.orderly.quorumOf_eq] at hc
    have hmaj : Majority Q reached.toFinset :=
      Majority.of_list (by simpa using hsec.stop.distinct) (by simpa using hsec.stop.members) hc
    refine lt_of_lt_of_le hmaj.2 (Finset.card_le_card ?_)
    intro s hs'
    rw [Finset.mem_filter]
    exact ⟨hmaj.1 hs', h.confirms _ _ _ _ (hrep s (List.mem_toFinset.mp hs'))⟩

end Reads

omit [Inhabited Id] in
theorem Gathering.follows (hf : Follows w w') (h : Gathering w Q k read) :
    Gathering w' Q k read := by
  obtain ⟨hw, ho, hq, answers, hreached, hres, hrep⟩ := h
  exact ⟨hw, ho, hq, answers, hreached, hres, fun x hx => (hrep x hx).follows hf⟩

omit [Inhabited Id] in
theorem Gathering.outcome (h : Gathering w Q k read) (hw : read.waiting ≠ []) :
    read.outcome = none := by
  by_contra hne
  exact hw (h.1 (Option.isSome_iff_ne_none.mpr hne))

theorem Reads.gathering_receive (h : Reads Q w) {s : Id} {reply : Except (Error Id) (Answer T Id)}
    (hk : w.tasks k = some (.state read)) (hr : w.replyTo read.waiting s = some reply) :
    Gathering w Q k (read.receive s reply) := by
  have hsec : Section w Q k 0 (.get Q) read.waiting read.gathered.reached :=
    h.safe.orderly.tasks k _ hk
  have hg := h.reads k read hk
  have hnone : read.outcome = none := by
    apply hg.outcome
    intro hw
    simp [hw, replyTo] at hr
  -- the reply is the value that the server served
  obtain ⟨i, c, hmem, hc, hreply⟩ := replyTo_spec hr
  obtain ⟨x, hx⟩ := hsec.pending _ hmem
  rw [hc] at hx
  cases hx
  simp only at hreply
  obtain ⟨a, rfl⟩ := h.gets _ (List.mem_of_getElem? hc) Q reply rfl (by rw [hreply])
  have hreplied := hsec.replied hr
  obtain ⟨-, -, hq, answers, hreached, hres, hrep⟩ := hg
  have hall : ∀ x ∈ answers ++ [(s, a)], w.Replied k 0 x.1 (.get Q) (.current x.2) := by
    intro x hx
    rcases List.mem_append.mp hx with hx | hx
    · exact hrep x hx
    · rw [List.mem_singleton.mp hx]
      exact hreplied
  cases a with
  | none =>
    refine ⟨by simp [Read.receive, Gathered.answered, Read.without, hnone],
      by simp [Read.receive, Gathered.answered, Read.without, hnone], hq, answers ++ [(s, none)],
      ?_, ?_, hall⟩
    · simp [Read.receive, Gathered.answered, hreached]
    · rw [List.map_append, List.map_singleton, Gathered.newestOf_append]
      exact hres
  | some a =>
    refine ⟨by simp [Read.receive, Gathered.answered, Read.without, hnone],
      by simp [Read.receive, Gathered.answered, Read.without, hnone], hq, answers ++ [(s, some a)],
      ?_, ?_, hall⟩
    · simp [Read.receive, Gathered.answered, hreached]
    · rw [List.map_append, List.map_singleton, Gathered.newestOf_append, hres]
      rfl

theorem Reads.reads_step (h : Reads Q w) (hs : w.step a = some w') {read' : Read T Id}
    (hk : w'.tasks k = some (.state read')) : Gathering w' Q k read' := by
  have hf := Follows.of_step hs
  have hset : ∀ {k' : Nat} {task : Task T Id}, w'.tasks = (w.setTask k' task).tasks →
      (∀ read, task = .state read → Gathering w Q k' read) → Gathering w' Q k read' := by
    intro k' task ht hg
    rcases tasks_setTask ht hk with ⟨rfl, rfl⟩ | ⟨-, hk⟩
    · exact (hg read' rfl).follows hf
    · exact (h.reads k read' hk).follows hf
  have hchoose : ∀ {k' : Nat} {run : Choose T Id},
      w'.tasks = (w.setTask k' (.choose run)).tasks → Gathering w' Q k read' :=
    fun ht => hset ht (by simp)
  cases step_cases hs with
  | choose hnone => exact hchoose rfl
  | state hnone =>
    apply hset rfl
    rintro read ⟨⟩
    exact ⟨by simp, by simp, rfl, [], rfl, rfl, by simp⟩
  | deliver hi hr => exact (h.reads k read' hk).follows hf
  | receive hk' hr => exact hchoose rfl
  | unavailable hk' hm => exact hchoose rfl
  | weak_error hk' hm => exact hchoose rfl
  | chosen hk' hw hp hv => exact hchoose rfl
  | failed hk' hw => exact hchoose rfl
  | retry hk' hw hp hv => exact hchoose rfl
  | accept hk' hw hp hv => exact hchoose rfl
  | resume hk' hw hp => exact hchoose rfl
  | confirm hk' hw hp hc => exact hchoose rfl
  | returned hk' hw hp hc => exact hchoose rfl
  | read_receive hk' hr =>
    apply hset rfl
    rintro read ⟨⟩
    exact h.gathering_receive hk' hr
  | read_unavailable hk' hm =>
    apply hset rfl
    rintro read ⟨⟩
    have hg := h.reads _ _ hk'
    have hnone := hg.outcome (List.ne_nil_of_mem (List.mem_map.mp hm).choose_spec.1)
    exact ⟨by simp [Read.without, hnone], by simp [Read.without, hnone], hg.2.2⟩
  | read_weak_error hk' hm =>
    apply hset rfl
    rintro read ⟨⟩
    have hg := h.reads _ _ hk'
    have hnone := hg.outcome (List.ne_nil_of_mem (List.mem_map.mp hm).choose_spec.1)
    exact ⟨by simp [Read.weakened, Read.without, hnone],
      by simp [Read.weakened, Read.without, hnone], hg.2.2⟩
  | read_finish hk' hw ho =>
    apply hset rfl
    rintro read ⟨⟩
    have hg := h.reads _ _ hk'
    refine ⟨fun _ => hw, ?_, hg.2.2⟩
    intro state hstate
    simpa [h.safe.orderly.quorumOf_eq] using hstate

theorem Reads.step (h : Reads Q w) (hok : SoundReads w a) (hs : w.step a = some w') : Reads Q w' :=
  ⟨h.safe.step hok.1 hs,
    h.values.step h.safe.orderly (fun s => (h.serving s).plain) hok hs,
    fun s => (h.safe.serving_step h.values h.serving hs s).1,
    fun _ _ _ _ hr => h.confirms_step hs hr, fun _ hc _ _ hreq hx => h.gets_step hs hc hreq hx,
    fun _ _ _ _ hr => h.current_step hok hs hr, fun _ _ hk => h.reads_step hs hk,
    fun _ _ _ hd => h.returned_step hok hs hd⟩

theorem Initial.reads (h : Initial Q w) (hv : ∀ s, (w.servers s).value = none) : Reads Q w := by
  have hreplied : ∀ k n s r a, ¬ w.Replied k n s r a := by
    rintro k n s r a ⟨i, hi⟩
    simp [h.calls] at hi
  refine ⟨h.safe, ⟨?_, fun k n s p r hr => absurd hr (hreplied _ _ _ _ _),
    fun k run hk => by simp [h.tasks] at hk⟩, ?_, fun k n s p hr => absurd hr (hreplied _ _ _ _ _),
    by simp [h.calls], fun k n s a hr => absurd hr (hreplied _ _ _ _ _),
    fun k read hk => by simp [h.tasks] at hk, fun k p v hd => by simp [decision, h.tasks] at hd⟩
  · rintro k p v ⟨c, hc, -⟩
    simp [h.calls] at hc
  · intro s
    have hvalue := hv s
    obtain ⟨value, version, hs⟩ := h.servers s
    rw [hs] at hvalue ⊢
    exact ⟨by rintro sp a ⟨⟩, rfl, fun _ => hvalue, by rintro - p v st - ⟨⟩,
      by rintro - - st t ⟨⟩⟩

/-! ## What a read returns -/

/-- How the `state` of task `k` ended. -/
def outcome (w : World T Id) (k : Nat) : Option (Except (Error Id) (State T Id)) :=
  match w.tasks k with
  | some (.state read) => read.outcome
  | _ => none

/-- The peers that answered the `state` of task `k`, in the order of their answers. -/
def reached (w : World T Id) (k : Nat) : List Id :=
  match w.tasks k with
  | some (.state read) => read.gathered.reached
  | _ => []

omit [Inhabited Id] in
theorem finish_ok {g : Gathered T Id} {state : State T Id} (h : g.finish Q = .ok state)
    (hq : g.wrong_quorum = none) :
    (Q.card - 1) / 2 < g.reached.length ∧ g.value Q = .ok state := by
  unfold Gathered.finish at h
  cases hh : check_headcount Q g.reached.length g.weak_error true with
  | error e => simp [hh] at h
  | ok u =>
    simp only [hh, hq] at h
    exact ⟨by simpa using check_headcount_ok hh, h⟩

omit [Inhabited Id] in
theorem finish_of {g : Gathered T Id} (hc : (Q.card - 1) / 2 < g.reached.length)
    (hq : g.wrong_quorum = none) : g.finish Q = g.value Q := by
  have hnot : ¬ g.reached.length ≤ (Q.card - 1) / 2 := not_le.mpr hc
  simp [Gathered.finish, check_headcount, hnot, hq]

theorem Reads.one_label (h : Reads Q w) {k' n n' : Nat} {s s' : Id} {a a' : Accepted T Id}
    (hr : w.Replied k n s (.get Q) (.current (some a)))
    (hr' : w.Replied k' n' s' (.get Q) (.current (some a'))) (hp : a.proposal = a'.proposal) :
    a = a' := by
  obtain ⟨hconf, -, p₀, hver, hchosen⟩ := h.current _ _ _ _ hr
  obtain ⟨hconf', -, p₁, hver', hchosen'⟩ := h.current _ _ _ _ hr'
  have hval := h.safe.sound.agreement hchosen hchosen' (by rw [hver, hver', hp])
  obtain ⟨ap, av, ac⟩ := a
  obtain ⟨ap', av', ac'⟩ := a'
  simp only at hconf hconf' hval hp
  subst hconf hconf' hval hp
  rfl

/-- The members of `M` serve the version, and what they answered to task `r` is of it or of a
later one. -/
def AnswersFrom (w : World T Id) (Q M : Finset Id) (r : Nat) (n : Int) : Prop :=
  ∀ s ∈ M, (w.servers s).serves n = true ∧ ∀ a, w.Replied r 0 s (.get Q) (.current a) →
    ∃ acc, a = some acc ∧ n ≤ acc.proposal.version

theorem AnswersFrom.step {M : Finset Id} {r : Nat} {n : Int} (h : AnswersFrom w Q M r n)
    (hreads : Reads Q w) (hok : SoundReads w a) (hs : w.step a = some w') :
    AnswersFrom w' Q M r n := by
  intro s hsM
  obtain ⟨hserves, hans⟩ := h s hsM
  refine ⟨hreads.serves_step hs s hserves, ?_⟩
  intro x hr
  rcases step_deliver_or_quiet hs with ⟨i, call, rfl, hi, -, rfl⟩ | hq
  · rcases replied_deliver hi hr with hr | ⟨-, -, hpeer, hreq, hres⟩
    · exact hans x hr
    · subst hpeer
      obtain ⟨hpart, -⟩ := hok.2 call hi (by rw [hreq]; rfl)
      simp only [Server.handle, (hreads.serving call.peer).get, Except.map, Except.ok.injEq,
        Answer.current.injEq] at hres
      subst hres
      simp only [Server.serves, hpart, Bool.false_eq_true, if_false, Option.any_eq_true,
        decide_eq_true_eq] at hserves
      exact hserves
  · exact hans x (hq.replied.mp hr)

theorem Reads.finished (h : Reads Q w) {M : Finset Id} {r : Nat} {n : Int} {state : State T Id}
    (hM : Majority Q M) (hfrom : AnswersFrom w Q M r n) (ho : w.outcome r = some (.ok state)) :
    ∃ u m, state = ⟨some u, Q, some m⟩ ∧ n ≤ m.version ∧
      (∃ p₀, p₀.version = m.version ∧ w.Chosen Q p₀ (.value u)) ∧
      ∃ answers, answers.map (·.1) = w.reached r ∧
        (∀ x ∈ answers, w.Replied r 0 x.1 (.get Q) (.current x.2)) ∧
        ∀ answers', answers'.Perm answers → (Gathered.gather answers').finish Q = .ok state := by
  unfold outcome at ho
  split at ho
  case h_2 => cases ho
  rename_i read hr
  obtain ⟨-, hfin, hq, answers, hreached, hres, hrep⟩ := h.reads r read hr
  have hsec : Section w Q r 0 (.get Q) read.waiting read.gathered.reached :=
    h.safe.orderly.tasks r _ hr
  obtain ⟨hcount, hvalue⟩ := finish_ok (hfin state ho) hq
  have hread : ReadQuorum Q read.gathered.reached.toFinset :=
    ReadQuorum.of_list (by simpa using hsec.stop.distinct) (by simpa using hsec.stop.members)
      hcount
  -- a member of the majority is among the peers reached
  obtain ⟨s, hsM, hsR⟩ := hM.meet_read hread
  rw [List.mem_toFinset, ← hreached, List.mem_map] at hsR
  obtain ⟨x, hx, rfl⟩ := hsR
  obtain ⟨acc, hacc, hle⟩ := (hfrom x.1 hsM).2 x.2 (hrep x hx)
  obtain ⟨hmem, hmax⟩ := Gathered.newestOf_spec (answers.map (·.2))
  obtain ⟨a, ha, hle'⟩ := hmax acc (List.mem_map.mpr ⟨x, hx, hacc⟩)
  obtain ⟨y, hy, hya⟩ := List.mem_map.mp (hmem a ha)
  obtain ⟨-, ⟨u, hu⟩, p₀, hver₀, hchosen⟩ :=
    h.current r 0 y.1 a (by rw [← hya]; exact hrep y hy)
  have hstate : state = ⟨some u, Q, some a.proposal⟩ := by
    obtain ⟨ap, av, ac⟩ := a
    simp only at hu
    subst hu
    have hnew : read.gathered.res = some ⟨ap, .value u, ac⟩ := hres.symm.trans ha
    simp only [Gathered.value, hnew, Except.ok.injEq] at hvalue
    exact hvalue.symm
  refine ⟨u, a.proposal, hstate, hle.trans (Proposal.version_mono hle'),
    ⟨p₀, hver₀, hu ▸ hchosen⟩, answers, by simp only [reached, hr, hreached], hrep, ?_⟩
  intro answers' hperm
  have hnewest : Gathered.newestOf (answers'.map (·.2)) = read.gathered.res := by
    rw [← hres]
    apply Gathered.newestOf_perm (hperm.map _)
    intro b b' hb hb' heq
    obtain ⟨z, hz, hzb⟩ := List.mem_map.mp hb
    obtain ⟨z', hz', hzb'⟩ := List.mem_map.mp hb'
    exact h.one_label (by rw [← hzb]; exact hrep z hz) (by rw [← hzb']; exact hrep z' hz') heq
  have hlen : answers'.length = read.gathered.reached.length := by
    rw [hperm.length_eq, ← hreached, List.length_map]
  rw [finish_of (by simpa [Gathered.gather, hlen] using hcount) rfl]
  simpa [Gathered.value, Gathered.gather, hnewest] using hvalue

/-- In every run that meets the condition, a read that starts after a `choose` returned gives the
value chosen for a version that is not below the returned one, and it would give the same if the
answers had come in any other order. -/
theorem a_read_returns_a_decision_not_older_than_those_before {w₀ w₁ w₂ w₃ : World T Id}
    {as bs : List (Action T Id)} {k r c : Nat} {p : Proposal Id} {v : Value T Id}
    {state : State T Id} (h₀ : Initial Q w₀) (hv : ∀ s, (w₀.servers s).value = none)
    (h₁ : Run step SoundReads w₀ as w₁) (hd : w₁.decision k = some (p, v))
    (hs : w₁.step (.state r c) = some w₂) (h₂ : Run step SoundReads w₂ bs w₃)
    (ho : w₃.outcome r = some (.ok state)) :
    ∃ u m, state = ⟨some u, Q, some m⟩ ∧ p.version ≤ m.version ∧
      (∃ p₀, p₀.version = m.version ∧ w₃.Chosen Q p₀ (.value u)) ∧
      (∀ p₁ v₁, p₁.version = m.version → w₃.Chosen Q p₁ v₁ → v₁ = .value u) ∧
      ∃ answers, answers.map (·.1) = w₃.reached r ∧
        (∀ x ∈ answers, w₃.Replied r 0 x.1 (.get Q) (.current x.2)) ∧
        ∀ answers', answers'.Perm answers → (Gathered.gather answers').finish Q = .ok state := by
  have hreads₁ : Reads Q w₁ :=
    h₁.invariant (I := Reads Q) (h₀.reads hv) fun _ _ _ hinv hok hs => hinv.step hok hs
  let M := Q.filter fun s => (w₁.servers s).serves p.version
  have hM : Majority Q M := ⟨Finset.filter_subset _ _, hreads₁.returned k p v hd⟩
  -- the calls of the read come after the choice
  have hstart : AnswersFrom w₁ Q M r p.version := by
    intro s hsM
    refine ⟨(Finset.mem_filter.mp hsM).2, ?_⟩
    rintro a ⟨i, hi⟩
    obtain ⟨t, ht, -⟩ := hreads₁.safe.orderly.dated _ (List.mem_of_getElem? hi)
    simp [step, ht] at hs
  have hok : SoundReads w₁ (.state r c) := ⟨trivial, trivial⟩
  obtain ⟨hreads, hfrom⟩ :=
    h₂.invariant (I := fun w => Reads Q w ∧ AnswersFrom w Q M r p.version)
      ⟨hreads₁.step hok hs, hstart.step hreads₁ hok hs⟩
      fun _ _ _ hinv hok hs => ⟨hinv.1.step hok hs, hinv.2.step hinv.1 hok hs⟩
  obtain ⟨u, m, hstate, hle, ⟨p₀, hver₀, hchosen⟩, hanswers⟩ := hreads.finished hM hfrom ho
  refine ⟨u, m, hstate, hle, ⟨p₀, hver₀, hchosen⟩, ?_, hanswers⟩
  intro p₁ v₁ hver₁ hchosen₁
  exact hreads.safe.sound.agreement hchosen₁ hchosen (by rw [hver₁, hver₀])

/-- A whole `choose` on the three servers, whose first call is call `i`. -/
def chooseOnAll (k : Nat) (version : Int) (value i : Nat) : List (Action Nat Nat) :=
  [.choose k k version (.value value), .deliver i, .deliver (i + 1), .deliver (i + 2),
    .receive k 1, .receive k 2, .receive k 3, .advance k, .deliver (i + 3), .deliver (i + 4),
    .deliver (i + 5), .receive k 1, .receive k 2, .receive k 3, .advance k, .deliver (i + 6),
    .deliver (i + 7), .deliver (i + 8), .receive k 1, .receive k 2, .receive k 3, .advance k]

/-- A whole `choose` on the servers 1 and 2. -/
def chooseOnTwo (k : Nat) (version : Int) (value i : Nat) : List (Action Nat Nat) :=
  [.choose k k version (.value value), .deliver i, .deliver (i + 1), .receive k 1, .receive k 2,
    .unavailable k 3, .advance k, .deliver (i + 3), .deliver (i + 4), .receive k 1, .receive k 2,
    .advance k, .deliver (i + 5), .deliver (i + 6), .receive k 1, .receive k 2, .advance k]

/-- The outcome of a read, when it gives a value. -/
def valueRead (w : World Nat Nat) (k : Nat) : Option (Nat × Proposal Nat) :=
  match w.outcome k with
  | some (.ok ⟨some u, _, some m⟩) => some (u, m)
  | _ => none

theorem outcome_of_valueRead {w : World Nat Nat} {u : Nat} {m : Proposal Nat}
    (h : w.valueRead k = some (u, m)) : ∃ q, w.outcome k = some (.ok ⟨some u, q, some m⟩) := by
  unfold valueRead at h
  split at h
  · rename_i u' q m' ho
    cases h
    exact ⟨q, ho⟩
  · cases h

/-- Two versions are decided, and a read of the servers 2 and 3 gives the second one. -/
theorem a_read_returns_the_second_decision :
    ∃ (w₁ w₃ : World Nat Nat) (p : Proposal Nat) (v : Value Nat Nat) (state : State Nat Nat),
      Run step SoundReads (three (11 + ·)) (chooseOnAll 0 0 100 0 ++ chooseOnAll 1 1 101 9) w₁ ∧
      w₁.decision 1 = some (p, v) ∧ w₃.outcome 2 = some (.ok state) ∧
      ∃ u m, state = ⟨some u, {1, 2, 3}, some m⟩ ∧ p.version ≤ m.version := by
  have hexec : ((exec step SoundReads (three (11 + ·))
      (chooseOnAll 0 0 100 0 ++ chooseOnAll 1 1 101 9)).bind fun w₁ =>
      (w₁.step (.state 2 2)).bind fun w₂ =>
      (exec step SoundReads w₂ [.deliver 19, .deliver 20, .receive 2 3, .receive 2 2,
        .unavailable 2 1, .advance 2]).map fun w₃ => (w₁.decision 1, w₃.valueRead 2)) =
      some (some (⟨1, 1, 12⟩, .value 101), some (101, ⟨1, 1, 12⟩)) := by decide +kernel
  rw [Option.bind_eq_some_iff] at hexec
  obtain ⟨w₁, hw₁, hexec⟩ := hexec
  rw [Option.bind_eq_some_iff] at hexec
  obtain ⟨w₂, hw₂, hexec⟩ := hexec
  obtain ⟨w₃, hw₃, hread⟩ := Run.of_exec_map hexec
  obtain ⟨hd, hvalue⟩ := Prod.mk.inj hread
  obtain ⟨q, ho⟩ := outcome_of_valueRead hvalue
  obtain ⟨u, m, hstate, hle, -⟩ := a_read_returns_a_decision_not_older_than_those_before
    (initial_three _) (fun _ => rfl) (Run.of_exec hw₁) hd hw₂ hw₃ ho
  exact ⟨w₁, w₃, _, _, _, Run.of_exec hw₁, hd, ho, u, m, hstate, hle⟩

/-- Each `choose` is for a version at most one above a version that was decided. -/
def OneAbove (w : World T Id) : Action T Id → Prop
  | .choose _ _ version _ =>
    version ≤ 0 ∨ ∃ k p v, w.decision k = some (p, v) ∧ version ≤ p.version + 1
  | _ => True

/-- The same, for the first runs only. -/
def oneAbove (w : World T Id) : Action T Id → Bool
  | .choose _ _ version _ => decide (version ≤ 0) ||
      (List.range 3).any fun k => (w.decision k).any fun d => decide (version ≤ d.1.version + 1)
  | _ => true

omit [LinearOrder Id] [Inhabited Id] in
theorem OneAbove.of_oneAbove (h : w.oneAbove a = true) : OneAbove w a := by
  cases a with
  | choose k c version value =>
    simp only [oneAbove, Bool.or_eq_true, decide_eq_true_eq, List.any_eq_true,
      Option.any_eq_true] at h
    rcases h with h | ⟨k', -, ⟨p, v⟩, hd, hle⟩
    · exact Or.inl h
    · exact Or.inr ⟨k', p, v, hd, hle⟩
  | _ => trivial

/-- Versions 0 and 1 are decided on all the servers, version 2 on two of them, and the third one
hears of version 3 only. -/
def missedVersion : List (Action Nat Nat) :=
  chooseOnAll 0 0 100 0 ++ chooseOnAll 1 1 101 9 ++ chooseOnTwo 2 2 102 18 ++
    [.choose 3 3 3 (.value 103), .deliver 25, .deliver 26, .deliver 27]

/-- The call asks for the value 100 at version 0, if at all. -/
def asksAtFirst (c : Call Nat Nat) : Bool :=
  match c.request with
  | .accept _ p (.value u) => u != 100 || p.version == 0
  | _ => true

/-- The read of the servers 3 and 1 gives the value of version 0 under version 2. -/
theorem a_read_returns_a_value_that_was_not_decided :
    ∃ (w₁ w₂ w₃ : World Nat Nat) (p m : Proposal Nat) (u : Nat) (q : Finset Nat),
      Initial {1, 2, 3} (three (11 + ·)) ∧
      Run step OneAbove (three (11 + ·)) missedVersion w₁ ∧
      w₁.decision 2 = some (p, .value 102) ∧ w₁.step (.state 4 4) = some w₂ ∧
      Run step OneAbove w₂ [.deliver 30, .deliver 28, .receive 4 3, .receive 4 1,
        .unavailable 4 2, .advance 4] w₃ ∧
      w₃.outcome 4 = some (.ok ⟨some u, q, some m⟩) ∧ p.version = m.version ∧ u ≠ 102 ∧
      ∀ p₀, p₀.version = m.version → ¬ w₃.Chosen {1, 2, 3} p₀ (.value u) := by
  have hexec : ((exec step (fun w a => oneAbove w a = true) (three (11 + ·)) missedVersion).bind
      fun w₁ => (w₁.step (.state 4 4)).bind fun w₂ =>
      (exec step (fun w a => oneAbove w a = true) w₂ [.deliver 30, .deliver 28, .receive 4 3,
        .receive 4 1, .unavailable 4 2, .advance 4]).map fun w₃ => (w₁.decision 2, w₃.valueRead 4,
          w₃.calls.all asksAtFirst)) =
      some (some (⟨2, 1, 13⟩, .value 102), some (100, ⟨2, 0, 0⟩), true) := by decide +kernel
  rw [Option.bind_eq_some_iff] at hexec
  obtain ⟨w₁, hw₁, hexec⟩ := hexec
  rw [Option.bind_eq_some_iff] at hexec
  obtain ⟨w₂, hw₂, hexec⟩ := hexec
  obtain ⟨w₃, hw₃, hread⟩ := Run.of_exec_map hexec
  obtain ⟨hd, hread⟩ := Prod.mk.inj hread
  obtain ⟨hvalue, hcalls⟩ := Prod.mk.inj hread
  obtain ⟨q, ho⟩ := outcome_of_valueRead hvalue
  have hmono : ∀ (w : World Nat Nat) a, w.oneAbove a = true → OneAbove w a :=
    fun w a h => OneAbove.of_oneAbove h
  refine ⟨w₁, w₂, w₃, _, _, _, q, initial_three _, (Run.of_exec hw₁).mono hmono, hd, hw₂,
    hw₃.mono hmono, ho, rfl, by decide, ?_⟩
  -- 100 was asked for at version 0 only
  intro p₀ hver hchosen
  obtain ⟨s, hs⟩ := hchosen.voted
  obtain ⟨c, hc, hreq⟩ := Voted.call hs
  have := List.all_eq_true.mp hcalls c hc
  simp only [asksAtFirst, hreq, bne_self_eq_false, Bool.false_or, beq_iff_eq] at this
  rw [this] at hver
  exact absurd hver (by decide)

end World

end athena.paxos
