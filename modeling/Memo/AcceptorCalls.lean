-- What no call of an acceptor does: lower its promise, accept below what it
-- accepted, fail its assertion, or change it and then throw.
import Memo.ServerLaws

namespace athena.paxos

variable {T Id : Type} [LinearOrder Id]

namespace Server

variable {s s' : Server T Id} {q : Finset Id} {p : Proposal Id} {r : Request T Id}

/-! ## The promise -/

/-- The promise of the server is at least this one. -/
def Promised (s : Server T Id) (p : Proposal Id) : Prop :=
  ∃ st, s.state = some st ∧ p ≤ st.proposal

variable {st : VersionState T Id} {e : Error Id}

theorem promised_propose {res : Except (Error Id) (Response T Id)} (hs : s.state = some st)
    (h : Proposed s p res s') : s'.Promised st.proposal := by
  have hsame : s.Promised st.proposal := ⟨st, hs, le_rfl⟩
  cases h with
  | failed => exact hsame
  | newer => exact hsame
  | first hnone =>
    rw [hs] at hnone
    cases hnone
  | next hs' hv | skip hs' hv =>
    obtain rfl := Option.some.inj (hs.symm.trans hs')
    exact ⟨_, rfl, (Proposal.lt_of_version hv).le⟩
  | raise hs' hlt =>
    obtain rfl := Option.some.inj (hs.symm.trans hs')
    exact ⟨_, rfl, hlt.le⟩
  | refused => exact hsame

theorem promised_handle [Inhabited Id] (hs : s.state = some st) (r : Request T Id) :
    (s.handle r).2.Promised st.proposal := by
  have hsame : s.Promised st.proposal := ⟨st, hs, le_rfl⟩
  apply handle_rule (P := fun s' => s'.Promised st.proposal) hsame
  · rintro q p rfl res s' hp
    exact promised_propose hs hp
  · rintro q p v rfl res s' ha
    cases ha with
    | failed => exact hsame
    | obsolete => exact hsame
    | accepted hs' hp =>
      obtain rfl := Option.some.inj (hs.symm.trans hs')
      exact ⟨_, rfl, hp.le⟩
  · rintro q p rfl res s' hc
    cases hc with
    | failed => exact hsame
    | obsolete => exact hsame
    | already => exact hsame
    | confirmed hs' =>
      obtain rfl := Option.some.inj (hs.symm.trans hs')
      exact ⟨_, rfl, le_rfl⟩

/-! ## The accepted record -/

/-- The server accepted this proposal, or a higher one in its place. -/
def AcceptedFrom (s : Server T Id) (p : Proposal Id) : Prop :=
  ∃ st a, s.state = some st ∧ st.accepted = some a ∧ p ≤ a.proposal

theorem accept_from [Inhabited Id] (ho : Ordered s) {a : Accepted T Id} (hs : s.state = some st)
    (ha : st.accepted = some a) (q : Finset Id) (p : Proposal Id) (v : Value T Id) :
    (s.accept q p v).2.AcceptedFrom a.proposal := by
  have hsame : s.AcceptedFrom a.proposal := ⟨st, a, hs, ha, le_rfl⟩
  apply accept_rule (P := fun _ s' => s'.AcceptedFrom a.proposal)
  intro res s' h
  cases h with
  | failed => exact hsame
  | obsolete => exact hsame
  | accepted hs' hp =>
    obtain rfl := Option.some.inj (hs.symm.trans hs')
    have hle : a.proposal ≤ st.proposal := (ho st.proposal a (by rw [hs, ← ha])).1
    exact ⟨_, _, rfl, rfl, hle.trans hp.le⟩

/-! ## The assertion of the commit -/

omit [LinearOrder Id] in
theorem accepted_of_check (hv : ⟨0, 1, 0⟩ ≤ s.version) (hc : s.check_confirmed p = true)
    (hs : s.state = some st) (hlt : st.proposal.version < p.version) :
    ∃ a, st.accepted = some a := by
  have hnot : ¬ s.version < ⟨0, 1, 0⟩ := not_lt.mpr hv
  have hge : ¬ st.proposal.version ≥ p.version := not_le.mpr hlt
  unfold check_confirmed at hc
  rw [if_neg hnot] at hc
  split_ifs at hc
  simp only [hs, if_neg hge, Bool.and_eq_true] at hc
  cases ha : st.accepted with
  | none => simp [VersionState.confirmed, ha] at hc
  | some a => exact ⟨a, rfl⟩

theorem promise_ok (s : Server T Id) (p : Proposal Id) : ∃ res, (s.promise p).1 = .ok res := by
  unfold promise
  split
  · exact ⟨_, rfl⟩
  · split
    · exact ⟨_, rfl⟩
    · split <;> exact ⟨_, rfl⟩

variable [Inhabited Id]

theorem propose_asserts (hv : ⟨0, 1, 0⟩ ≤ s.version) (q : Finset Id) (p : Proposal Id) :
    (s.propose q p).1 ≠ .error (.assert_error "accepted") := by
  have hpromise : ∀ s : Server T Id, (s.promise p).1 ≠ .error (.assert_error "accepted") := by
    intro s h
    obtain ⟨res, hres⟩ := promise_ok s p
    rw [hres] at h
    cases h
  unfold propose
  split
  · simp
  · split
    · rename_i hc
      split
      · rename_i e he
        unfold check_quorum at he
        dsimp only at he
        split_ifs at he
        simp only [Except.error.injEq] at he
        subst he
        simp
      · split
        · exact hpromise s
        · rename_i st hs
          split
          · rename_i hlt
            obtain ⟨a, ha⟩ := accepted_of_check hv hc hs hlt
            rw [ha]
            exact hpromise _
          · exact hpromise s
    · split
      · exact hpromise _
      · exact hpromise s

/-! ## Every call -/

/-- The promise does not decrease, what is accepted is not above it and is not overwritten by a
lower proposal, and the assertion holds. -/
structure Monotone (s : Server T Id) (r : Request T Id) : Prop where
  promised : ∀ st, s.state = some st →
    ∃ st', (s.handle r).2.state = some st' ∧ st.proposal ≤ st'.proposal
  below : ∀ st a, (s.handle r).2.state = some st → st.accepted = some a →
    a.proposal ≤ st.proposal
  accepted : ∀ q p v, r = .accept q p v → ∀ st a, s.state = some st → st.accepted = some a →
    ∃ st' a', (s.handle r).2.state = some st' ∧ st'.accepted = some a' ∧ a.proposal ≤ a'.proposal
  asserted : ∀ q p, r = .propose q p → (s.propose q p).1 ≠ .error (.assert_error "accepted")

/-- A server that confirms is monotone at each call of any sequence. -/
theorem acceptor_monotone (id : Id) (quorum : Finset Id) (value : Option T)
    (version : elle.Version) (hv : ⟨0, 1, 0⟩ ≤ version) (rs : List (Request T Id))
    (r : Request T Id) : ((new id quorum value version).after rs).Monotone r := by
  have ho := after_ordered id quorum value version rs
  have hver : ⟨0, 1, 0⟩ ≤ ((new id quorum value version).after rs).version := by
    rw [after_version]
    exact hv
  refine ⟨fun st hs => promised_handle hs r, fun st a hs ha => ?_, ?_, ?_⟩
  · exact (handle_ordered ho st.proposal a (by rw [hs, ← ha])).1
  · rintro q p v rfl st a hs ha
    exact accept_from ho hs ha q p v
  · rintro q p -
    exact propose_asserts hver q p

theorem acceptor_monotone_at_a_second_version :
    ((new 1 {1, 2} (some 7) ⟨0, 4, 0⟩ : Server Nat Nat).after
      [.propose {1, 2} ⟨1, 1, 1⟩, .accept {1, 2} ⟨1, 1, 1⟩ (.value 8),
        .confirm {1, 2} ⟨1, 1, 1⟩]).Monotone (.propose {1, 2} ⟨2, 1, 2⟩) :=
  acceptor_monotone 1 {1, 2} (some 7) ⟨0, 4, 0⟩ (by decide) _ _

/-! ## Calls that throw -/

omit [LinearOrder Id] [Inhabited Id] in
theorem map_eq_error {α β : Type} {f : α → β} {x : Except (Error Id) α} (h : x.map f = .error e) :
    x = .error e := by
  cases x with
  | error e' => simpa [Except.map] using h
  | ok a => simp [Except.map] at h

theorem propose_throws (h : (s.propose q p).1 = .error e) :
    (s.propose q p).2 = s := by
  have hcases := propose_cases s q p
  rw [h] at hcases
  generalize (s.propose q p).2 = s' at hcases
  cases hcases with
  | failed => rfl

theorem accept_throws {v : Value T Id} (h : (s.accept q p v).1 = .error e) :
    (s.accept q p v).2 = s := by
  have hcases := accept_cases s q p v
  rw [h] at hcases
  generalize (s.accept q p v).2 = s' at hcases
  cases hcases with
  | failed => rfl

theorem confirm_throws (h : (s.confirm q p).1 = .error e) :
    (s.confirm q p).2 = s := by
  have hcases := confirm_cases s q p
  rw [h] at hcases
  generalize (s.confirm q p).2 = s' at hcases
  cases hcases with
  | failed => rfl

/-- A call that throws leaves the server as it was, after any calls before it. -/
theorem throwing_call_leaves_no_trace (id : Id) (quorum : Finset Id) (value : Option T)
    (version : elle.Version) (rs : List (Request T Id)) (r : Request T Id) (e : Error Id)
    (h : (((new id quorum value version).after rs).handle r).1 = .error e) :
    (((new id quorum value version).after rs).handle r).2 =
      (new id quorum value version).after rs := by
  cases r with
  | propose q p => exact propose_throws (map_eq_error h)
  | accept q p v => exact accept_throws (map_eq_error h)
  | confirm q p => exact confirm_throws (map_eq_error h)
  | get q => rfl

/-- A confirmed quorum binds the proposal of the next version: the former one is refused. -/
theorem refused_proposal_leaves_no_trace :
    (((new 1 {1, 2} (some 7) ⟨0, 4, 0⟩ : Server Nat Nat).after
      [.propose {1, 2} ⟨1, 1, 1⟩, .accept {1, 2} ⟨1, 1, 1⟩ (.quorum {1, 3}),
        .confirm {1, 2} ⟨1, 1, 1⟩]).handle (.propose {1, 2} ⟨2, 1, 2⟩)).2 =
      (new 1 {1, 2} (some 7) ⟨0, 4, 0⟩ : Server Nat Nat).after
        [.propose {1, 2} ⟨1, 1, 1⟩, .accept {1, 2} ⟨1, 1, 1⟩ (.quorum {1, 3}),
          .confirm {1, 2} ⟨1, 1, 1⟩] :=
  throwing_call_leaves_no_trace 1 {1, 2} (some 7) ⟨0, 4, 0⟩ _ _
    (.wrong_quorum {1, 3} {1, 2} (some ⟨1, 1, 1⟩)) rfl

end Server

end athena.paxos
