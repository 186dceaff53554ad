-- The laws of one acceptor under any sequence of calls: its accepted record is
-- of the promised version unless a server that missed versions is moved to a
-- later one, and a confirmed quorum binds it until it misses a version.
import Memo.PaxosServer

namespace athena.paxos

variable {T Id : Type} [LinearOrder Id]

namespace Server

variable {s : Server T Id} {q : Finset Id} {p : Proposal Id} {r : Request T Id}

/-! ## Sequences of calls -/

theorem after_append [Inhabited Id] (s : Server T Id) (rs : List (Request T Id))
    (r : Request T Id) :
    s.after (rs ++ [r]) = ((s.after rs).handle r).2 := by
  simp [after, List.foldl_append]

/-- The calls of a sequence, each with the calls before it. -/
def Calls (rs : List (Request T Id)) (P : List (Request T Id) → Request T Id → Prop) : Prop :=
  ∀ pre r, pre ++ [r] <+: rs → P pre r

theorem after_invariant [Inhabited Id] {P : Server T Id → Prop} {rs : List (Request T Id)}
    (h0 : P s) (hstep : Calls rs fun pre r => P (s.after pre) → P ((s.after pre).handle r).2) :
    ∀ pre, pre <+: rs → P (s.after pre) := by
  intro pre
  induction pre using List.reverseRecOn with
  | nil => intro _; exact h0
  | append_singleton pre r ih =>
    intro hpre
    rw [after_append]
    exact hstep pre r hpre (ih ((List.prefix_append pre [r]).trans hpre))

omit [LinearOrder Id] in
theorem commit_version (s : Server T Id) (a : Accepted T Id) :
    (s.commit a).version = s.version := by
  unfold commit
  split <;> rfl

theorem handle_version [Inhabited Id] (s : Server T Id) (r : Request T Id) :
    (s.handle r).2.version = s.version := by
  apply handle_rule (P := fun s' => s'.version = s.version) rfl
  · intro q p _ res s' h
    cases h with
    | next => exact commit_version s _
    | _ => rfl
  · intro q p v _ res s' h
    cases h <;> rfl
  · intro q p _ res s' h
    cases h <;> rfl

theorem after_version [Inhabited Id] (s : Server T Id) (rs : List (Request T Id)) :
    (s.after rs).version = s.version := by
  induction rs using List.reverseRecOn with
  | nil => rfl
  | append_singleton rs r ih => rw [after_append, handle_version, ih]

/-! ## The version of the accepted record -/

/-- The accepted record is of the version of the promised proposal. -/
def Coherent (s : Server T Id) : Prop :=
  ∀ sp a, s.state = some ⟨sp, some a⟩ → a.proposal.version = sp.version

/-- The call does not move a server that missed versions, and holds an accepted record, to a later
version. -/
def KeepsVersion (s : Server T Id) : Request T Id → Prop
  | .propose _ p => s.partial_state = true → ∀ sp a, s.state = some ⟨sp, some a⟩ →
      p.version ≤ sp.version
  | _ => True

instance (s : Server T Id) (r : Request T Id) : Decidable (KeepsVersion s r) :=
  match r with
  | .propose _ p =>
    decidable_of_iff (s.partial_state = true → ∀ st ∈ s.state, st.accepted.isSome →
        p.version ≤ st.proposal.version) (by
      constructor
      · exact fun h hp sp a hs => h hp ⟨sp, some a⟩ hs rfl
      · rintro h hp ⟨sp, acc⟩ hs ha
        obtain ⟨a, rfl⟩ := Option.isSome_iff_exists.mp ha
        exact h hp sp a hs)
  | .accept _ _ _ => isTrue trivial
  | .confirm _ _ => isTrue trivial
  | .get _ => isTrue trivial

omit [LinearOrder Id] in
theorem coherent_of_none (hs : s.state = some ⟨p, none⟩) : Coherent s := by
  intro sp a h
  rw [hs] at h
  cases h

theorem Coherent.handle [Inhabited Id] (hc : Coherent s) (hk : KeepsVersion s r) :
    Coherent (s.handle r).2 := by
  apply handle_rule hc
  · rintro q p rfl res s' h
    cases h with
    | failed => exact hc
    | newer => exact hc
    | first => exact coherent_of_none rfl
    | next => exact coherent_of_none rfl
    | skip => exact coherent_of_none rfl
    | refused => exact hc
    | @raise st hs hlt hv =>
      obtain ⟨sp, acc⟩ := st
      rintro sp' a ⟨⟩
      have ha := hc sp a hs
      rcases hv with hv | hp
      · exact ha.trans hv
      · have hle := hk hp sp a hs
        exact ha.trans (le_antisymm (Proposal.version_le hlt) hle)
  · rintro q p v rfl res s' h
    cases h with
    | failed => exact hc
    | obsolete => exact hc
    | accepted hs hp =>
      rintro sp a ⟨⟩
      rfl
  · rintro q p rfl res s' h
    cases h with
    | failed => exact hc
    | obsolete => exact hc
    | already => exact hc
    | @confirmed sp a hs =>
      rintro sp' a' ⟨⟩
      exact hc sp a hs

theorem handle_coherent [Inhabited Id] (hv : ⟨0, 1, 0⟩ ≤ s.version) (hc : Coherent s) :
    Coherent (s.handle r).2 ↔ KeepsVersion s r := by
  constructor
  · intro hc'
    cases r with
    | propose q p =>
      intro hp sp a hs
      by_contra hlt
      rw [not_le] at hlt
      -- the promise rises to the later version, and the record stays
      have hnew : s.newer p = none := by
        have := hc sp a hs
        simp [newer, hs]
        omega
      have hck := check_confirmed_partial (p := p) hp (not_lt.mpr hv)
      have hraise : (s.handle (.propose q p)).2.state = some ⟨p, some a⟩ := by
        simp [handle, propose, hnew, hck, hp, promise, hs, Proposal.lt_of_version hlt]
      have := hc' p a hraise
      rw [hc sp a hs] at this
      omega
    | _ => trivial
  · exact hc.handle

variable {Q' : Finset Id} {s' : Server T Id} {n : Int}

theorem promised_value {res : Response T Id} {v : Value T Id} (hk : KeepsVersion s (.propose q p))
    (hc : Coherent s) (h : Proposed s p (.ok res) s') (hg : res.Grants p)
    (hval : res.value = some v) :
    ∃ sp a, s.state = some ⟨sp, some a⟩ ∧ a.value = v ∧ a.proposal.version = p.version := by
  cases h with
  | newer hs hv => exact absurd (hg _ rfl) (not_lt.mpr (Proposal.lt_of_version hv).le)
  | first => cases hval
  | next => cases hval
  | skip => cases hval
  | refused hs hle => exact absurd (hg _ rfl) (not_lt.mpr hle)
  | @raise st hs hlt hv =>
    obtain ⟨sp, _ | a⟩ := st
    · cases hval
    · cases hval
      have ha := hc sp a hs
      refine ⟨sp, a, hs, rfl, ?_⟩
      rcases hv with hv | hp
      · exact ha.trans hv
      · exact ha.trans (le_antisymm (Proposal.version_le hlt) (hk hp sp a hs))

/-- What the versions say at one call: the record after the call is of the promised version, a
value that came with a promise was accepted for the version of the proposal, and the current
version is the version of the confirmed value. -/
structure VersionsAgree [Inhabited Id] (s : Server T Id) (r : Request T Id) : Prop where
  coherent : Coherent (s.handle r).2
  promised : ∀ q p res v, r = .propose q p → (s.propose q p).1 = .ok res → res.Grants p →
    res.value = some v →
    ∃ sp a, s.state = some ⟨sp, some a⟩ ∧ a.value = v ∧ a.proposal.version = p.version
  current : ∀ sp a, (s.handle r).2.state = some ⟨sp, some a⟩ → a.confirmed = true →
    (s.handle r).2.current_version = a.proposal.version

omit [LinearOrder Id] in
theorem current_version_of_confirmed {sp : Proposal Id} {a : Accepted T Id} (hc : Coherent s)
    (hs : s.state = some ⟨sp, some a⟩) (ha : a.confirmed = true) :
    s.current_version = a.proposal.version := by
  simp [current_version, hs, VersionState.confirmed, ha, hc sp a hs]

/-- The versions agree at every call of a sequence, exactly when no call moves a server that missed
versions, and holds an accepted record, to a later version. -/
theorem versions_agree_unless_a_late_server_moves_on [Inhabited Id] (id : Id) (quorum : Finset Id)
    (value : Option T) (version : elle.Version) (hv : ⟨0, 1, 0⟩ ≤ version)
    (rs : List (Request T Id)) :
    Calls rs (fun pre r => VersionsAgree ((new id quorum value version).after pre) r) ↔
      Calls rs (fun pre r => KeepsVersion ((new id quorum value version).after pre) r) := by
  have hv' : ∀ pre, ⟨0, 1, 0⟩ ≤ ((new id quorum value version).after pre).version := by
    intro pre
    rw [after_version]
    exact hv
  have h0 : Coherent (new id quorum value version) := by
    intro sp a h
    cases h
  constructor
  · intro h pre r hpre
    have hc := after_invariant h0 (fun pre r hpre _ => (h pre r hpre).coherent) pre
      ((List.prefix_append pre [r]).trans hpre)
    exact (handle_coherent (hv' pre) hc).mp (h pre r hpre).coherent
  · intro h pre r hpre
    have hc := after_invariant h0
      (fun pre r hpre hc => (handle_coherent (hv' pre) hc).mpr (h pre r hpre)) pre
      ((List.prefix_append pre [r]).trans hpre)
    have hc' := (handle_coherent (hv' pre) hc).mpr (h pre r hpre)
    refine ⟨hc', ?_, fun sp a => current_version_of_confirmed hc'⟩
    rintro q p res v rfl hres hg hval
    have hp := propose_cases ((new id quorum value version).after pre) q p
    rw [hres] at hp
    exact promised_value (q := q) (h pre _ hpre) hc hp hg hval

/-- A server that skipped to version 2 accepted a value there, and a proposal for version 3 takes
the record along: the promise of version 3 comes with the value of version 2. -/
theorem a_late_server_reports_the_value_of_another_version :
    ¬ Calls [.propose {1} ⟨0, 1, 1⟩, .propose {1} ⟨2, 1, 1⟩,
        .accept {1} ⟨2, 1, 1⟩ (.value 7), .propose {1} ⟨3, 1, 1⟩]
      (fun pre r => VersionsAgree ((new 1 {1} none ⟨0, 4, 0⟩ : Server Nat Nat).after pre) r) := by
  intro h
  have hlast := h [.propose {1} ⟨0, 1, 1⟩, .propose {1} ⟨2, 1, 1⟩,
    .accept {1} ⟨2, 1, 1⟩ (.value 7)] (.propose {1} ⟨3, 1, 1⟩) (List.prefix_refl _)
  have hver := hlast.coherent ⟨3, 1, 1⟩ ⟨⟨2, 1, 1⟩, .value 7, false⟩ rfl
  exact absurd hver (by decide)

theorem versions_agree_on_one_choose :
    Calls [.propose {1} ⟨0, 1, 1⟩, .accept {1} ⟨0, 1, 1⟩ (.value 7), .confirm {1} ⟨0, 1, 1⟩]
        (fun pre r => VersionsAgree ((new 1 {1} none ⟨0, 4, 0⟩ : Server Nat Nat).after pre) r) ↔
      Calls [.propose {1} ⟨0, 1, 1⟩, .accept {1} ⟨0, 1, 1⟩ (.value 7), .confirm {1} ⟨0, 1, 1⟩]
        (fun pre r => KeepsVersion ((new 1 {1} none ⟨0, 4, 0⟩ : Server Nat Nat).after pre) r) :=
  versions_agree_unless_a_late_server_moves_on 1 {1} none ⟨0, 4, 0⟩ (by decide) _

/-! ## A confirmed quorum -/

/-- The change to the quorum `Q'` is accepted and confirmed at version `n`. -/
def QuorumConfirmed (s : Server T Id) (Q' : Finset Id) (n : Int) : Prop :=
  ∃ sp ap, s.state = some ⟨sp, some ⟨ap, .quorum Q', true⟩⟩ ∧ ap.version = n

/-- A quorum change after version `n` is confirmed. -/
def LaterChange (s : Server T Id) (n : Int) : Prop := ∃ Q m, QuorumConfirmed s Q m ∧ n < m

/-- The call puts the server in the partial state: the proposal skips a version, or the version
before is not confirmed. -/
def Skips (s : Server T Id) : Request T Id → Prop
  | .propose _ p => s.partial_state = false ∧ s.newer p = none ∧ s.check_confirmed p = false
  | _ => False

/-- The call accepts another value in place of a confirmed one. -/
def Replaces (s : Server T Id) : Request T Id → Prop
  | .accept _ p v => ∃ a, s.state = some ⟨p, some a⟩ ∧ a.confirmed = true ∧ a.value ≠ v
  | _ => False

/-- The call is for a version before the one the server is at. -/
def Outdated (s : Server T Id) : Request T Id → Prop
  | .propose _ p => (s.newer p).isSome
  | .confirm _ p => ∃ st, s.state = some st ∧ p.version < st.proposal.version
  | _ => False

/-- The accepted record is not above the promise, and a server that missed versions has confirmed
nothing. -/
def Ordered (s : Server T Id) : Prop :=
  ∀ sp a, s.state = some ⟨sp, some a⟩ →
    a.proposal ≤ sp ∧ (a.confirmed = true → s.partial_state = false)

theorem handle_ordered [Inhabited Id] (h : Ordered s) : Ordered (s.handle r).2 := by
  apply handle_rule h
  · rintro q p rfl res s' hp
    cases hp with
    | failed => exact h
    | newer => exact h
    | first => rintro sp a ⟨⟩
    | next => rintro sp a ⟨⟩
    | skip => rintro sp a ⟨⟩
    | refused => exact h
    | @raise st hs hlt =>
      obtain ⟨sp, acc⟩ := st
      rintro sp' a ⟨⟩
      obtain ⟨hle, hc⟩ := h sp a hs
      exact ⟨hle.trans hlt.le, hc⟩
  · rintro q p v rfl res s' ha
    cases ha with
    | failed => exact h
    | obsolete => exact h
    | @accepted st hs hp =>
      rintro sp a ⟨⟩
      refine ⟨le_rfl, ?_⟩
      obtain ⟨sp, _ | a⟩ := st
      · rintro ⟨⟩
      · exact (h sp a hs).2
  · rintro q p rfl res s' hc
    cases hc with
    | failed => exact h
    | obsolete => exact h
    | already => exact h
    | @confirmed sp a hs =>
      rintro sp' a' ⟨⟩
      exact ⟨(h sp a hs).1, fun _ => rfl⟩

theorem after_ordered [Inhabited Id] (id : Id) (quorum : Finset Id) (value : Option T)
    (version : elle.Version) (rs : List (Request T Id)) :
    Ordered ((new id quorum value version).after rs) := by
  have h0 : Ordered (new id quorum value version : Server T Id) := by
    rintro sp a ⟨⟩
  exact after_invariant h0 (fun _ _ _ h => handle_ordered h) rs (List.prefix_refl rs)

/-- The server is bound to the quorum `Q'` after version `n`: the change is still its accepted
record, or it is committed and the server is at a later version. -/
structure Bound (s : Server T Id) (Q' : Finset Id) (n : Int) : Prop where
  up_to_date : s.partial_state = false
  bound : (∃ sp ap, s.state = some ⟨sp, some ⟨ap, .quorum Q', true⟩⟩ ∧ ap.version = n ∧ ap ≤ sp) ∨
    (s.quorum = Q' ∧ ∃ sp acc, s.state = some ⟨sp, acc⟩ ∧ n < sp.version ∧
      ∀ a, acc = some a → n < a.proposal.version)

theorem Bound.expected_quorum (hb : Bound s Q' n) (hl : ¬ LaterChange s n) (hn : n < p.version) :
    s.expected_quorum (some p) = Q' := by
  rcases hb.bound with ⟨sp, ap, hs, hv, _⟩ | ⟨hq, sp, acc, hs, _, hacc⟩
  · simp [Server.expected_quorum, hs, hv, hn]
  · unfold Server.expected_quorum
    split
    · rename_i ap q hs'
      rw [hs] at hs'
      cases hs'
      exact absurd ⟨q, ap.version, ⟨_, ap, hs, rfl⟩, hacc _ rfl⟩ hl
    · exact hq

omit [LinearOrder Id] in
theorem confirmed_of_check {sp : Proposal Id} {a : Accepted T Id} (hv : ⟨0, 1, 0⟩ ≤ s.version)
    (hp : s.partial_state = false) (hs : s.state = some ⟨sp, some a⟩)
    (hlt : sp.version < p.version) (hc : s.check_confirmed p = true) :
    sp.version = p.version - 1 ∧ a.confirmed = true := by
  simpa [check_confirmed, not_lt.mpr hv, hp, hs, not_le.mpr hlt, VersionState.confirmed] using hc

theorem bound_propose {res : Except (Error Id) (Response T Id)} (hv : ⟨0, 1, 0⟩ ≤ s.version)
    (hb : Bound s Q' n) (hl : ¬ LaterChange s n) (hs : ¬ Skips s (.propose q p))
    (hnew : s.newer p = none) (h : Proposed s p res s') : Bound s' Q' n := by
  obtain ⟨hp, hb'⟩ := hb
  cases h with
  | failed => exact ⟨hp, hb'⟩
  | newer => exact ⟨hp, hb'⟩
  | refused => exact ⟨hp, hb'⟩
  | skip _ _ _ hc => exact absurd ⟨hp, hnew, hc⟩ hs
  | first hst =>
    rcases hb' with ⟨sp, ap, hs, _⟩ | ⟨_, sp, acc, hs, _⟩ <;> simp [hst] at hs
  | @next sp a hst hlt hc =>
    have hconf := (confirmed_of_check hv hp hst hlt hc).2
    rcases hb' with ⟨sp', ap, hs', hn, hle⟩ | ⟨hq, sp', acc, hs', hn, hacc⟩
    · rw [hst] at hs'
      cases hs'
      have := Proposal.version_mono hle
      exact ⟨hp, Or.inr ⟨rfl, p, none, rfl, by omega, by simp⟩⟩
    · rw [hst] at hs'
      cases hs'
      obtain ⟨ap, v | q', conf⟩ := a
      · exact ⟨hp, Or.inr ⟨hq, p, none, rfl, by omega, by simp⟩⟩
      · simp only at hconf
        subst hconf
        exact absurd ⟨q', ap.version, ⟨sp, ap, hst, rfl⟩, hacc _ rfl⟩ hl
  | @raise st hst hlt =>
    have hver := Proposal.version_le hlt
    rcases hb' with ⟨sp', ap, hs', hn, hle⟩ | ⟨hq, sp', acc, hs', hn, hacc⟩
    · rw [hst] at hs'
      cases hs'
      exact ⟨hp, Or.inl ⟨p, ap, rfl, hn, hle.trans hlt.le⟩⟩
    · rw [hst] at hs'
      cases hs'
      exact ⟨hp, Or.inr ⟨hq, p, acc, rfl, lt_of_lt_of_le hn hver, hacc⟩⟩

theorem bound_accept {v : Value T Id} {res : Except (Error Id) (Proposal Id)} (hb : Bound s Q' n)
    (hr : ¬ Replaces s (.accept q p v)) (hl : ¬ LaterChange s' n) (h : AcceptedAt s p v res s') :
    Bound s' Q' n := by
  obtain ⟨hp, hb'⟩ := hb
  cases h with
  | failed => exact ⟨hp, hb'⟩
  | obsolete => exact ⟨hp, hb'⟩
  | @accepted st hs hpr =>
    rcases hb' with ⟨sp, ap, hs', hn, hle⟩ | ⟨hq, sp, acc, hs', hn, hacc⟩
    · rw [hs] at hs'
      cases hs'
      simp only at hpr
      subst hpr
      have hval : Value.quorum Q' = v := by
        by_contra hne
        exact hr ⟨_, hs, rfl, hne⟩
      subst hval
      -- the same change under the promised proposal: of version `n`, or a later change
      have hver := Proposal.version_mono hle
      refine ⟨hp, Or.inl ⟨sp, sp, rfl, ?_, le_rfl⟩⟩
      by_contra hne
      exact hl ⟨Q', sp.version, ⟨sp, sp, rfl, rfl⟩, by omega⟩
    · rw [hs] at hs'
      cases hs'
      simp only at hpr
      subst hpr
      exact ⟨hp, Or.inr ⟨hq, sp, _, rfl, hn, by rintro a ⟨⟩; exact hn⟩⟩

theorem bound_confirm {res : Except (Error Id) Unit} (hb : Bound s Q' n)
    (h : ConfirmedAt s q p res s') :
    Bound s' Q' n := by
  obtain ⟨hp, hb'⟩ := hb
  cases h with
  | failed => exact ⟨hp, hb'⟩
  | obsolete => exact ⟨hp, hb'⟩
  | already => exact ⟨hp, hb'⟩
  | @confirmed sp a hs _ _ ha =>
    rcases hb' with ⟨sp', ap, hs', _⟩ | ⟨hq, sp', acc, hs', hn, hacc⟩
    · rw [hs] at hs'
      cases hs'
      cases ha
    · rw [hs] at hs'
      cases hs'
      refine ⟨rfl, Or.inr ⟨by simp [hp, hq], sp, _, rfl, hn, ?_⟩⟩
      rintro a' ⟨⟩
      exact hacc a rfl

variable [Inhabited Id]

theorem bound_handle (hv : ⟨0, 1, 0⟩ ≤ s.version) (hb : Bound s Q' n) (hl : ¬ LaterChange s n)
    (hl' : ¬ LaterChange (s.handle r).2 n) (hs : ¬ Skips s r) (hr : ¬ Replaces s r) :
    Bound (s.handle r).2 Q' n := by
  cases r with
  | propose q p =>
    cases hnew : s.newer p with
    | some a => simpa [handle, propose, hnew] using hb
    | none => exact bound_propose hv hb hl hs hnew (propose_cases s q p)
  | accept q p v => exact bound_accept hb hr hl' (accept_cases s q p v)
  | confirm q p => exact bound_confirm hb (confirm_cases s q p)
  | get q => exact hb

theorem bound_refuses (hb : Bound s Q' n) (hl : ¬ LaterChange s n) (hp : r.proposal = some p)
    (hn : n < p.version) (hq : r.quorum ≠ Q') (hs : ¬ Skips s r) :
    (s.handle r).2 = s ∧
      ((∃ pr, (s.handle r).1 = .error (.wrong_quorum Q' r.quorum pr)) ∨ Outdated s r) := by
  have hexp := hb.expected_quorum hl hn
  have hcheck : ∀ q', q' ≠ Q' →
      s.check_quorum q' (some p) = .error (.wrong_quorum Q' q' s.current_proposal) := by
    intro q' hne
    simp [check_quorum, hexp, hne]
  cases r with
  | get q => cases hp
  | propose q p' =>
    cases hp
    cases hnew : s.newer p with
    | some a => simp [handle, propose, Outdated, hnew]
    | none =>
      have hc : s.check_confirmed p = true := by
        by_contra hc
        exact hs ⟨hb.up_to_date, hnew, by simpa using hc⟩
      simp only [handle, propose, hnew, hc, if_true, hcheck q hq]
      exact ⟨trivial, Or.inl ⟨_, rfl⟩⟩
  | accept q p' v =>
    cases hp
    simp only [handle, accept, check_quorum_unless_partial, hb.up_to_date, Bool.false_eq_true,
      if_false, hcheck q hq]
    exact ⟨trivial, Or.inl ⟨_, rfl⟩⟩
  | confirm q p' =>
    cases hp
    by_cases hany : s.state.any (fun st => p.version < st.proposal.version) = true
    · simp only [handle, confirm, hany, if_true]
      refine ⟨trivial, Or.inr ?_⟩
      cases hst : s.state with
      | none => simp [hst] at hany
      | some st => exact ⟨st, hst, by simpa [hst] using hany⟩
    · simp only [handle, confirm, hany, Bool.false_eq_true, if_false, check_quorum_unless_partial,
        hb.up_to_date, hcheck q hq]
      exact ⟨trivial, Or.inl ⟨_, rfl⟩⟩

/-- Once a quorum change is confirmed at version `n`, a call for a later version with another
quorum raises `WrongQuorum`, or is outdated, and the server stays as it was. This holds until a
later change is confirmed, or a proposal that the server cannot follow makes it partial; a
confirmed record is supposed to keep its value. -/
theorem a_confirmed_quorum_binds_a_server_that_follows (id : Id) (quorum : Finset Id)
    (value : Option T) (version : elle.Version) (hv : ⟨0, 1, 0⟩ ≤ version)
    (rs₀ rs : List (Request T Id)) (Q' : Finset Id) (n : Int) (s₀ : Server T Id)
    (hs₀ : s₀ = (new id quorum value version).after rs₀) (hQ : QuorumConfirmed s₀ Q' n)
    (hrs : Calls rs fun pre r => ¬ Skips (s₀.after pre) r ∧ ¬ Replaces (s₀.after pre) r)
    (hl : ∀ pre, pre <+: rs → ¬ LaterChange (s₀.after pre) n)
    (r : Request T Id) (p : Proposal Id) (hp : r.proposal = some p) (hn : n < p.version)
    (hq : r.quorum ≠ Q') (hs : ¬ Skips (s₀.after rs) r) :
    ((s₀.after rs).handle r).2 = s₀.after rs ∧
      ((∃ pr, ((s₀.after rs).handle r).1 = .error (.wrong_quorum Q' r.quorum pr)) ∨
        Outdated (s₀.after rs) r) := by
  have hord := after_ordered id quorum value version rs₀
  rw [← hs₀] at hord
  have hver : ∀ pre, ⟨0, 1, 0⟩ ≤ (s₀.after pre).version := by
    intro pre
    rw [after_version, hs₀, after_version]
    exact hv
  have h0 : Bound s₀ Q' n := by
    obtain ⟨sp, ap, hst, hap⟩ := hQ
    obtain ⟨hle, hpart⟩ := hord sp _ hst
    exact ⟨hpart rfl, Or.inl ⟨sp, ap, hst, hap, hle⟩⟩
  have hb : Bound (s₀.after rs) Q' n := by
    refine after_invariant (P := fun s => Bound s Q' n) h0 ?_ rs (List.prefix_refl rs)
    intro pre r hpre hb
    refine bound_handle (hver pre) hb (hl pre ((List.prefix_append pre [r]).trans hpre)) ?_
      (hrs pre r hpre).1 (hrs pre r hpre).2
    rw [← after_append]
    exact hl _ hpre
  exact bound_refuses hb (hl rs (List.prefix_refl rs)) hp hn hq hs

/-- What a confirmed quorum would promise of every server: the wrong quorum is always an error. -/
def QuorumBinds (T Id : Type) [LinearOrder Id] [Inhabited Id] : Prop :=
  ∀ (id : Id) (quorum : Finset Id) (value : Option T) (version : elle.Version)
    (rs₀ rs : List (Request T Id)) (Q' : Finset Id) (n : Int) (s₀ : Server T Id),
    s₀ = (new id quorum value version).after rs₀ → QuorumConfirmed s₀ Q' n →
    (∀ pre, pre <+: rs → ¬ LaterChange (s₀.after pre) n) →
    ∀ (r : Request T Id) (p : Proposal Id), r.proposal = some p → n < p.version →
      r.quorum ≠ Q' → ((s₀.after rs).handle r).2 = s₀.after rs ∧
        ∃ e pr, ((s₀.after rs).handle r).1 = .error (.wrong_quorum e r.quorum pr)

/-- The calls that elect the quorum `{1, 2}` at version 0 on server 1. -/
def electTwo : List (Request Nat Nat) :=
  [.propose {1} ⟨0, 1, 1⟩, .accept {1} ⟨0, 1, 1⟩ (.quorum {1, 2}), .confirm {1} ⟨0, 1, 1⟩]

theorem electTwo_confirmed :
    QuorumConfirmed ((new 1 {1} none ⟨0, 4, 0⟩ : Server Nat Nat).after electTwo) {1, 2} 0 :=
  ⟨⟨0, 1, 1⟩, ⟨0, 1, 1⟩, rfl, rfl⟩

/-- The next version is proposed to the quorum that was elected. -/
def nextVersion : List (Request Nat Nat) := [.propose {1, 2} ⟨1, 1, 1⟩]

theorem electTwo_no_later (pre : List (Request Nat Nat)) (h : pre <+: nextVersion) :
    ¬ LaterChange (((new 1 {1} none ⟨0, 4, 0⟩ : Server Nat Nat).after electTwo).after pre) 0 := by
  rintro ⟨Q, m, ⟨sp, ap, hs, rfl⟩, hlt⟩
  rcases List.prefix_cons_iff.mp h with rfl | ⟨rest, rfl, hrest⟩
  · cases hs
    exact absurd hlt (by decide)
  · obtain rfl := List.prefix_nil.mp hrest
    cases hs

/-- A proposal that skips version 1 is promised with any quorum. -/
theorem a_skipped_version_drops_the_confirmed_quorum : ¬ QuorumBinds Nat Nat := by
  intro h
  obtain ⟨hsame, _⟩ := h 1 {1} none ⟨0, 4, 0⟩ electTwo [] {1, 2} 0 _ rfl electTwo_confirmed
    (fun pre hpre => electTwo_no_later pre (hpre.trans List.nil_prefix))
    (.propose {3} ⟨2, 1, 3⟩) ⟨2, 1, 3⟩ rfl (by decide) (by decide)
  exact absurd (congrArg partial_state hsame) (by decide)

theorem the_elected_quorum_binds_the_next_version :
    let s := (new 1 {1} none ⟨0, 4, 0⟩ : Server Nat Nat).after electTwo |>.after nextVersion
    (s.handle (.accept {1} ⟨1, 1, 1⟩ (.value 7))).2 = s ∧
      ((∃ pr, (s.handle (.accept {1} ⟨1, 1, 1⟩ (.value 7))).1 =
          .error (.wrong_quorum {1, 2} {1} pr)) ∨
        Outdated s (.accept {1} ⟨1, 1, 1⟩ (.value 7))) := by
  refine a_confirmed_quorum_binds_a_server_that_follows 1 {1} none ⟨0, 4, 0⟩ (by decide) electTwo
    nextVersion {1, 2} 0 _ rfl electTwo_confirmed (fun pre r h => ?_) electTwo_no_later _
    ⟨1, 1, 1⟩ rfl (by decide) (by decide) (fun h => h)
  have hall := h.eq_of_length_le (by simp [nextVersion])
  obtain ⟨rfl, rfl⟩ : pre = [] ∧ r = .propose {1, 2} ⟨1, 1, 1⟩ := by
    simpa [nextVersion, List.append_eq_singleton_iff] using hall
  exact ⟨fun h => absurd h.2.2 (by decide), fun h => h⟩

end Server

end athena.paxos
