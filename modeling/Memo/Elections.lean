-- The election that `propagate` runs on one acceptor, and what the storage
-- keeps of an acceptor. A call that fails changes nothing, but for an election
-- that confirms over the quorum of an earlier version.
import Memo.Repartition
import Memo.ServerLaws

open ops athena.paxos

namespace athena.paxos.Server

variable {T Id : Type}
variable {d : Server T Id} {q : Finset Id} {p : Proposal Id}

/-! ## The stored form -/

theorem stored_stored (d : Server T Id) (v : elle.Version) :
    (d.stored v).stored v = d.stored v := by
  obtain ⟨_, _, _, _, _, _ | ⟨_, _ | _⟩⟩ := d <;> unfold stored <;> split_ifs <;> rfl

theorem stored_of_version {v : elle.Version} (hv : ⟨0, 2, 0⟩ ≤ v) (hd : d.version = v) :
    d.stored v = d := by
  subst hd
  have h1 : ¬ d.version < ⟨0, 1, 0⟩ := not_lt.mpr (le_trans (by decide) hv)
  unfold stored
  simp only [h1, not_lt.mpr hv, if_false]

variable [LinearOrder Id] [Inhabited Id]

/-- The formats before 0.2.0 forget that versions were missed. -/
example : (stored { Server.new 1 {1} (some 5) ⟨0, 1, 0⟩ with partial_state := true }
    ⟨0, 1, 0⟩ : Server Nat Nat).partial_state = false := rfl

omit [Inhabited Id] in
theorem Ordered.stored {v : elle.Version} (hv : ⟨0, 1, 0⟩ ≤ v) (h : Ordered d) :
    Ordered (d.stored v) := by
  intro sp a hs
  have hs' : d.state = some ⟨sp, some a⟩ := by
    unfold Server.stored at hs
    simpa only [not_lt.mpr hv, if_false] using hs
  refine ⟨(h sp a hs').1, fun hc => ?_⟩
  unfold Server.stored
  simp only [(h sp a hs').2 hc]
  split_ifs <;> rfl

/-! ## The calls that fail change nothing -/

theorem propose_failed {e : Error Id} (h : (d.propose q p).1 = .error e) :
    (d.propose q p).2 = d := by
  revert h
  apply propose_rule (P := fun res s' => res = .error e → s' = d)
  intro res s' hc
  cases hc with
  | failed => exact fun _ => rfl
  | _ => exact fun h => by cases h

theorem accept_failed {v : Value T Id} {e : Error Id} (h : (d.accept q p v).1 = .error e) :
    (d.accept q p v).2 = d := by
  revert h
  apply accept_rule (P := fun res s' => res = .error e → s' = d)
  intro res s' hc
  cases hc with
  | failed => exact fun _ => rfl
  | _ => exact fun h => by cases h

theorem confirm_failed {e : Error Id} (h : (d.confirm q p).1 = .error e) :
    (d.confirm q p).2 = d := by
  revert h
  apply confirm_rule (P := fun res s' => res = .error e → s' = d)
  intro res s' hc
  cases hc with
  | failed => exact fun _ => rfl
  | _ => exact fun h => by cases h

/-- The quorum passes the check of `accept` and `confirm`. -/
def Passes (d : Server T Id) (q : Finset Id) (p : Proposal Id) : Prop :=
  d.partial_state = true ∨ q = d.expected_quorum (some p)

theorem check_quorum_unless_partial_of_passes (h : Passes d q p) :
    d.check_quorum_unless_partial q p = .ok () := by
  unfold check_quorum_unless_partial check_quorum
  rcases h with h | h
  · simp [h]
  · simp [← h]

theorem passes_of_check (h : d.check_quorum_unless_partial q p = .ok ()) : Passes d q p := by
  unfold check_quorum_unless_partial check_quorum at h
  by_cases hp : d.partial_state = true
  · exact Or.inl hp
  · simp only [hp, Bool.false_eq_true, if_false] at h
    split_ifs at h with hq
    exact Or.inr (not_not.mp hq)

/-- The promise is ready for a whole election: its quorum passes both checks. -/
def Ready (d : Server T Id) (q : Finset Id) (p : Proposal Id) : Prop :=
  (∃ acc, d.state = some ⟨p, acc⟩) ∧ Passes d q p ∧ (d.partial_state = true ∨ q = d.quorum)

/-- The confirmed quorum of an earlier version stands under the promise of this version: it is
the quorum that is expected now, and no more after the vote. -/
def Stale (d : Server T Id) (q : Finset Id) (p : Proposal Id) : Prop :=
  ∃ sp ap, d.state = some ⟨sp, some ⟨ap, .quorum q, true⟩⟩ ∧ ap.version < p.version ∧
    sp.version = p.version ∧ sp ≤ p ∧ q ≠ d.quorum

omit [LinearOrder Id] [Inhabited Id] in
theorem expected_quorum_cases (d : Server T Id) (p : Proposal Id) :
    d.expected_quorum (some p) = d.quorum ∨
      ∃ sp ap, d.state = some ⟨sp, some ⟨ap, .quorum (d.expected_quorum (some p)), true⟩⟩ ∧
        ap.version < p.version := by
  unfold expected_quorum
  split
  · rename_i sp ap q hs
    by_cases hlt : ap.version < p.version
    · right
      exact ⟨sp, ap, by simpa [hlt] using hs, hlt⟩
    · left
      simp [hlt]
  · left
    rfl

omit [Inhabited Id] in
theorem quorum_of_passes (h : Passes d q p) (hs : ¬ Stale d q p)
    (hv : ∀ st, d.state = some st → st.proposal.version = p.version ∧ st.proposal ≤ p) :
    d.partial_state = true ∨ q = d.quorum := by
  rcases h with h | h
  · exact Or.inl h
  · right
    rcases expected_quorum_cases d p with he | ⟨sp, ap, hst, hlt⟩
    · rw [h, he]
    · by_contra hne
      rw [← h] at hst
      exact hs ⟨sp, ap, hst, hlt, (hv _ hst).1, (hv _ hst).2, hne⟩

theorem accept_passes {v : Value T Id} {r : Proposal Id} (h : (d.accept q p v).1 = .ok r) :
    Passes d q p := by
  apply passes_of_check
  unfold accept at h
  split at h
  · cases h
  · assumption

theorem accept_ready (h : Ready d q p) :
    ∃ c, d.accept q p (.quorum q) =
      (.ok p, { d with state := some ⟨p, some ⟨p, .quorum q, c⟩⟩ }) := by
  obtain ⟨⟨acc, hs⟩, hpass, -⟩ := h
  unfold accept
  rw [check_quorum_unless_partial_of_passes hpass, hs]
  cases acc with
  | none => exact ⟨false, by simp⟩
  | some a => exact ⟨a.confirmed, by simp⟩

theorem confirm_voted {c : Bool} (hq : d.partial_state = true ∨ q = d.quorum)
    (hs : d.state = some ⟨p, some ⟨p, .quorum q, c⟩⟩) : (d.confirm q p).1 = .ok () := by
  have hpass : Passes d q p := by
    rcases hq with hq | hq
    · exact Or.inl hq
    · right
      rcases expected_quorum_cases d p with he | ⟨sp, ap, hst, hlt⟩
      · rw [he, hq]
      · rw [hs] at hst
        cases hst
        exact absurd hlt (lt_irrefl _)
  unfold confirm
  rw [check_quorum_unless_partial_of_passes hpass, hs]
  cases c <;> simp

theorem propose_checked {r : Response T Id} (hn : d.newer p = none)
    (h : (d.propose q p).1 = .ok r) :
    (d.propose q p).2.partial_state = true ∨
      d.check_confirmed p = true ∧ q = d.expected_quorum (some p) := by
  unfold propose at h ⊢
  rw [hn] at h ⊢
  by_cases hc : d.check_confirmed p = true
  · right
    refine ⟨hc, ?_⟩
    simp only [hc, if_true, check_quorum] at h
    by_contra hq
    simp [hq] at h
  · left
    have hpartial : ∀ s : Server T Id, s.partial_state = true →
        (s.promise p).2.partial_state = true := by
      intro s hs
      unfold promise
      split
      · exact hs
      · split
        · exact hs
        · split <;> exact hs
    simp only [hc]
    by_cases hp : d.partial_state = true
    · simp only [hp, Bool.not_true, Bool.false_eq_true, if_false]
      exact hpartial d hp
    · simp only [hp, Bool.not_false, Bool.false_eq_true, if_false, if_true]
      exact hpartial _ rfl

theorem propose_ready {r : Response T Id} (hv : ⟨0, 1, 0⟩ ≤ d.version) (ho : Ordered d)
    (hs : ¬ Stale d q p) (h : (d.propose q p).1 = .ok r) :
    (d.propose q p).2 = d ∨ Ready (d.propose q p).2 q p := by
  cases hn : d.newer p with
  | some a =>
    left
    unfold propose
    rw [hn]
  | none =>
    have hcheck := propose_checked hn h
    revert hcheck
    apply propose_rule (P := fun _ s' => s'.partial_state = true ∨
      d.check_confirmed p = true ∧ q = d.expected_quorum (some p) → s' = d ∨ Ready s' q p)
    intro res s' hc hcheck
    cases hc with
    | failed => exact Or.inl rfl
    | newer => exact Or.inl rfl
    | refused => exact Or.inl rfl
    | first hst =>
      right
      have hq : d.expected_quorum (some p) = d.quorum := by simp [expected_quorum, hst]
      refine ⟨⟨none, rfl⟩, hcheck.imp_right fun h => ?_, hcheck.imp_right fun h => ?_⟩
      · rw [h.2, hq]
        rfl
      · rw [h.2, hq]
    | skip => exact Or.inr ⟨⟨none, rfl⟩, Or.inl rfl, Or.inl rfl⟩
    | @raise st hst hlt hver =>
      right
      have hsame : ({ d with state := some ⟨p, st.accepted⟩ } : Server T Id).expected_quorum
          (some p) = d.expected_quorum (some p) := by
        unfold expected_quorum
        obtain ⟨sp, _ | ⟨ap, _ | _, _ | _⟩⟩ := st <;> rw [hst]
      have hpass : d.partial_state = true ∨ q = d.expected_quorum (some p) :=
        hcheck.imp_right And.right
      refine ⟨⟨st.accepted, rfl⟩, ?_, ?_⟩
      · rcases hpass with h | h
        · exact Or.inl h
        · exact Or.inr (by rw [hsame, h])
      · rcases hver with hver | hver
        · apply quorum_of_passes hpass hs
          intro st' hst'
          rw [hst] at hst'
          cases hst'
          exact ⟨hver, hlt.le⟩
        · exact Or.inl hver
    | @next sp a hst hlt hconf =>
      right
      have hq : (d.commit a).quorum = d.expected_quorum (some p) := by
        have hp : d.partial_state = false := by
          by_contra hp
          rw [ check_confirmed_partial (by simpa using hp) (not_lt.mpr hv)] at hconf
          cases hconf
        have ha := (confirmed_of_check hv hp hst hlt hconf).2
        have hle := Proposal.version_mono (ho sp a hst).1
        obtain ⟨ap, _ | q', c⟩ := a
        · simp [commit, expected_quorum, hst]
        · simp only at ha hle
          have hlt' : ap.version < p.version := by omega
          simp [commit, expected_quorum, hst, ha, hlt']
      have hpass : (d.commit a).partial_state = true ∨ q = (d.commit a).quorum := by
        rw [hq]
        exact hcheck.imp_right And.right
      exact ⟨⟨none, rfl⟩, hpass, hpass⟩

end athena.paxos.Server

namespace memo.LocalPeer

variable {B A R : Type} [LinearOrder A] [Inhabited A]
variable {d : Server B A} {q : Finset A} {p : Proposal A}

/-! ## The election of an acceptor -/

theorem elect_invariant {P : Server B A → Prop} (h : ∀ s r, P s → P (s.handle r).2) (hd : P d) :
    P (elect d q p).2 := by
  have h1 : P (d.propose q p).2 := h d (.propose q p) hd
  unfold elect
  split
  · rename_i heq
    rwa [heq] at h1
  · rename_i heq
    rw [heq] at h1
    have h2 := h _ (.accept q p (.quorum q)) h1
    simp only [Server.handle] at h2
    split
    · rename_i heq'
      rwa [heq'] at h2
    · rename_i heq'
      rw [heq'] at h2
      exact h _ (.confirm q p) h2

theorem elect_version : (elect d q p).2.version = d.version :=
  elect_invariant (P := fun s => s.version = d.version)
    (fun s r h => (Server.handle_version s r).trans h) rfl

theorem elect_ordered (h : Server.Ordered d) : Server.Ordered (elect d q p).2 :=
  elect_invariant (fun _ _ h => Server.handle_ordered h) h

theorem elect_failed {e : Error A} (hv : ⟨0, 1, 0⟩ ≤ d.version) (ho : Server.Ordered d)
    (hs : ¬ Server.Stale d q p) (h : (elect d q p).1 = .error e) : (elect d q p).2 = d := by
  unfold elect at h ⊢
  cases hp : d.propose q p with
  | mk res d1 =>
    rw [hp] at h
    cases res with
    | error e' =>
      have := Server.propose_failed (d := d) (q := q) (p := p) (e := e') (by rw [hp])
      rwa [hp] at this
    | ok r =>
      have hready := Server.propose_ready hv ho hs (r := r) (by rw [hp])
      rw [hp] at hready
      have hvote : ∀ s : Server B A, Server.Ready s q p →
          ∃ s', s.accept q p (.quorum q) = (.ok p, s') ∧ (s'.confirm q p).1 = .ok () := by
        intro s hr
        obtain ⟨c, hc⟩ := Server.accept_ready hr
        exact ⟨_, hc, Server.confirm_voted (by exact hr.2.2) rfl⟩
      rcases hready with hsame | hready
      · simp only at hsame h ⊢
        subst hsame
        -- the promise was refused, and the vote may still be for the promised proposal
        have hcases := Server.accept_cases d1 q p (.quorum q)
        cases ha : d1.accept q p (.quorum q) with
        | mk res d2 =>
          rw [ha] at hcases h
          cases hcases with
          | failed => rfl
          | obsolete => exact Server.confirm_failed h
          | @accepted st hst hpst =>
            have hpass := Server.accept_passes (d := d1) (v := .quorum q) (by rw [ha])
            have hquorum := Server.quorum_of_passes hpass hs (by
              intro st' hst'
              rw [hst] at hst'
              cases hst'
              exact ⟨by rw [hpst], hpst.le⟩)
            obtain ⟨s', ha', hc⟩ := hvote d1 ⟨⟨st.accepted, by rw [hst, ← hpst]⟩, hpass, hquorum⟩
            rw [ha] at ha'
            cases ha'
            rw [hc] at h
            cases h
      · obtain ⟨s', ha, hc⟩ := hvote d1 hready
        simp only [ha, hc] at h
        cases h

/-- A change to the quorum 1, 2 that was confirmed by a late server under the promise of a later
version: the election fails, after the vote. -/
example : let d : Server Nat Nat := ⟨1, {1}, some 5, ⟨0, 4, 0⟩, false,
      some ⟨⟨6, 0, 1⟩, some ⟨⟨5, 0, 1⟩, .quorum {1, 2}, true⟩⟩⟩
    (elect d {1, 2} ⟨6, 0, 1⟩).1 = .error (.wrong_quorum {1} {1, 2} (some ⟨6, 0, 1⟩)) ∧
      (elect d {1, 2} ⟨6, 0, 1⟩).2.state =
        some ⟨⟨6, 0, 1⟩, some ⟨⟨6, 0, 1⟩, .quorum {1, 2}, true⟩⟩ :=
  ⟨rfl, rfl⟩

/-- The election changes nothing: the acceptor is past the proposal, or it has the vote already,
confirmed. -/
def Unmoved (d : Server B A) (q : Finset A) (p : Proposal A) : Prop :=
  Server.Passes d q p ∧ ∃ sp acc, d.state = some ⟨sp, acc⟩ ∧
    (p.version < sp.version ∨ ∃ a, acc = some a ∧ a.confirmed = true ∧
      (p < sp ∨ p = sp ∧ a = ⟨p, .quorum q, true⟩))

theorem propose_unmoved {st : VersionState B A} (hv : ⟨0, 1, 0⟩ ≤ d.version)
    (hpass : Server.Passes d q p) (hs : d.state = some st) (hle : p ≤ st.proposal) :
    ∃ r, d.propose q p = (.ok r, d) := by
  have hpromise : ∃ r, d.promise p = (.ok r, d) := by
    unfold Server.promise
    rw [hs]
    simp only [not_lt.mpr hle, if_false]
    cases st.accepted <;> exact ⟨_, rfl⟩
  have hver : ¬ st.proposal.version < p.version := not_lt.mpr (Proposal.version_mono hle)
  unfold Server.propose
  cases hn : d.newer p with
  | some a => exact ⟨_, rfl⟩
  | none =>
    simp only
    by_cases hp : d.partial_state = true
    · rw [ Server.check_confirmed_partial hp (not_lt.mpr hv)]
      simpa [hp] using hpromise
    · have hc : d.check_confirmed p = true := by
        simp [Server.check_confirmed, hp, hs, not_lt.mp hver]
      have hq : q = d.expected_quorum (some p) := hpass.resolve_left hp
      simp only [hc, if_true, Server.check_quorum, ← hq, ne_eq, not_true_eq_false, if_false, hs,
        gt_iff_lt, hver]
      exact hpromise

theorem elect_unmoved (hv : ⟨0, 1, 0⟩ ≤ d.version) (h : Unmoved d q p) :
    elect d q p = (.ok (), d) := by
  obtain ⟨hpass, sp, acc, hs, hcase⟩ := h
  have hcheck := Server.check_quorum_unless_partial_of_passes hpass
  have hle : p ≤ sp := by
    rcases hcase with hlt | ⟨a, -, -, hlt | ⟨heq, -⟩⟩
    · exact (Proposal.lt_of_version hlt).le
    · exact hlt.le
    · exact heq.le
  obtain ⟨r, hr⟩ := propose_unmoved hv hpass hs hle
  have haccept : ∃ r, d.accept q p (.quorum q) = (.ok r, d) := by
    unfold Server.accept
    rw [hcheck, hs]
    simp only [not_lt.mpr hle, if_false]
    by_cases hlt : p < sp
    · exact ⟨sp, by simp [hlt]⟩
    · rcases hcase with hlt' | ⟨a, ha, -, hlt' | ⟨rfl, rfl⟩⟩
      · exact absurd (Proposal.lt_of_version hlt') hlt
      · exact absurd hlt' hlt
      · subst ha
        exact ⟨p, by simp [← hs]⟩
  have hconfirm : d.confirm q p = (.ok (), d) := by
    unfold Server.confirm
    rw [hcheck, hs]
    simp only [Option.any_some, decide_eq_true_eq]
    by_cases hlt : p.version < sp.version
    · simp [hlt]
    · obtain ⟨a, rfl, hc, -⟩ := hcase.resolve_left hlt
      simp [hlt, not_lt.mpr hle, hc]
  obtain ⟨r', hr'⟩ := haccept
  unfold elect
  rw [hr]
  simp only [hr', hconfirm]

end memo.LocalPeer
