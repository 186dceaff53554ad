-- Agreement. A server answers a proposal with its accepted value, under the
-- proposal that it had promised, which is not always the one under which the
-- value was accepted. While the two are the same, each version decides one
-- value.
import Memo.PaxosPromises

open majority voting runs

namespace athena.paxos.World

variable {T Id : Type} [LinearOrder Id]
variable {w w' : World T Id} {Q : Finset Id}

/-! ## What a server keeps -/

/-- What the state of a server says about the votes: the promise is above the votes, the record
is the last vote of the version, and a confirmed value was chosen. -/
structure Records (w : World T Id) (Q : Finset Id) (s : Id) (sv : Server T Id) : Prop where
  below : ∀ p v, w.Voted Q s p v → ∃ st, sv.state = some st ∧ p ≤ st.proposal ∧
    (p.version = st.proposal.version → ∃ a, st.accepted = some a ∧ p ≤ a.proposal)
  record : ∀ sp a, sv.state = some ⟨sp, some a⟩ →
    w.Voted Q s a.proposal a.value ∧ a.proposal ≤ sp
  confirmed : ∀ sp a, sv.state = some ⟨sp, some a⟩ → a.confirmed = true →
    sv.partial_state = false ∧ a.proposal.version = sp.version ∧
      ∃ p₀ ≤ a.proposal, p₀.version = a.proposal.version ∧ w.Chosen Q p₀ a.value

namespace Records

variable {s : Id} {sv sv' : Server T Id} {p : Proposal Id}

theorem follows (h : Records w Q s sv) (hf : Follows w w')
    (hv : ∀ p v, w'.Voted Q s p v → w.Voted Q s p v) : Records w' Q s sv := by
  refine ⟨fun p v hp => h.below p v (hv p v hp), ?_, ?_⟩
  · intro sp a hs
    obtain ⟨hvote, hle⟩ := h.record sp a hs
    exact ⟨hvote.follows hf, hle⟩
  · intro sp a hs ha
    obtain ⟨hpart, hver, p₀, hle, hver₀, hc⟩ := h.confirmed sp a hs ha
    exact ⟨hpart, hver, p₀, hle, hver₀, hc.follows hf⟩

theorem later (h : Records w Q s sv) {st : VersionState T Id} (hs : sv.state = some st)
    (hv : st.proposal.version < p.version) (hs' : sv'.state = some ⟨p, none⟩) :
    Records w Q s sv' := by
  refine ⟨?_, by simp [hs'], by simp [hs']⟩
  intro p' v hp'
  obtain ⟨st', hst', hle, -⟩ := h.below p' v hp'
  rw [hs] at hst'
  cases hst'
  have := Proposal.version_mono hle
  refine ⟨_, hs', hle.trans (Proposal.lt_of_version hv).le, ?_⟩
  intro heq
  simp only at heq
  omega

theorem propose (h : Records w Q s sv) {res : Except (Error Id) (Response T Id)}
    (hp : Server.Proposed sv p res sv') : Records w Q s sv' := by
  cases hp with
  | failed e => exact h
  | newer hs hv => exact h
  | first hs =>
    refine ⟨?_, by simp, by simp⟩
    intro p' v hp'
    obtain ⟨st, hst, -⟩ := h.below p' v hp'
    rw [hs] at hst
    cases hst
  | next hs hv hc => exact h.later hs hv rfl
  | skip hs hv hpart hc => exact h.later hs hv rfl
  | @raise st hs hlt hv =>
    obtain ⟨sp₀, acc⟩ := st
    refine ⟨?_, ?_, ?_⟩
    · intro p' v hp'
      obtain ⟨st', hst', hle, hlast⟩ := h.below p' v hp'
      rw [hs] at hst'
      cases hst'
      refine ⟨_, rfl, hle.trans hlt.le, ?_⟩
      intro heq
      have h1 := Proposal.version_mono hle
      have h2 := Proposal.version_le hlt
      simp only at heq
      exact hlast (by omega)
    · rintro sp a ⟨⟩
      obtain ⟨hvote, hle⟩ := h.record sp₀ a hs
      exact ⟨hvote, hle.trans hlt.le⟩
    · rintro sp a ⟨⟩ ha
      obtain ⟨hpart, hver, hc⟩ := h.confirmed sp₀ a hs ha
      refine ⟨hpart, ?_, hc⟩
      rcases hv with hv | hv
      · exact hver.trans hv
      · simp [hpart] at hv
  | refused hs hle => exact h

theorem confirm (h : Records w Q s sv) (hsound : Sound (w.ledger Q) Q Proposal.version)
    (hb : w.Backed Q s p) {q : Finset Id} {res : Except (Error Id) Unit}
    (hc : Server.ConfirmedAt sv q p res sv') : Records w Q s sv' := by
  cases hc with
  | failed e => exact h
  | obsolete hs hv => exact h
  | already hs hle hv ha => exact h
  | @confirmed sp a hs hle hv ha =>
    obtain ⟨v, hvote, hchosen⟩ := hb
    -- the record is the last vote of the version, so it is not below the confirmed proposal
    obtain ⟨st, hst, -, hlast⟩ := h.below p v hvote
    rw [hs] at hst
    cases hst
    obtain ⟨a', ha', hpa⟩ := hlast hv
    cases ha'
    obtain ⟨havote, hasp⟩ := h.record sp a hs
    have h1 := Proposal.version_mono hpa
    have h2 := Proposal.version_mono hasp
    have hav : a.proposal.version = sp.version := by omega
    have hpv : p.version = a.proposal.version := by omega
    refine ⟨?_, ?_, ?_⟩
    · intro p' v' hp'
      obtain ⟨st, hst, hle', hlast'⟩ := h.below p' v' hp'
      rw [hs] at hst
      cases hst
      refine ⟨_, rfl, hle', ?_⟩
      intro heq
      obtain ⟨a', ha', hle''⟩ := hlast' heq
      cases ha'
      exact ⟨_, rfl, hle''⟩
    · rintro sp' a' ⟨⟩
      exact ⟨havote, hasp⟩
    · rintro sp' a' ⟨⟩ -
      have hval : v = a.value := hsound.eq_of_decided hchosen havote hpa hpv
      exact ⟨rfl, hav, p, hpa, hpv, hval ▸ hchosen⟩

theorem accept (h : Records w Q s sv) (hf : Follows w w') {v : Value T Id}
    {st : VersionState T Id} (hs : sv.state = some st) (hp : st.proposal = p)
    (hsound : Sound (w'.ledger Q) Q Proposal.version) (hnew : w'.Voted Q s p v)
    (hold : ∀ p' v', w'.Voted Q s p' v' → w.Voted Q s p' v' ∨ p' = p) :
    Records w' Q s { sv with state := some ⟨p, some ⟨p, v, st.confirmed⟩⟩ } := by
  refine ⟨?_, ?_, ?_⟩
  · intro p' v' hp'
    have hle : p' ≤ p := by
      rcases hold p' v' hp' with hp' | rfl
      · obtain ⟨st', hst', hle, -⟩ := h.below p' v' hp'
        rw [hs] at hst'
        cases hst'
        exact hp ▸ hle
      · exact le_rfl
    exact ⟨_, rfl, hle, fun _ => ⟨_, rfl, hle⟩⟩
  · rintro sp a ⟨⟩
    exact ⟨hnew, le_rfl⟩
  · rintro sp a ⟨⟩ hc
    -- the record that was confirmed already keeps its value
    obtain ⟨sp, acc⟩ := st
    cases acc with
    | none => simp [VersionState.confirmed] at hc
    | some a₀ =>
      simp only [VersionState.confirmed, Option.any_some] at hc hp
      subst hp
      obtain ⟨hpart, hver, p₀, hle, hver₀, hchosen⟩ := h.confirmed sp a₀ hs hc
      have hle₀ : p₀ ≤ sp := hle.trans (h.record sp a₀ hs).2
      have hval : a₀.value = v :=
        hsound.eq_of_decided (hchosen.follows hf) hnew hle₀ (hver₀.trans hver)
      exact ⟨hpart, rfl, p₀, hle₀, hver₀.trans hver, hval ▸ hchosen.follows hf⟩

end Records

/-! ## What an answer to a proposal says -/

/-- An answer that grants the proposal reports a label that is not below the votes of the version;
the value reported was accepted under its label. A confirmed answer carries a chosen value. -/
structure Reported (w : World T Id) (Q : Finset Id) (s : Id) (p : Proposal Id)
    (r : Response T Id) : Prop where
  labelled : r.Labelled
  last : r.Grants p → ∀ p' v', w.Voted Q s p' v' → p' < p → p'.version = p.version →
    ∃ l u, r.proposal = some l ∧ r.value = some u ∧ p' ≤ l
  vote : r.Grants p → r.confirmed = false → ∀ l u, r.proposal = some l → r.value = some u →
    l.version = p.version → w.Voted Q s l u
  choice : ∀ c, r.choice = some c → ∃ u p₀, c.value = some u ∧
    p₀.version = c.proposal.version ∧ w.Chosen Q p₀ u

/-- An unconfirmed record that the server reports with a new promise of the same version was
accepted under the proposal that the server promised last. -/
def TrueLabel (sv : Server T Id) (p : Proposal Id) : Prop :=
  ∀ st ∈ sv.state, ∀ a ∈ st.accepted, a.confirmed = false → st.proposal < p →
    st.proposal.version = p.version → a.proposal = st.proposal

instance (sv : Server T Id) (p : Proposal Id) : Decidable (TrueLabel sv p) :=
  inferInstanceAs (Decidable (∀ st ∈ sv.state, ∀ a ∈ st.accepted, a.confirmed = false →
    st.proposal < p → st.proposal.version = p.version → a.proposal = st.proposal))

theorem Records.choice {s : Id} {sv : Server T Id} (h : Records w Q s sv) {sp : Proposal Id}
    {a : Accepted T Id} (hs : sv.state = some ⟨sp, some a⟩) {l : Proposal Id}
    (hl : a.confirmed = true → l.version = a.proposal.version) {c : Choice T Id}
    (hc : Response.choice ⟨some l, some a.value, a.confirmed⟩ = some c) :
    ∃ u p₀, c.value = some u ∧ p₀.version = c.proposal.version ∧ w.Chosen Q p₀ u := by
  cases ha : a.confirmed with
  | false => simp [Response.choice, ha] at hc
  | true =>
    simp only [Response.choice, ha, Option.some.injEq] at hc
    subst hc
    obtain ⟨-, -, p₀, -, hver₀, hchosen⟩ := h.confirmed sp a hs ha
    exact ⟨a.value, p₀, rfl, hver₀.trans (hl ha).symm, hchosen⟩

variable {v : Value T Id} {i k : Nat} {r : Response T Id} {a : Action T Id}

theorem Records.reported {s : Id} {sv sv' : Server T Id} {p : Proposal Id} (h : Records w Q s sv)
    (ht : TrueLabel sv p) (hp : Server.Proposed sv p (.ok r) sv') :
    Reported w Q s p r := by
  -- no vote of the version when the server promises a later one
  have hnone : (∀ st, sv.state = some st → st.proposal.version < p.version) →
      ∀ p' v', w.Voted Q s p' v' → p'.version ≠ p.version := by
    intro hlater p' v' hv' heq
    obtain ⟨st, hst, hle, -⟩ := h.below p' v' hv'
    have h1 := Proposal.version_mono hle
    have h2 := hlater st hst
    omega
  have hempty : (∀ st, sv.state = some st → st.proposal.version < p.version) →
      Reported w Q s p ⟨none, none, false⟩ := by
    intro hlater
    refine ⟨by simp [Response.Labelled], ?_, by simp, by simp [Response.choice]⟩
    exact fun _ p' v' hv' _ heq => absurd heq (hnone hlater p' v' hv')
  cases hp with
  | @newer sp a hs hv =>
    have hgt : ¬ Response.Grants ⟨some a.proposal, some a.value, a.confirmed⟩ p :=
      fun hg => absurd (hg _ rfl) (not_lt.mpr (Proposal.lt_of_version hv).le)
    exact ⟨by simp [Response.Labelled], fun hg => absurd hg hgt, fun hg => absurd hg hgt,
      fun c hc => h.choice hs (fun _ => rfl) hc⟩
  | first hs => exact hempty (by simp [hs])
  | next hs hv hc | skip hs hv hpart hc => exact hempty (by rw [hs]; rintro st ⟨⟩; exact hv)
  | @raise st hs hlt hv =>
    obtain ⟨sp, acc⟩ := st
    cases acc with
    | none =>
      refine ⟨by simp [Response.Labelled, VersionState.report], ?_,
        by simp [VersionState.report], by simp [VersionState.report, Response.choice]⟩
      intro _ p' v' hv' hlt' heq
      obtain ⟨st', hst', hle, hlast⟩ := h.below p' v' hv'
      rw [hs] at hst'
      cases hst'
      have h1 := Proposal.version_mono hle
      have h2 := Proposal.version_le hlt
      simp only at h1 h2
      obtain ⟨a, ha, -⟩ := hlast (by simp only; omega)
      cases ha
    | some a =>
      simp only [VersionState.report]
      refine ⟨by simp [Response.Labelled], ?_, ?_, ?_⟩
      · intro _ p' v' hv' _ _
        obtain ⟨st', hst', hle, -⟩ := h.below p' v' hv'
        rw [hs] at hst'
        cases hst'
        exact ⟨sp, a.value, rfl, rfl, hle⟩
      · rintro - ha l u ⟨⟩ ⟨⟩ hver
        have hlabel : a.proposal = sp := ht ⟨sp, some a⟩ hs a rfl ha hlt hver
        exact hlabel ▸ (h.record sp a hs).1
      · exact fun c hc => h.choice hs (fun ha => (h.confirmed sp a hs ha).2.1.symm) hc
  | @refused st hs hle =>
    have hge : ¬ Response.Grants st.refusal p := fun hg => absurd (hg _ rfl) (not_lt.mpr hle)
    refine ⟨by simp [Response.Labelled, VersionState.refusal], fun hg => absurd hg hge,
      fun hg => absurd hg hge, ?_⟩
    obtain ⟨sp, acc⟩ := st
    cases acc with
    | none => simp [VersionState.refusal, Response.choice]
    | some a =>
      exact fun c hc => h.choice hs (fun ha => (h.confirmed sp a hs ha).2.1.symm) hc

theorem Reported.follows {s : Id} {p : Proposal Id} (h : Reported w Q s p r) (hf : Follows w w')
    (hv : r.Grants p → ∀ p' v', w'.Voted Q s p' v' → w.Voted Q s p' v' ∨ p ≤ p') :
    Reported w' Q s p r := by
  refine ⟨h.labelled, ?_, fun hg hc l u hl hu hver => (h.vote hg hc l u hl hu hver).follows hf, ?_⟩
  · intro hg p' v' hp' hlt hver
    rcases hv hg p' v' hp' with hp' | hle
    · exact h.last hg p' v' hp' hlt hver
    · exact absurd hlt (not_lt.mpr hle)
  · intro c hc
    obtain ⟨u, p₀, hu, hver, hchosen⟩ := h.choice c hc
    exact ⟨u, p₀, hu, hver, hchosen.follows hf⟩

/-! ## The votes -/

variable [Inhabited Id]

theorem voted_deliver {call : Call T Id} {s : Id} {p : Proposal Id} (hi : w.calls[i]? = some call)
    (h : (w.deliver i call).Voted Q s p v) :
    w.Voted Q s p v ∨ call.peer = s ∧ call.request = .accept Q p v ∧
      ((w.servers s).accept Q p v).1 = .ok p ∧
      ∃ st, (w.servers s).state = some st ∧ st.proposal = p := by
  obtain ⟨k, n, m, hr, hm⟩ := h
  rcases replied_deliver hi hr with hr | ⟨-, -, hs, hreq, hres⟩
  · exact Or.inl ⟨k, n, m, hr, hm⟩
  · refine Or.inr ⟨hs, hreq, ?_⟩
    have hcases := Server.accept_cases (w.servers s) Q p v
    simp only [Server.handle] at hres
    cases ha : ((w.servers s).accept Q p v).1 with
    | error e => simp [ha, Except.map] at hres
    | ok m' =>
      simp only [ha, Except.map, Except.ok.injEq, Answer.minimum.injEq] at hres
      subst hres
      rw [ha] at hcases
      generalize ((w.servers s).accept Q p v).2 = sv at hcases
      cases hcases with
      | obsolete hst hlt => exact absurd hlt hm
      | accepted hst hp => exact ⟨rfl, _, hst, hp⟩

/-! Which votes a delivery adds: none when the call is not an accept, when the server does not
accept, or to another server, and else one under the proposal of the call. -/

theorem voted_of_not_accept {call : Call T Id} {s : Id} (hi : w.calls[i]? = some call)
    (hne : ∀ p v, call.request ≠ .accept Q p v) (p : Proposal Id) (v : Value T Id)
    (h : (w.deliver i call).Voted Q s p v) :
    w.Voted Q s p v := by
  rcases voted_deliver hi h with h | ⟨-, hreq, -⟩
  · exact h
  · exact absurd hreq (hne p v)

theorem voted_of_refused {call : Call T Id} {s : Id} {p : Proposal Id}
    (hi : w.calls[i]? = some call) (hreq : call.request = .accept Q p v)
    (hne : ((w.servers s).accept Q p v).1 ≠ .ok p) (p' : Proposal Id) (v' : Value T Id)
    (h : (w.deliver i call).Voted Q s p' v') : w.Voted Q s p' v' := by
  rcases voted_deliver hi h with h | ⟨-, hreq', hres, -⟩
  · exact h
  · rw [hreq] at hreq'
    cases hreq'
    exact absurd hres hne

theorem voted_of_other {call : Call T Id} {s : Id} (hi : w.calls[i]? = some call)
    (hs : s ≠ call.peer) (p : Proposal Id) (v : Value T Id) (h : (w.deliver i call).Voted Q s p v) :
    w.Voted Q s p v := by
  rcases voted_deliver hi h with h | ⟨hpeer, -⟩
  · exact h
  · exact absurd hpeer.symm hs

theorem voted_or_of_accept {call : Call T Id} {s : Id} {p : Proposal Id}
    (hi : w.calls[i]? = some call) (hreq : call.request = .accept Q p v) (p' : Proposal Id)
    (v' : Value T Id) (h : (w.deliver i call).Voted Q s p' v') :
    w.Voted Q s p' v' ∨ p' = p := by
  rcases voted_deliver hi h with h | ⟨-, hreq', -⟩
  · exact Or.inl h
  · rw [hreq] at hreq'
    cases hreq'
    exact Or.inr rfl

theorem voted_of_accepted {call : Call T Id} {p : Proposal Id} (hi : w.calls[i]? = some call)
    (hreq : call.request = .accept Q p v) (h : ((w.servers call.peer).accept Q p v).1 = .ok p) :
    (w.deliver i call).Voted Q call.peer p v := by
  refine ⟨call.task, call.attempt, p, ⟨i, ?_⟩, lt_irrefl p⟩
  rw [deliver_calls hi, if_pos rfl, hreq]
  simp only [Server.handle, h, Except.map]

theorem grows_deliver {call : Call T Id} (hi : w.calls[i]? = some call) (hr : call.reply = none) :
    Grows (w.ledger Q) ((w.deliver i call).ledger Q) := by
  refine ⟨fun s p v hv => Voted.follows (Follows.of_deliver hi hr) hv, ?_, ?_⟩
  · rintro s p ⟨st, hst, hlt⟩
    obtain ⟨st', hst', hle⟩ := state_deliver i call hst
    exact ⟨st', hst', lt_of_lt_of_le hlt hle⟩
  · intro s p v hv
    rcases voted_deliver hi hv with hv | ⟨-, -, -, st, hst, rfl⟩
    · exact Or.inl hv
    · right
      rintro ⟨st', hst', hlt⟩
      rw [hst] at hst'
      cases hst'
      exact lt_irrefl _ hlt

omit [Inhabited Id] in
theorem Voted.call {s : Id} {p : Proposal Id} (h : w.Voted Q s p v) :
    ∃ c ∈ w.calls, c.request = .accept Q p v := by
  obtain ⟨k, n, m, ⟨i, hi⟩, -⟩ := h
  exact ⟨_, List.mem_of_getElem? hi, rfl⟩

omit [Inhabited Id] in
theorem votes_agree (ho : Orderly Q w) (hf : Faithful Q w) {s s' : Id} {p : Proposal Id}
    {v' : Value T Id} (h : w.Voted Q s p v) (h' : w.Voted Q s' p v') : v = v' := by
  obtain ⟨c, hc, hreq⟩ := h.call
  obtain ⟨c', hc', hreq'⟩ := h'.call
  have hs := ho.sent c hc
  have hs' := ho.sent c' hc'
  simp only [hreq, hreq', Sent] at hs hs'
  obtain ⟨hk, hn⟩ := hf.one_attempt hs.2 hs'.2
  exact ho.one_value c hc c' hc' hk hn _ _ _ _ _ _ hreq hreq'

/-! ## The invariant -/

structure Safe (Q : Finset Id) (w : World T Id) : Prop where
  orderly : Orderly Q w
  faithful : Faithful Q w
  records : ∀ s, Records w Q s (w.servers s)
  reported : ∀ k n s p r, w.Replied k n s (.propose Q p) (.response r) → Reported w Q s p r
  sound : Sound (w.ledger Q) Q Proposal.version

omit [Inhabited Id] in
theorem Safe.safeAt (h : Safe Q w) {n : Nat} {p : Proposal Id} (hj : w.Justified Q k n p v) :
    SafeAt (w.ledger Q) Q Proposal.version p v := by
  obtain ⟨responses, replace, own, hM, hr, hv⟩ := hj
  have hrep : ∀ x ∈ responses, Reported w Q x.1 p x.2 :=
    fun x hx => h.reported k n x.1 p x.2 (hr x hx).1
  refine safeAt_of_reports
    (fun s l u => ∃ x ∈ responses, x.1 = s ∧ x.2.proposal = some l ∧ x.2.value = some u)
    h.sound (fun _ _ => Proposal.version_mono) hM ?_ ?_ ?_ ?_
  · intro s hs b' hlt
    simp only [List.mem_toFinset, List.mem_map] at hs
    obtain ⟨x, hx, rfl⟩ := hs
    obtain ⟨st, hst, hle⟩ := h.faithful.kept k n x.1 p ⟨x.2, (hr x hx).1, (hr x hx).2.1⟩
    exact ⟨st, hst, lt_of_lt_of_le hlt hle⟩
  · intro s hs b' u hvote hlt hver
    simp only [List.mem_toFinset, List.mem_map] at hs
    obtain ⟨x, hx, rfl⟩ := hs
    obtain ⟨l, u', hl, hu', hle⟩ := (hrep x hx).last (hr x hx).2.1 b' u hvote hlt hver
    exact ⟨l, u', ⟨x, hx, rfl, hl, hu'⟩, hle⟩
  · rintro s - l u ⟨x, hx, rfl, hl, hu⟩
    obtain ⟨-, hg, hnone⟩ := hr x hx
    have hconf : x.2.confirmed = false := by
      cases hc : x.2.confirmed with
      | false => rfl
      | true => simp [Response.choice, hl, hu, hc] at hnone
    exact ⟨hg l hl, (hrep x hx).vote hg hconf l u hl hu⟩
  · rintro s - l u ⟨x, hx, rfl, hl, hu⟩
    have hlab : ∀ r ∈ responses.map (·.2), r.Labelled := by
      intro r hr'
      obtain ⟨y, hy, rfl⟩ := List.mem_map.mp hr'
      exact (hrep y hy).labelled
    obtain ⟨r₀, hr₀, l₀, v₀, hl₀, hv₀, hrepl, hmax⟩ :=
      replacement_of_valued replace hlab (List.mem_map.mpr ⟨x, hx, rfl⟩) (by simp [hu])
    obtain ⟨y, hy, rfl⟩ := List.mem_map.mp hr₀
    rw [hrepl, Option.getD_some] at hv
    subst hv
    exact ⟨y.1, List.mem_toFinset.mpr (List.mem_map.mpr ⟨y, hy, rfl⟩), l₀, ⟨y, hy, rfl, hl₀, hv₀⟩,
      hmax x.2 (List.mem_map.mpr ⟨x, hx, rfl⟩) (by simp [hu]) l hl⟩

/-- The condition on a step: what a server reports with a new promise bears the right label. -/
def TrueLabels (w : World T Id) : Action T Id → Prop
  | .deliver i => ∀ call ∈ w.calls[i]?, ∀ p ∈ call.request.proposed,
      TrueLabel (w.servers call.peer) p
  | _ => True

instance (w : World T Id) (a : Action T Id) : Decidable (TrueLabels w a) :=
  match a with
  | .deliver i => inferInstanceAs (Decidable (∀ call ∈ w.calls[i]?, ∀ p ∈ call.request.proposed,
      TrueLabel (w.servers call.peer) p))
  | .choose _ _ _ _ => isTrue trivial
  | .state _ _ => isTrue trivial
  | .receive _ _ => isTrue trivial
  | .unavailable _ _ => isTrue trivial
  | .weak_error _ _ _ => isTrue trivial
  | .advance _ => isTrue trivial

theorem Safe.sound_deliver (h : Safe Q w) {call : Call T Id} (hi : w.calls[i]? = some call)
    (hr : call.reply = none) :
    Sound ((w.deliver i call).ledger Q) Q Proposal.version := by
  have ho := h.orderly.deliver hi hr
  have hf := h.faithful.deliver hi
  refine ⟨?_, fun s s' p v v' hv hv' => votes_agree ho hf hv hv'⟩
  intro s p v hv
  apply SafeAt.grows (grows_deliver hi hr)
  rcases voted_deliver hi hv with hv | ⟨-, hreq, -⟩
  · exact h.sound.safe s p v hv
  · have hs := h.orderly.sent call (List.mem_of_getElem? hi)
    simp only [hreq, Sent] at hs
    exact h.safeAt hs.2

theorem Safe.records_deliver (h : Safe Q w) {call : Call T Id} (hi : w.calls[i]? = some call)
    (hr : call.reply = none) (s : Id) :
    Records (w.deliver i call) Q s ((w.deliver i call).servers s) := by
  have hf := Follows.of_deliver hi hr
  have hsound := h.sound_deliver hi hr
  rw [servers_deliver]
  by_cases hs : s = call.peer
  · rw [if_pos hs]
    subst hs
    have hsent := h.orderly.sent call (List.mem_of_getElem? hi)
    have hrec := h.records call.peer
    cases hreq : call.request with
    | propose q p =>
      have hp := hrec.propose (Server.propose_cases (w.servers call.peer) q p)
      exact hp.follows hf (voted_of_not_accept hi (by simp [hreq]))
    | confirm q p =>
      simp only [hreq, Sent] at hsent
      have hc := hrec.confirm h.sound hsent.2 (Server.confirm_cases (w.servers call.peer) q p)
      exact hc.follows hf (voted_of_not_accept hi (by simp [hreq]))
    | get q => exact hrec.follows hf (voted_of_not_accept hi (by simp [hreq]))
    | accept q p v =>
      simp only [hreq, Sent] at hsent
      obtain ⟨rfl, -⟩ := hsent
      have hcases := Server.accept_cases (w.servers call.peer) q p v
      have hvoted := voted_of_accepted (p := p) (v := v) hi hreq
      have hrefused := fun hne => voted_of_refused (s := call.peer) hi hreq hne
      simp only [Server.handle]
      generalize (w.servers call.peer).accept q p v = res at hcases hvoted hrefused
      obtain ⟨res, sv⟩ := res
      cases hcases with
      | failed e => exact hrec.follows hf (hrefused (by simp))
      | obsolete hst hlt => exact hrec.follows hf (hrefused (by simpa using hlt.ne'))
      | @accepted st hst hp =>
        exact hrec.accept hf hst hp hsound (hvoted rfl) (voted_or_of_accept hi hreq)
  · rw [if_neg hs]
    exact (h.records s).follows hf (voted_of_other hi hs)

theorem Safe.reported_deliver (h : Safe Q w) {call : Call T Id} (hi : w.calls[i]? = some call)
    (hr : call.reply = none) (hok : TrueLabels w (.deliver i)) {n : Nat} {s : Id} {p : Proposal Id}
    (hrep : (w.deliver i call).Replied k n s (.propose Q p) (.response r)) :
    Reported (w.deliver i call) Q s p r := by
  have hf := Follows.of_deliver hi hr
  rcases replied_deliver hi hrep with hold | ⟨-, -, hs, hreq, hres⟩
  · apply (h.reported k n s p r hold).follows hf
    intro hg p' v' hv'
    obtain ⟨st, hst, hle⟩ := h.faithful.kept k n s p ⟨r, hold, hg⟩
    rcases voted_deliver hi hv' with hv' | ⟨-, -, -, st', hst', rfl⟩
    · exact Or.inl hv'
    · rw [hst] at hst'
      cases hst'
      exact Or.inr hle
  · subst hs
    have hlabel := hok call hi p (by rw [hreq]; rfl)
    apply ((h.records call.peer).reported hlabel (Server.propose_answer hres)).follows hf
    intro _ p' v' hv'
    exact Or.inl (voted_of_not_accept hi (by simp [hreq]) p' v' hv')

theorem Safe.deliver (h : Safe Q w) {call : Call T Id} (hi : w.calls[i]? = some call)
    (hr : call.reply = none) (hok : TrueLabels w (.deliver i)) :
    Safe Q (w.deliver i call) :=
  ⟨h.orderly.deliver hi hr, h.faithful.deliver hi, h.records_deliver hi hr,
    fun _ _ _ _ _ hrep => h.reported_deliver hi hr hok hrep, h.sound_deliver hi hr⟩

omit [Inhabited Id] in
theorem Quiet.voted (hq : Quiet w w') {s : Id} {p : Proposal Id} :
    w'.Voted Q s p v ↔ w.Voted Q s p v := by
  simp only [Voted, hq.replied]

omit [Inhabited Id] in
theorem Quiet.ledger (hq : Quiet w w') : w'.ledger Q = w.ledger Q := by
  have hvoted : w'.Voted Q = w.Voted Q := by
    funext s p v
    exact propext hq.voted
  simp only [World.ledger, hvoted, hq.1]

theorem Safe.step (h : Safe Q w) (hok : TrueLabels w a) (hs : w.step a = some w') : Safe Q w' := by
  have hf := Follows.of_step hs
  rcases step_deliver_or_quiet hs with ⟨i, call, rfl, hi, hr, rfl⟩ | hq
  · exact h.deliver hi hr hok
  · refine ⟨h.orderly.step hs, h.faithful.step hs, ?_, ?_, hq.ledger ▸ h.sound⟩
    · intro s
      rw [hq.1]
      exact (h.records s).follows hf fun p v hv => hq.voted.mp hv
    · intro k n s p r hrep
      exact (h.reported k n s p r (hq.replied.mp hrep)).follows hf
        fun _ p' v' hv' => Or.inl (hq.voted.mp hv')

omit [Inhabited Id] in
theorem Initial.safe (h : Initial Q w) : Safe Q w := by
  have hreplied : ∀ k n s r a, ¬ w.Replied k n s r a := by
    rintro k n s r a ⟨i, hi⟩
    simp [h.calls] at hi
  have hvoted : ∀ s p v, ¬ w.Voted Q s p v := by
    rintro s p v ⟨k, n, m, hr, -⟩
    exact hreplied _ _ _ _ _ hr
  have hstate : ∀ s, (w.servers s).state = none := by
    intro s
    obtain ⟨value, version, hs⟩ := h.servers s
    rw [hs]
    rfl
  refine ⟨h.orderly, h.faithful, ?_, ?_, ?_⟩
  · intro s
    exact ⟨fun p v hv => absurd hv (hvoted s p v), by simp [hstate], by simp [hstate]⟩
  · exact fun k n s p r hr => absurd hr (hreplied _ _ _ _ _)
  · exact ⟨fun s p v hv => absurd hv (hvoted s p v), fun s _ p v _ hv => absurd hv (hvoted s p v)⟩

/-! ## What the runs return -/

/-- What a `choose` decided: the proposal that it returned, and the value. A choice without value
decides the submitted one. -/
def decided : Task T Id → Option (Proposal Id × Value T Id)
  | .choose run =>
    match run.phase with
    | .returned choice => some (choice.proposal, choice.value.getD run.value)
    | _ => none
  | .state _ => none

/-- What task `k` decided. -/
def decision (w : World T Id) (k : Nat) : Option (Proposal Id × Value T Id) :=
  (w.tasks k).bind decided

omit [LinearOrder Id] [Inhabited Id] in
theorem decision_spec {d : Proposal Id × Value T Id} :
    w.decision k = some d ↔
      ∃ run, w.tasks k = some (.choose run) ∧ decided (.choose run) = some d := by
  unfold decision
  constructor
  · intro h
    obtain ⟨task, hk, hd⟩ := Option.bind_eq_some_iff.mp h
    cases task with
    | choose run => exact ⟨run, hk, hd⟩
    | state read => cases hd
  · rintro ⟨run, hk, hd⟩
    rw [hk]
    exact hd

omit [Inhabited Id] in
theorem decided_receive {run : Choose T Id} {round : Int} {s : Id}
    {reply : Except (Error Id) (Answer T Id)} {d : Proposal Id × Value T Id}
    (h : decided (.choose (run.receive round s reply).1) = some d) :
    decided (.choose run) = some d := by
  unfold Choose.receive at h
  split at h
  · cases h
  · split at h
    · cases h
    · split_ifs at h <;> cases h
    · cases h
    · exact h

theorem decision_step {p : Proposal Id} (hs : Stepped w a w') (hd : w'.decision k = some (p, v)) :
    w.decision k = some (p, v) ∨
    (∃ run responses choice, a = .advance k ∧ w.tasks k = some (.choose run) ∧
      run.waiting = [] ∧ run.phase = .proposing responses ∧
      weigh (w.quorumOf run.client) run.proposal run.replace run.weak_error
        (responses.map (·.2)) = .chosen choice ∧
      p = choice.proposal ∧ v = choice.value.getD run.value) ∨
    ∃ run reached, a = .advance k ∧ w.tasks k = some (.choose run) ∧ run.waiting = [] ∧
      run.phase = .confirming reached ∧ (w.quorumOf run.client).card / 2 < reached.length ∧
      p = run.proposal ∧ v = run.submitted := by
  obtain ⟨run', hk', hd⟩ := decision_spec.mp hd
  rcases run_cases hs hk' with ⟨run, hk, hr⟩ | ⟨-, c, version, value, proposal, waiting, -, -, rfl⟩
  · cases hr with
    | same ha => exact Or.inl (decision_spec.mpr ⟨run', hk, hd⟩)
    | receive hr => exact Or.inl (decision_spec.mpr ⟨run, hk, decided_receive hd⟩)
    | unavailable | weak_error => exact Or.inl (decision_spec.mpr ⟨run, hk, hd⟩)
    | @chosen responses choice hw hp hv =>
      cases hd
      exact Or.inr (Or.inl ⟨run, responses, choice, rfl, hk, hw, hp, hv, rfl, rfl⟩)
    | failed => cases hd
    | retry hp hv hver => cases hd
    | accept hp hv => cases hd
    | resume hver => cases hd
    | confirm => cases hd
    | @returned reached hw hp hc =>
      cases hd
      exact Or.inr (Or.inr ⟨run, reached, rfl, hk, hw, hp, hc, rfl, rfl⟩)
  · cases hd

/-- What was decided was chosen, at the version that was returned. -/
def Settled (Q : Finset Id) (w : World T Id) : Prop :=
  ∀ k p v, w.decision k = some (p, v) → ∃ p₀, p₀.version = p.version ∧ w.Chosen Q p₀ v

theorem Settled.step (h : Settled Q w) (hsafe : Safe Q w) (hs : w.step a = some w') :
    Settled Q w' := by
  intro k p v hd
  have hf := Follows.of_step hs
  suffices ∃ p₀, p₀.version = p.version ∧ w.Chosen Q p₀ v by
    obtain ⟨p₀, hver, hc⟩ := this
    exact ⟨p₀, hver, hc.follows hf⟩
  rcases decision_step (step_cases hs) hd with
    hd | ⟨run, responses, choice, -, hk, -, hp, hv, rfl, rfl⟩ |
    ⟨run, reached, -, hk, -, hp, -, rfl, rfl⟩
  · exact h k p v hd
  · have hinv := hsafe.orderly.tasks k _ hk
    simp only [TaskInv, hp] at hinv
    obtain ⟨r, hr, hchoice⟩ := weigh_chosen hv
    obtain ⟨x, hx, rfl⟩ := List.mem_map.mp hr
    obtain ⟨u, p₀, hu, hver, hc⟩ :=
      (hsafe.reported _ _ _ _ _ (hinv.2 x hx)).choice choice hchoice
    exact ⟨p₀, hver, by rw [hu]; exact hc⟩
  · have hinv := hsafe.orderly.tasks k _ hk
    simp only [TaskInv, hp] at hinv
    exact ⟨run.proposal, rfl, hinv.2.1⟩

theorem Initial.settled {w₀ : World T Id} {as : List (Action T Id)} (h₀ : Initial Q w₀)
    (h : Run step TrueLabels w₀ as w) : Safe Q w ∧ Settled Q w :=
  h.invariant (I := fun w => Safe Q w ∧ Settled Q w)
    ⟨h₀.safe, fun k p v hd => by simp [decision, h₀.tasks] at hd⟩
    fun _ _ _ hinv hok hs => ⟨hinv.1.step hok hs, hinv.2.step hinv.1 hs⟩

/-- In every run whose servers report each value under the proposal of its acceptance, two
`choose` that return the same version decide the same value. -/
theorem a_version_decides_one_value_while_labels_are_true {w₀ : World T Id}
    {as : List (Action T Id)} {k k' : Nat} {p p' : Proposal Id} {v v' : Value T Id}
    (h₀ : Initial Q w₀) (h : Run step TrueLabels w₀ as w) (hk : w.decision k = some (p, v))
    (hk' : w.decision k' = some (p', v')) (hver : p.version = p'.version) : v = v' := by
  obtain ⟨hsafe, hsettled⟩ := h₀.settled h
  obtain ⟨p₀, hp₀, hc⟩ := hsettled k p v hk
  obtain ⟨p₁, hp₁, hc'⟩ := hsettled k' p' v' hk'
  exact hsafe.sound.agreement hc hc' (by rw [hp₀, hp₁, hver])

/-- A client decides, and another one finds it decided. -/
def decideTwice : List (Action Nat Nat) :=
  [.choose 0 0 1 (.value 100), .deliver 0, .deliver 1, .deliver 2, .receive 0 1, .receive 0 2,
    .receive 0 3, .advance 0, .deliver 3, .deliver 4, .deliver 5, .receive 0 1, .receive 0 2,
    .receive 0 3, .advance 0, .deliver 6, .deliver 7, .deliver 8, .receive 0 1, .receive 0 2,
    .receive 0 3, .advance 0, .choose 1 1 1 (.value 101), .deliver 9, .deliver 10, .receive 1 1,
    .receive 1 2, .unavailable 1 3, .advance 1]

theorem a_second_choose_decides_the_first_value :
    ∃ (w : World Nat Nat) (p p' : Proposal Nat) (v v' : Value Nat Nat),
      Run step TrueLabels (three (11 + ·)) decideTwice w ∧ w.decision 0 = some (p, v) ∧
      w.decision 1 = some (p', v') ∧ p.version = p'.version ∧ v = v' := by
  have hexec : (exec step TrueLabels (three (11 + ·)) decideTwice).map
      (fun w => (w.decision 0, w.decision 1)) =
      some (some (⟨1, 1, 11⟩, .value 100), some (⟨1, 1, 11⟩, .value 100)) := by decide +kernel
  obtain ⟨w, hw, hd⟩ := Run.of_exec_map hexec
  obtain ⟨hk, hk'⟩ := Prod.mk.inj hd
  exact ⟨w, _, _, _, _, hw, hk, hk', rfl,
    a_version_decides_one_value_while_labels_are_true (initial_three _) hw hk hk' rfl⟩

/-- The server 1 accepts 100 in round 1 and then promises a higher round twice; the second answer
reports 100 under the first of these rounds, above the value 102 that the servers 2 and 3
accepted meanwhile. -/
def staleReport : List (Action Nat Nat) :=
  [.choose 0 0 1 (.value 100), .deliver 0, .deliver 1, .deliver 2, .receive 0 1, .receive 0 2,
    .receive 0 3, .advance 0, .deliver 3, .choose 1 2 1 (.value 103), .deliver 6,
    .choose 2 1 1 (.value 102), .deliver 10, .deliver 11, .unavailable 2 1, .receive 2 2,
    .receive 2 3, .advance 2, .deliver 12, .deliver 13, .receive 2 2, .receive 2 3, .advance 2,
    .choose 3 3 1 (.value 104), .deliver 16, .deliver 17, .receive 3 1, .receive 3 2,
    .unavailable 3 3, .advance 3, .deliver 19, .deliver 20, .receive 3 1, .receive 3 2,
    .advance 3, .deliver 21, .deliver 22, .receive 3 1, .receive 3 2, .advance 3, .deliver 14,
    .deliver 15, .receive 2 2, .receive 2 3, .advance 2]

theorem a_stale_report_decides_two_values :
    ∃ (w : World Nat Nat) (p p' : Proposal Nat) (v v' : Value Nat Nat),
      Initial {1, 2, 3} (three (11 + ·)) ∧ Run step anyStep (three (11 + ·)) staleReport w ∧
      w.decision 2 = some (p, v) ∧ w.decision 3 = some (p', v') ∧ p.version = p'.version ∧
      v ≠ v' := by
  have hexec : (exec step anyStep (three (11 + ·)) staleReport).map
      (fun w => (w.decision 2, w.decision 3)) =
      some (some (⟨1, 1, 12⟩, .value 102), some (⟨1, 1, 14⟩, .value 100)) := by decide +kernel
  obtain ⟨w, hw, hd⟩ := Run.of_exec_map hexec
  obtain ⟨hk, hk'⟩ := Prod.mk.inj hd
  exact ⟨w, _, _, _, _, initial_three _, hw, hk, hk', rfl, by decide⟩

end athena.paxos.World
