-- What the servers serve. A server that follows the versions serves the last
-- confirmed value under its version; one that missed versions serves its old
-- value under the version before the promised one. A server that confirmed a
-- version goes on to serve it, or a later one, unless it misses a version.
import Memo.PaxosAgreement
import Memo.ServerLaws

open majority voting runs

namespace athena.paxos

variable {T Id : Type}

/-! ## The value that a server serves -/

namespace Server

variable {sv sv' : Server T Id} {st : VersionState T Id} {n : Int}

variable [Inhabited Id]

/-- The record of the server is a value, not a quorum. -/
def Plain (sv : Server T Id) : Prop :=
  ∀ sp a, sv.state = some ⟨sp, some a⟩ → ∃ t, a.value = .value t

/-- The label of the committed value while the promised version is not confirmed. -/
def before (st : VersionState T Id) : Proposal Id := ⟨st.proposal.version - 1, 0, default⟩

theorem current_value_of_none (hs : sv.state = none) : sv.current_value = none := by
  cases hv : sv.value <;> simp [current_value, committed_value, current_proposal, hs, hv]

theorem current_value_of_confirmed (hp : sv.Plain) {sp : Proposal Id} {a : Accepted T Id}
    (hs : sv.state = some ⟨sp, some a⟩) (ha : a.confirmed = true) :
    sv.current_value = some a := by
  obtain ⟨t, ht⟩ := hp sp a hs
  obtain ⟨ap, av, ac⟩ := a
  simp only at ht ha
  subst ht ha
  simp [current_value, hs]

theorem current_value_of_unconfirmed (hs : sv.state = some st) (hc : st.confirmed = false) :
    sv.current_value = sv.value.map fun t => ⟨before st, .value t, true⟩ := by
  have hcommitted : sv.current_value = sv.committed_value := by
    obtain ⟨sp, _ | ⟨ap, av, ac⟩⟩ := st
    · simp [current_value, hs]
    · simp only [VersionState.confirmed, Option.any_some] at hc
      subst hc
      simp [current_value, hs]
  rw [hcommitted, committed_value]
  cases hv : sv.value with
  | none => rfl
  | some t => simp [current_proposal, hs, hc, hv, before]

/-- The server serves the version, or a later one; or it missed versions, and promised a later
one. -/
def serves (sv : Server T Id) (n : Int) : Bool :=
  if sv.partial_state then sv.state.any (n < ·.proposal.version)
  else sv.current_value.any (n ≤ ·.proposal.version)

theorem serves_of_late (hp : sv.partial_state = true) (hs : sv.state = some st) :
    sv.serves n = true ↔ n < st.proposal.version := by
  simp [serves, hp, hs]

theorem serves_of_none (hs : sv.state = none) : sv.serves n = false := by
  cases hp : sv.partial_state <;> simp [serves, hp, hs, current_value_of_none hs]

theorem serves_of_confirmed (hplain : sv.Plain) (hp : sv.partial_state = false)
    {sp : Proposal Id} {a : Accepted T Id} (hs : sv.state = some ⟨sp, some a⟩)
    (ha : a.confirmed = true) : sv.serves n = true ↔ n ≤ a.proposal.version := by
  simp [serves, hp, current_value_of_confirmed hplain hs ha]

theorem serves_of_unconfirmed (hp : sv.partial_state = false) (hs : sv.state = some st)
    (hc : st.confirmed = false) :
    sv.serves n = true ↔ sv.value.isSome ∧ n < st.proposal.version := by
  rw [serves, hp, current_value_of_unconfirmed hs hc]
  cases hv : sv.value with
  | none => simp
  | some t =>
    simp only [before, Bool.false_eq_true, if_false, Option.map_some, Option.any_some,
      decide_eq_true_eq, Option.isSome_some, true_and]
    omega

omit [Inhabited Id] in
theorem confirmed_iff {st : VersionState T Id} :
    st.confirmed = true ↔ ∃ a, st.accepted = some a ∧ a.confirmed = true := by
  simp [VersionState.confirmed, Option.any_eq_true]

theorem le_of_serves [LinearOrder Id] (hplain : sv.Plain) (hs : sv.state = some st)
    (hle : ∀ a, st.accepted = some a → a.proposal ≤ st.proposal) (h : sv.serves n = true) :
    n ≤ st.proposal.version := by
  cases hp : sv.partial_state with
  | true => exact ((serves_of_late hp hs).mp h).le
  | false =>
    cases hc : st.confirmed with
    | false => exact ((serves_of_unconfirmed hp hs hc).mp h).2.le
    | true =>
      obtain ⟨a, ha, hconf⟩ := confirmed_iff.mp hc
      obtain ⟨sp, acc⟩ := st
      simp only at ha
      subst ha
      have hserved := (serves_of_confirmed hplain hp hs hconf).mp h
      exact hserved.trans (Proposal.version_mono (hle a rfl))

end Server

namespace World

variable {w w' : World T Id} {Q : Finset Id}

/-! ## What a server keeps -/

variable [LinearOrder Id]

/-- What a server serves: it holds values only, it has a committed value once it followed the
versions past one of its votes, and that value is the one chosen for the version before. -/
structure Serving (w : World T Id) (Q : Finset Id) (s : Id) (sv : Server T Id) : Prop where
  plain : sv.Plain
  quorum : sv.quorum = Q
  fresh : sv.state = none → sv.value = none
  moved : sv.partial_state = false → ∀ p v st, w.Voted Q s p v → sv.state = some st →
    p.version < st.proposal.version → st.confirmed = false → sv.value.isSome
  committed : ⟨0, 1, 0⟩ ≤ sv.version → sv.partial_state = false → ∀ st t, sv.state = some st →
    st.confirmed = false → sv.value = some t →
    ∃ p₀, p₀.version = st.proposal.version - 1 ∧ w.Chosen Q p₀ (.value t)

namespace Serving

variable {s : Id} {sv sv' : Server T Id} {p : Proposal Id} {n : Int}

theorem follows (h : Serving w Q s sv) (hf : Follows w w')
    (hv : ∀ p v, w'.Voted Q s p v → w.Voted Q s p v) : Serving w' Q s sv := by
  refine ⟨h.plain, h.quorum, h.fresh, fun hp p v st hvote => h.moved hp p v st (hv p v hvote), ?_⟩
  intro hver hp st t hs hc ht
  obtain ⟨p₀, hver₀, hchosen⟩ := h.committed hver hp st t hs hc ht
  exact ⟨p₀, hver₀, hchosen.follows hf⟩

theorem next (h : Serving w Q s sv) (hrec : Records w Q s sv) {sp : Proposal Id}
    {a : Accepted T Id} (hs : sv.state = some ⟨sp, some a⟩) (hv : sp.version < p.version)
    (hc : sv.check_confirmed p = true) :
    Serving w Q s { sv.commit a with state := some ⟨p, none⟩ } := by
  obtain ⟨t, ht⟩ := h.plain sp a hs
  simp only [Server.commit, ht]
  refine ⟨by rintro sp' a' ⟨⟩, h.quorum, by simp, by simp, ?_⟩
  rintro hver hpart st t' ⟨⟩ - ⟨⟩
  -- the version before is confirmed, since this server checks it
  have hnot : ¬ sv.version < ⟨0, 1, 0⟩ := not_lt.mpr hver
  have hp : sv.partial_state = false := hpart
  simp only [Server.check_confirmed, hnot, if_false, hp, Bool.false_eq_true, hs, ge_iff_le,
    not_le.mpr hv, Bool.and_eq_true, decide_eq_true_eq, VersionState.confirmed,
    Option.any_some] at hc
  obtain ⟨-, hver', p₀, -, hver₀, hchosen⟩ := hrec.confirmed sp a hs hc.2
  exact ⟨p₀, by simp only; omega, ht ▸ hchosen⟩

theorem propose (h : Serving w Q s sv) (hrec : Records w Q s sv)
    {res : Except (Error Id) (Response T Id)} (hp : Server.Proposed sv p res sv') :
    Serving w Q s sv' := by
  cases hp with
  | failed e => exact h
  | newer hs hv => exact h
  | first hs =>
    have hnone := h.fresh hs
    refine ⟨by rintro sp a ⟨⟩, h.quorum, by simp, ?_, by simp [hnone]⟩
    intro _ p' v st hvote
    obtain ⟨st', hst', -⟩ := hrec.below p' v hvote
    simp [hs] at hst'
  | next hs hv hc => exact h.next hrec hs hv hc
  | skip hs hv hpart hc => exact ⟨by rintro sp a ⟨⟩, h.quorum, by simp, by simp, by simp⟩
  | @raise st hs hlt hv =>
    obtain ⟨sp, acc⟩ := st
    -- the version is the same, unless the server missed versions
    have hver : sv.partial_state = false → sp.version = p.version := by
      intro hp
      rcases hv with hv | hv
      · exact hv
      · simp [hp] at hv
    refine ⟨?_, h.quorum, by simp, ?_, ?_⟩
    · rintro sp' a ⟨⟩
      exact h.plain sp a hs
    · rintro hp p' v st' hvote ⟨⟩ hlt' hc
      exact h.moved hp p' v _ hvote hs (by have := hver hp; simp only at hlt' ⊢; omega) hc
    · rintro hge hp st' t ⟨⟩ hc ht
      obtain ⟨p₀, hver₀, hchosen⟩ := h.committed hge hp _ t hs hc ht
      exact ⟨p₀, by have := hver hp; simp only at hver₀ ⊢; omega, hchosen⟩
  | refused hs hle => exact h

theorem confirm (h : Serving w Q s sv) {q : Finset Id} (hq : q = Q)
    {res : Except (Error Id) Unit} (hc : Server.ConfirmedAt sv q p res sv') :
    Serving w Q s sv' := by
  cases hc with
  | failed e => exact h
  | obsolete hs hv => exact h
  | already hs hle hv ha => exact h
  | @confirmed sp a hs hle hv ha =>
    refine ⟨?_, ?_, by simp, ?_, ?_⟩
    · rintro sp' a' ⟨⟩
      exact h.plain sp a hs
    · simp only [hq, h.quorum, ite_self]
    · rintro - p' v st - ⟨⟩ - hc
      simp [VersionState.confirmed] at hc
    · rintro - - st t ⟨⟩ hc
      simp [VersionState.confirmed] at hc

theorem accept (h : Serving w Q s sv) (hf : Follows w w') {t : T} {st : VersionState T Id}
    (hs : sv.state = some st) (hp : st.proposal = p)
    (hold : ∀ p' v', w'.Voted Q s p' v' → w.Voted Q s p' v' ∨ p' = p) :
    Serving w' Q s { sv with state := some ⟨p, some ⟨p, .value t, st.confirmed⟩⟩ } := by
  refine ⟨?_, h.quorum, by simp, ?_, ?_⟩
  · rintro sp a ⟨⟩
    exact ⟨t, rfl⟩
  · rintro hpart p' v st' hvote ⟨⟩ hlt hc
    simp only [VersionState.confirmed, Option.any_some] at hc
    rcases hold p' v hvote with hvote | rfl
    · exact h.moved hpart p' v st hvote hs (by rw [hp]; exact hlt) hc
    · exact absurd hlt (lt_irrefl _)
  · rintro hver hpart st' t' ⟨⟩ hc ht
    simp only [VersionState.confirmed, Option.any_some] at hc
    obtain ⟨p₀, hver₀, hchosen⟩ := h.committed hver hpart st t' hs hc ht
    exact ⟨p₀, by rw [hver₀, hp], hchosen.follows hf⟩

/-! ## The served version does not go back -/

variable [Inhabited Id]

theorem serves_propose (h : Serving w Q s sv) (hrec : Records w Q s sv)
    {res : Except (Error Id) (Response T Id)} (hp : Server.Proposed sv p res sv')
    (hn : sv.serves n = true) : sv'.serves n = true := by
  have hle : ∀ {st : VersionState T Id}, sv.state = some st → n ≤ st.proposal.version := by
    intro st hs
    refine Server.le_of_serves h.plain hs ?_ hn
    rintro a ha
    obtain ⟨sp, acc⟩ := st
    simp only at ha
    subst ha
    exact (hrec.record sp a hs).2
  cases hp with
  | failed e => exact hn
  | newer hs hv => exact hn
  | first hs => simp [Server.serves_of_none hs] at hn
  | @next sp a hs hv hc =>
    obtain ⟨t, ht⟩ := h.plain sp a hs
    have := hle hs
    simp only [Server.commit, ht]
    simp only at this
    by_cases hpart : sv.partial_state = true
    · exact Iff.mpr (Server.serves_of_late hpart rfl) (by simp only; omega)
    · rw [Bool.not_eq_true] at hpart
      exact Iff.mpr (Server.serves_of_unconfirmed hpart rfl rfl) ⟨rfl, by simp only; omega⟩
  | skip hs hv hpart hc =>
    have := hle hs
    exact Iff.mpr (Server.serves_of_late rfl rfl) (by simp only; omega)
  | @raise st hs hlt hv =>
    obtain ⟨sp, acc⟩ := st
    by_cases hpart : sv.partial_state = true
    · have hlt' := (Server.serves_of_late hpart hs).mp hn
      have := Proposal.version_le hlt
      exact Iff.mpr (Server.serves_of_late hpart rfl) (by simp only at hlt' this ⊢; omega)
    · rw [Bool.not_eq_true] at hpart
      have hver : sp.version = p.version := by
        rcases hv with hv | hv
        · exact hv
        · simp [hpart] at hv
      cases hc : VersionState.confirmed ⟨sp, acc⟩ with
      | false =>
        have := (Server.serves_of_unconfirmed hpart hs hc).mp hn
        exact Iff.mpr (Server.serves_of_unconfirmed hpart rfl hc)
          ⟨this.1, by have := this.2; simp only at this ⊢; omega⟩
      | true =>
        obtain ⟨a, rfl, hconf⟩ := Server.confirmed_iff.mp hc
        have hplain : Server.Plain { sv with state := some ⟨p, some a⟩ } := by
          rintro sp' a' ⟨⟩
          exact h.plain sp a hs
        have := (Server.serves_of_confirmed h.plain hpart hs hconf).mp hn
        exact Iff.mpr (Server.serves_of_confirmed hplain hpart rfl hconf) this
  | refused hs hle => exact hn

theorem serves_accept (h : Serving w Q s sv) (hrec : Records w Q s sv) {t : T}
    {st : VersionState T Id} (hs : sv.state = some st) (hp : st.proposal = p)
    (hn : sv.serves n = true) :
    Server.serves { sv with state := some ⟨p, some ⟨p, .value t, st.confirmed⟩⟩ } n = true := by
  by_cases hpart : sv.partial_state = true
  · have := (Server.serves_of_late hpart hs).mp hn
    exact Iff.mpr (Server.serves_of_late hpart rfl) (hp ▸ this)
  · rw [Bool.not_eq_true] at hpart
    cases hc : st.confirmed with
    | false =>
      have := (Server.serves_of_unconfirmed hpart hs hc).mp hn
      exact Iff.mpr (Server.serves_of_unconfirmed hpart rfl rfl) (hp ▸ this)
    | true =>
      have hplain : Server.Plain { sv with state := some ⟨p, some ⟨p, .value t, true⟩⟩ } := by
        rintro sp' a' ⟨⟩
        exact ⟨t, rfl⟩
      have := Server.le_of_serves h.plain hs (fun a ha => by
        obtain ⟨sp, acc⟩ := st
        simp only at ha
        subst ha
        exact (hrec.record sp a hs).2) hn
      exact Iff.mpr (Server.serves_of_confirmed hplain hpart rfl rfl) (hp ▸ this)

theorem serves_confirm (h : Serving w Q s sv) (h' : Serving w Q s sv') (hrec : Records w Q s sv)
    (hrec' : Records w Q s sv') {q : Finset Id} {res : Except (Error Id) Unit}
    (hc : Server.ConfirmedAt sv q p res sv') (hn : sv.serves n = true) : sv'.serves n = true := by
  cases hc with
  | failed e => exact hn
  | obsolete hs hv => exact hn
  | already hs hle hv ha => exact hn
  | @confirmed sp a hs hle hv ha =>
    have hver := (hrec'.confirmed sp _ rfl rfl).2.1
    have hn' := Server.le_of_serves h.plain hs (fun a' ha' => by
      cases ha'
      exact (hrec.record sp a hs).2) hn
    exact Iff.mpr (Server.serves_of_confirmed h'.plain rfl rfl rfl) (hver ▸ hn')

theorem serves_of_confirmed (h : Serving w Q s sv) (h' : Serving w Q s sv')
    (hrec : Records w Q s sv) (hrec' : Records w Q s sv') (hb : w.Backed Q s p) {q : Finset Id}
    (hc : Server.ConfirmedAt sv q p (.ok ()) sv') : sv'.serves p.version = true := by
  cases hc with
  | @obsolete st hs hv =>
    by_cases hpart : sv.partial_state = true
    · exact Iff.mpr (Server.serves_of_late hpart hs) hv
    · rw [Bool.not_eq_true] at hpart
      cases hconf : st.confirmed with
      | false =>
        obtain ⟨v, hvote, -⟩ := hb
        exact Iff.mpr (Server.serves_of_unconfirmed hpart hs hconf)
          ⟨h.moved hpart p v st hvote hs hv hconf, hv⟩
      | true =>
        obtain ⟨sp, acc⟩ := st
        obtain ⟨a, rfl, ha⟩ := Server.confirmed_iff.mp hconf
        have hver := (hrec.confirmed sp a hs ha).2.1
        exact Iff.mpr (Server.serves_of_confirmed h.plain hpart hs ha) (by rw [hver]; exact hv.le)
  | @already sp a hs hle hv ha =>
    obtain ⟨hpart, hver, -⟩ := hrec.confirmed sp a hs ha
    exact Iff.mpr (Server.serves_of_confirmed h.plain hpart hs ha) (by omega)
  | @confirmed sp a hs hle hv ha =>
    have hver := (hrec'.confirmed sp _ rfl rfl).2.1
    exact Iff.mpr (Server.serves_of_confirmed h'.plain rfl rfl rfl) (by rw [hver]; omega)

theorem current_chosen (h : Serving w Q s sv) (hrec : Records w Q s sv)
    (hver : ⟨0, 1, 0⟩ ≤ sv.version) (hpart : sv.partial_state = false) {a : Accepted T Id}
    (ha : sv.current_value = some a) :
    a.confirmed = true ∧ (∃ t, a.value = .value t) ∧
      ∃ p₀, p₀.version = a.proposal.version ∧ w.Chosen Q p₀ a.value := by
  cases hs : sv.state with
  | none => simp [Server.current_value_of_none hs] at ha
  | some st =>
    cases hc : st.confirmed with
    | false =>
      rw [Server.current_value_of_unconfirmed hs hc] at ha
      obtain ⟨t, ht, rfl⟩ := Option.map_eq_some_iff.mp ha
      exact ⟨rfl, ⟨t, rfl⟩, h.committed hver hpart st t hs hc ht⟩
    | true =>
      obtain ⟨sp, acc⟩ := st
      obtain ⟨a', rfl, hconf⟩ := Server.confirmed_iff.mp hc
      rw [Server.current_value_of_confirmed h.plain hs hconf] at ha
      cases ha
      obtain ⟨-, -, p₀, -, hver₀, hchosen⟩ := hrec.confirmed sp a hs hconf
      exact ⟨hconf, h.plain sp a hs, p₀, hver₀, hchosen⟩

theorem get (h : Serving w Q s sv) : sv.get Q = .ok sv.current_value := by
  have hexp : sv.expected_quorum none = Q := by
    unfold Server.expected_quorum
    split
    · rename_i sp ap q hs
      obtain ⟨t, ht⟩ := h.plain _ _ hs
      cases ht
    · exact h.quorum
  simp [Server.get, Server.check_quorum, hexp]

end Serving

end World

end athena.paxos
