-- The acceptor of `athena::paxos`, as `Server.hxx` computes it: what a server
-- promises, accepts, confirms and serves. A call gives its result and the
-- server after the call; an exception is a result too, and what the code
-- wrote before the exception stays.
import Mathlib.Data.Finset.Card
import Mathlib.Data.Prod.Lex

namespace elle

/-- `elle::Version`, compared as the tuple of its numbers. -/
structure Version where
  major : Nat
  minor : Nat
  subminor : Nat
deriving DecidableEq, Repr

def Version.tie (v : Version) : ℕ ×ₗ ℕ ×ₗ ℕ := toLex (v.major, toLex (v.minor, v.subminor))

theorem Version.tie_injective : Function.Injective Version.tie := by
  rintro ⟨a, b, c⟩ ⟨a', b', c'⟩ h
  simp only [Version.tie, EmbeddingLike.apply_eq_iff_eq, Prod.mk.injEq] at h
  obtain ⟨rfl, rfl, rfl⟩ := h
  rfl

instance : LinearOrder Version := LinearOrder.lift' Version.tie Version.tie_injective

end elle

namespace athena.paxos

/-! ## Proposals -/

/-- A proposal: a version, a round in the version, and the client that sent it. -/
structure Proposal (Id : Type) where
  version : Int
  round : Int
  sender : Id
deriving DecidableEq, Repr

namespace Proposal

variable {Id : Type}

def tie (p : Proposal Id) : ℤ ×ₗ ℤ ×ₗ Id := toLex (p.version, toLex (p.round, p.sender))

theorem tie_injective : Function.Injective (@tie Id) := by
  rintro ⟨a, b, c⟩ ⟨a', b', c'⟩ h
  simp only [tie, EmbeddingLike.apply_eq_iff_eq, Prod.mk.injEq] at h
  obtain ⟨rfl, rfl, rfl⟩ := h
  rfl

instance [LinearOrder Id] : LinearOrder (Proposal Id) := LinearOrder.lift' tie tie_injective

variable [LinearOrder Id] {p p' : Proposal Id}

theorem lt_iff : p < p' ↔ p.version < p'.version ∨
    p.version = p'.version ∧ (p.round < p'.round ∨ p.round = p'.round ∧ p.sender < p'.sender) := by
  change p.tie < p'.tie ↔ _
  simp [tie, Prod.Lex.toLex_lt_toLex]

theorem version_mono (h : p ≤ p') : p.version ≤ p'.version := by
  by_contra hlt
  exact absurd (lt_iff.mpr (Or.inl (not_le.mp hlt))) (not_lt.mpr h)

theorem lt_of_version (h : p.version < p'.version) : p < p' := lt_iff.mpr (Or.inl h)

theorem version_le (h : p < p') : p.version ≤ p'.version := version_mono h.le

end Proposal

/-! ## The data of a server -/

/-- `elle::Option<T, Quorum>`: what a proposal decides is a value or a new quorum. -/
inductive Value (T Id : Type) where
  | value (v : T)
  | quorum (q : Finset Id)
deriving DecidableEq

structure Accepted (T Id : Type) where
  proposal : Proposal Id
  value : Value T Id
  confirmed : Bool
deriving DecidableEq

structure VersionState (T Id : Type) where
  proposal : Proposal Id
  accepted : Option (Accepted T Id)
deriving DecidableEq

/-- The exceptions of a consensus. `missing_block` is what the peers of memo put in a
`WeakError`. -/
inductive Error (Id : Type) where
  | wrong_quorum (expected effective : Finset Id) (proposal : Option (Proposal Id))
  | error (what : String)
  | assert_error (condition : String)
  | too_few_peers (effective total : Nat)
  | missing_block (address : Id)
deriving DecidableEq

structure Response (T Id : Type) where
  proposal : Option (Proposal Id)
  value : Option (Value T Id)
  confirmed : Bool
deriving DecidableEq

/-- A server. `partial_state` is `_partial`: the server missed some versions. -/
structure Server (T Id : Type) where
  id : Id
  quorum : Finset Id
  value : Option T
  version : elle.Version
  partial_state : Bool
  state : Option (VersionState T Id)

variable {T Id : Type}

/-- The accepted record is there and confirmed. -/
def VersionState.confirmed (st : VersionState T Id) : Bool := st.accepted.any (·.confirmed)

namespace Server

/-- A new server. The source asserts that the quorum holds the server itself. -/
def new (id : Id) (quorum : Finset Id) (value : Option T) (version : elle.Version) :
    Server T Id :=
  { id, quorum, value, version, partial_state := false, state := none }

/-- What the stored form of a server keeps, as a node of version `v` reads it back. The first
formats leave out the committed value and the missed versions, and take every accepted value for
confirmed; they cannot hold an accepted quorum at all. -/
def stored (self : Server T Id) (v : elle.Version) : Server T Id :=
  { self with
    version := v
    value := if v < ⟨0, 1, 0⟩ then none else self.value
    partial_state := if v < ⟨0, 2, 0⟩ then false else self.partial_state
    state :=
      if v < ⟨0, 1, 0⟩ then
        self.state.map fun st =>
          { st with accepted := st.accepted.map fun a => { a with confirmed := true } }
      else self.state }

/-! ## What a server serves -/

def current_quorum (self : Server T Id) : Finset Id :=
  match self.state with
  | some ⟨_, some ⟨_, .quorum q, true⟩⟩ => q
  | _ => self.quorum

/-- The last committed proposal. When the current one is not confirmed, the committed value is
labelled with the version before it, a null round and a null sender. -/
def current_proposal [Inhabited Id] (self : Server T Id) : Option (Proposal Id) :=
  match self.state with
  | none => none
  | some st =>
    if st.confirmed then some st.proposal
    else if self.value.isSome then some ⟨st.proposal.version - 1, 0, default⟩
    else none

/-- The committed value, under the label of `current_proposal`. -/
def committed_value [Inhabited Id] (self : Server T Id) : Option (Accepted T Id) :=
  match self.value, self.current_proposal with
  | some v, some p => some ⟨p, .value v, true⟩
  | _, _ => none

def current_value [Inhabited Id] (self : Server T Id) : Option (Accepted T Id) :=
  match self.state with
  | some ⟨_, some ⟨p, .value v, true⟩⟩ => some ⟨p, .value v, true⟩
  | _ => self.committed_value

def current_version (self : Server T Id) : Int :=
  match self.state with
  | some st => if st.confirmed then st.proposal.version else st.proposal.version - 1
  | none => 0

/-! ## The checks -/

/-- The quorum that a call must present: a confirmed quorum binds the versions after it, and
also a call without proposal. -/
def expected_quorum (self : Server T Id) (p : Option (Proposal Id)) : Finset Id :=
  match self.state with
  | some ⟨_, some ⟨ap, .quorum q, true⟩⟩ =>
    if p.all (fun p => ap.version < p.version) then q else self.quorum
  | _ => self.quorum

def check_quorum [DecidableEq Id] [Inhabited Id] (self : Server T Id) (q : Finset Id)
    (p : Option (Proposal Id)) : Except (Error Id) Unit :=
  let expected := self.expected_quorum p
  if q ≠ expected then .error (.wrong_quorum expected q self.current_proposal) else .ok ()

/-- No version is skipped, and the version before was confirmed. Servers before 0.1.0 do not
confirm. -/
def check_confirmed (self : Server T Id) (p : Proposal Id) : Bool :=
  if self.version < ⟨0, 1, 0⟩ then true
  else if self.partial_state then false
  else match self.state with
    | none => true
    | some st =>
      if st.proposal.version ≥ p.version then true
      else decide (st.proposal.version = p.version - 1) && st.confirmed

/-! ## The consensus -/

/-- The accepted record of a version after the version of the proposal. -/
def newer (self : Server T Id) (p : Proposal Id) : Option (Accepted T Id) :=
  match self.state with
  | some ⟨_, some a⟩ => if a.proposal.version > p.version then some a else none
  | _ => none

/-- The commit of the accepted record, before the first proposal of a new version. -/
def commit (self : Server T Id) (a : Accepted T Id) : Server T Id :=
  match a.value with
  | .value v => { self with value := some v, state := none }
  | .quorum q => { self with quorum := q, state := none }

/-- The end of `propose`: the promise, or the refusal of a proposal that is not higher. -/
def promise [LinearOrder Id] (self : Server T Id) (p : Proposal Id) :
    Except (Error Id) (Response T Id) × Server T Id :=
  match self.state with
  | none => (.ok ⟨none, none, false⟩, { self with state := some ⟨p, none⟩ })
  | some st =>
    if st.proposal < p then
      let response := match st.accepted with
        -- the proposal promised before, not the one under which the value was accepted
        | some a => ⟨some st.proposal, some a.value, a.confirmed⟩
        | none => ⟨none, none, false⟩
      (.ok response, { self with state := some ⟨p, st.accepted⟩ })
    else
      match st.accepted with
      | some a => (.ok ⟨some st.proposal, some a.value, a.confirmed⟩, self)
      | none => (.ok ⟨some st.proposal, none, false⟩, self)

section

variable [LinearOrder Id] [Inhabited Id]

def propose (self : Server T Id) (q : Finset Id) (p : Proposal Id) :
    Except (Error Id) (Response T Id) × Server T Id :=
  match self.newer p with
  | some a => (.ok ⟨some a.proposal, some a.value, a.confirmed⟩, self)
  | none =>
    if self.check_confirmed p then
      match self.check_quorum q (some p) with
      | .error e => (.error e, self)
      | .ok () =>
        match self.state with
        | none => self.promise p
        | some st =>
          if p.version > st.proposal.version then
            match st.accepted with
            | none => (.error (.assert_error "accepted"), self)
            | some a => (self.commit a).promise p
          else self.promise p
    else if !self.partial_state then
      promise { self with partial_state := true, state := none } p
    else self.promise p

/-- The quorum check of `accept` and `confirm`: a server that missed some versions skips it. -/
def check_quorum_unless_partial (self : Server T Id) (q : Finset Id) (p : Proposal Id) :
    Except (Error Id) Unit :=
  if self.partial_state then .ok () else self.check_quorum q (some p)

def accept (self : Server T Id) (q : Finset Id) (p : Proposal Id) (value : Value T Id) :
    Except (Error Id) (Proposal Id) × Server T Id :=
  match self.check_quorum_unless_partial q p with
  | .error e => (.error e, self)
  | .ok () =>
    match self.state with
    | none => (.error (.error "propose before accepting"), self)
    | some st =>
      if st.proposal < p then (.error (.error "propose before accepting"), self)
      else if p < st.proposal then (.ok st.proposal, self)
      else
        let accepted := match st.accepted with
          | none => ⟨p, value, false⟩
          -- a confirmed record stays confirmed, whatever value takes its place
          | some a => ⟨p, value, a.confirmed⟩
        (.ok st.proposal, { self with state := some ⟨st.proposal, some accepted⟩ })

def confirm (self : Server T Id) (q : Finset Id) (p : Proposal Id) :
    Except (Error Id) Unit × Server T Id :=
  if self.state.any (fun st => p.version < st.proposal.version) then (.ok (), self)
  else match self.check_quorum_unless_partial q p with
    | .error e => (.error e, self)
    | .ok () =>
      match self.state with
      | some ⟨sp, some a⟩ =>
        if sp < p then (.error (.error "propose and accept before confirming"), self)
        else if a.confirmed then (.ok (), self)
        else
          let quorum := if self.partial_state then q else self.quorum
          (.ok (), { self with
            quorum, partial_state := false, state := some ⟨sp, some { a with confirmed := true }⟩ })
      | _ => (.error (.error "propose and accept before confirming"), self)

def get (self : Server T Id) (q : Finset Id) : Except (Error Id) (Option (Accepted T Id)) :=
  match self.check_quorum q none with
  | .error e => .error e
  | .ok () => .ok self.current_value

end

end Server

/-! ## Calls -/

/-- A call of a client on a server. -/
inductive Request (T Id : Type) where
  | propose (q : Finset Id) (p : Proposal Id)
  | accept (q : Finset Id) (p : Proposal Id) (value : Value T Id)
  | confirm (q : Finset Id) (p : Proposal Id)
  | get (q : Finset Id)

def Request.quorum : Request T Id → Finset Id
  | .propose q _ => q
  | .accept q _ _ => q
  | .confirm q _ => q
  | .get q => q

def Request.proposal : Request T Id → Option (Proposal Id)
  | .propose _ p => some p
  | .accept _ p _ => some p
  | .confirm _ p => some p
  | .get _ => none

/-- The proposal of a call to `propose`. -/
def Request.proposed : Request T Id → Option (Proposal Id)
  | .propose _ p => some p
  | _ => none

/-- What a call returns. -/
inductive Answer (T Id : Type) where
  | response (r : Response T Id)
  | minimum (p : Proposal Id)
  | confirmed
  | current (a : Option (Accepted T Id))

variable [LinearOrder Id]

def Server.handle [Inhabited Id] (self : Server T Id) :
    Request T Id → Except (Error Id) (Answer T Id) × Server T Id
  | .propose q p => ((self.propose q p).1.map .response, (self.propose q p).2)
  | .accept q p value => ((self.accept q p value).1.map .minimum, (self.accept q p value).2)
  | .confirm q p => ((self.confirm q p).1.map fun _ => .confirmed, (self.confirm q p).2)
  | .get q => ((self.get q).map .current, self)

/-- The server after a list of calls, executed one after the other. -/
def Server.after [Inhabited Id] (self : Server T Id) (rs : List (Request T Id)) : Server T Id :=
  rs.foldl (fun s r => (s.handle r).2) self

/-! ## What a call can do

Each relation lists the results of one call with the server after it. The
laws of the servers go through these cases and do not open the code again. -/

/-- The answer to a proposal by a server that keeps its state. -/
def VersionState.refusal (st : VersionState T Id) : Response T Id :=
  ⟨some st.proposal, st.accepted.map (·.value), st.confirmed⟩

/-- The answer to a proposal that raises the promise: the accepted value under the proposal
promised before. -/
def VersionState.report (st : VersionState T Id) : Response T Id :=
  match st.accepted with
  | some a => ⟨some st.proposal, some a.value, a.confirmed⟩
  | none => ⟨none, none, false⟩

/-- The answer goes with a promise of the proposal: it names no proposal, or a lower one. -/
def Response.Grants (r : Response T Id) (p : Proposal Id) : Prop :=
  ∀ l, r.proposal = some l → l < p

namespace Server

inductive Proposed (s : Server T Id) (p : Proposal Id) :
    Except (Error Id) (Response T Id) → Server T Id → Prop
  | failed (e : Error Id) : Proposed s p (.error e) s
  | newer {sp : Proposal Id} {a : Accepted T Id} (hs : s.state = some ⟨sp, some a⟩)
      (hv : p.version < a.proposal.version) :
      Proposed s p (.ok ⟨some a.proposal, some a.value, a.confirmed⟩) s
  | first (hs : s.state = none) :
      Proposed s p (.ok ⟨none, none, false⟩) { s with state := some ⟨p, none⟩ }
  | next {sp : Proposal Id} {a : Accepted T Id} (hs : s.state = some ⟨sp, some a⟩)
      (hv : sp.version < p.version) (hc : s.check_confirmed p = true) :
      Proposed s p (.ok ⟨none, none, false⟩) { s.commit a with state := some ⟨p, none⟩ }
  | skip {st : VersionState T Id} (hs : s.state = some st) (hv : st.proposal.version < p.version)
      (hp : s.partial_state = false) (hc : s.check_confirmed p = false) :
      Proposed s p (.ok ⟨none, none, false⟩)
        { s with partial_state := true, state := some ⟨p, none⟩ }
  | raise {st : VersionState T Id} (hs : s.state = some st) (hlt : st.proposal < p)
      (hv : st.proposal.version = p.version ∨ s.partial_state = true) :
      Proposed s p (.ok st.report) { s with state := some ⟨p, st.accepted⟩ }
  | refused {st : VersionState T Id} (hs : s.state = some st) (hle : p ≤ st.proposal) :
      Proposed s p (.ok st.refusal) s

inductive AcceptedAt (s : Server T Id) (p : Proposal Id) (v : Value T Id) :
    Except (Error Id) (Proposal Id) → Server T Id → Prop
  | failed (e : Error Id) : AcceptedAt s p v (.error e) s
  | obsolete {st : VersionState T Id} (hs : s.state = some st) (hlt : p < st.proposal) :
      AcceptedAt s p v (.ok st.proposal) s
  | accepted {st : VersionState T Id} (hs : s.state = some st) (hp : st.proposal = p) :
      AcceptedAt s p v (.ok p) { s with state := some ⟨p, some ⟨p, v, st.confirmed⟩⟩ }

inductive ConfirmedAt (s : Server T Id) (q : Finset Id) (p : Proposal Id) :
    Except (Error Id) Unit → Server T Id → Prop
  | failed (e : Error Id) : ConfirmedAt s q p (.error e) s
  | obsolete {st : VersionState T Id} (hs : s.state = some st)
      (hv : p.version < st.proposal.version) : ConfirmedAt s q p (.ok ()) s
  | already {sp : Proposal Id} {a : Accepted T Id} (hs : s.state = some ⟨sp, some a⟩)
      (hle : p ≤ sp) (hv : p.version = sp.version) (ha : a.confirmed = true) :
      ConfirmedAt s q p (.ok ()) s
  | confirmed {sp : Proposal Id} {a : Accepted T Id} (hs : s.state = some ⟨sp, some a⟩)
      (hle : p ≤ sp) (hv : p.version = sp.version) (ha : a.confirmed = false) :
      ConfirmedAt s q p (.ok ())
        { s with
          quorum := if s.partial_state then q else s.quorum
          partial_state := false
          state := some ⟨sp, some { a with confirmed := true }⟩ }

variable {s : Server T Id} {p : Proposal Id} {q : Finset Id}

omit [LinearOrder Id] in
theorem check_confirmed_partial (hp : s.partial_state = true) (hv : ¬ s.version < ⟨0, 1, 0⟩) :
    s.check_confirmed p = false := by
  simp [check_confirmed, hv, hp]

omit [LinearOrder Id] in
theorem of_check_confirmed (h : s.check_confirmed p = false) (hp : s.partial_state = false) :
    ∃ st, s.state = some st ∧ st.proposal.version < p.version := by
  unfold check_confirmed at h
  simp only [hp, Bool.false_eq_true, if_false] at h
  split_ifs at h
  cases hs : s.state with
  | none => simp [hs] at h
  | some st =>
    simp only [hs] at h
    split_ifs at h with hge
    exact ⟨st, rfl, not_le.mp hge⟩

theorem promise_cases
    (hv : ∀ st, s.state = some st → st.proposal.version < p.version → s.partial_state = true) :
    Proposed s p (s.promise p).1 (s.promise p).2 := by
  unfold promise
  split
  · rename_i hs
    exact Proposed.first hs
  · rename_i st hs
    split
    · rename_i hlt
      have hraise : st.proposal.version = p.version ∨ s.partial_state = true := by
        rcases lt_or_eq_of_le (Proposal.version_le hlt) with h | h
        · exact Or.inr (hv st hs h)
        · exact Or.inl h
      have := Proposed.raise hs hlt hraise
      unfold VersionState.report at this
      exact this
    · rename_i hge
      have := Proposed.refused hs (not_lt.mp hge)
      unfold VersionState.refusal VersionState.confirmed at this
      cases ha : st.accepted <;> simpa [ha] using this

theorem promise_of_none (hs : s.state = none) :
    s.promise p = (.ok ⟨none, none, false⟩, { s with state := some ⟨p, none⟩ }) := by
  simp [promise, hs]

omit [LinearOrder Id] in
theorem commit_state (s : Server T Id) (a : Accepted T Id) : (s.commit a).state = none := by
  unfold commit
  split <;> rfl

variable [Inhabited Id]

theorem propose_cases (s : Server T Id) (q : Finset Id) (p : Proposal Id) :
    Proposed s p (s.propose q p).1 (s.propose q p).2 := by
  unfold propose
  cases hn : s.newer p with
  | some a =>
    unfold newer at hn
    split at hn
    · rename_i sp a' hs
      split_ifs at hn with hv
      cases hn
      exact Proposed.newer hs hv
    · cases hn
  | none =>
    simp only
    by_cases hc : s.check_confirmed p = true
    · simp only [hc, if_true]
      split
      · exact Proposed.failed _
      · split
        · rename_i hs
          exact promise_cases (by simp [hs])
        · rename_i st hs
          split
          · rename_i hv
            split
            · exact Proposed.failed _
            · rename_i a ha
              rw [promise_of_none (commit_state s a)]
              obtain ⟨sp, acc⟩ := st
              simp only at ha
              subst ha
              exact Proposed.next hs hv hc
          · rename_i hv
            apply promise_cases
            intro st' hs' hlt
            rw [hs] at hs'
            cases hs'
            exact absurd hlt hv
    · have hc' : s.check_confirmed p = false := by simpa using hc
      simp only [hc', Bool.false_eq_true, if_false]
      cases hp : s.partial_state with
      | false =>
        obtain ⟨st, hs, hlt⟩ := of_check_confirmed hc' hp
        simp only [Bool.not_false, if_true]
        rw [promise_of_none rfl]
        exact Proposed.skip hs hlt hp hc'
      | true =>
        simp only [Bool.not_true, Bool.false_eq_true, if_false]
        exact promise_cases (fun _ _ _ => hp)

theorem accept_cases (s : Server T Id) (q : Finset Id) (p : Proposal Id) (v : Value T Id) :
    AcceptedAt s p v (s.accept q p v).1 (s.accept q p v).2 := by
  unfold accept
  split
  · exact AcceptedAt.failed _
  · split
    · exact AcceptedAt.failed _
    · rename_i st hs
      split
      · exact AcceptedAt.failed _
      · rename_i hge
        split
        · rename_i hlt
          exact AcceptedAt.obsolete hs hlt
        · rename_i hle
          have hp : st.proposal = p := le_antisymm (not_lt.mp hle) (not_lt.mp hge)
          have := AcceptedAt.accepted (v := v) hs hp
          unfold VersionState.confirmed at this
          subst hp
          cases ha : st.accepted <;> simpa [ha] using this

theorem confirm_cases (s : Server T Id) (q : Finset Id) (p : Proposal Id) :
    ConfirmedAt s q p (s.confirm q p).1 (s.confirm q p).2 := by
  unfold confirm
  cases hs : s.state with
  | none =>
    simp only [Option.any_none, Bool.false_eq_true, if_false]
    split <;> exact ConfirmedAt.failed _
  | some st =>
    simp only [Option.any_some, decide_eq_true_eq]
    split
    · rename_i hv
      exact ConfirmedAt.obsolete hs hv
    · rename_i hv
      split
      · exact ConfirmedAt.failed _
      · obtain ⟨sp, _ | a⟩ := st
        · exact ConfirmedAt.failed _
        · simp only
          split
          · exact ConfirmedAt.failed _
          · rename_i hge
            have hle : p ≤ sp := not_lt.mp hge
            have hver : p.version = sp.version :=
              le_antisymm (Proposal.version_mono hle) (not_lt.mp hv)
            split
            · rename_i ha
              exact ConfirmedAt.already hs hle hver ha
            · rename_i ha
              exact ConfirmedAt.confirmed hs hle hver (by simpa using ha)

/-! The cases, as rules for a property of the result and of the server after the call. -/

theorem propose_rule {P : Except (Error Id) (Response T Id) → Server T Id → Prop}
    (h : ∀ res s', Proposed s p res s' → P res s') : P (s.propose q p).1 (s.propose q p).2 :=
  h _ _ (propose_cases s q p)

theorem accept_rule {v : Value T Id} {P : Except (Error Id) (Proposal Id) → Server T Id → Prop}
    (h : ∀ res s', AcceptedAt s p v res s' → P res s') : P (s.accept q p v).1 (s.accept q p v).2 :=
  h _ _ (accept_cases s q p v)

theorem confirm_rule {P : Except (Error Id) Unit → Server T Id → Prop}
    (h : ∀ res s', ConfirmedAt s q p res s' → P res s') : P (s.confirm q p).1 (s.confirm q p).2 :=
  h _ _ (confirm_cases s q p)

theorem handle_rule {r : Request T Id} {P : Server T Id → Prop} (h0 : P s)
    (hp : ∀ q p, r = .propose q p → ∀ res s', Proposed s p res s' → P s')
    (ha : ∀ q p v, r = .accept q p v → ∀ res s', AcceptedAt s p v res s' → P s')
    (hc : ∀ q p, r = .confirm q p → ∀ res s', ConfirmedAt s q p res s' → P s') :
    P (s.handle r).2 := by
  cases r with
  | propose q p => exact hp q p rfl _ _ (propose_cases s q p)
  | accept q p v => exact ha q p v rfl _ _ (accept_cases s q p v)
  | confirm q p => exact hc q p rfl _ _ (confirm_cases s q p)
  | get q => exact h0

/-- The cases of a call that was answered. -/
theorem propose_answer {r : Response T Id} (h : (s.handle (.propose q p)).1 = .ok (.response r)) :
    Proposed s p (.ok r) (s.propose q p).2 := by
  have hcases := propose_cases s q p
  cases hp : (s.propose q p).1 with
  | error e => simp [handle, hp, Except.map] at h
  | ok r' =>
    simp only [handle, hp, Except.map, Except.ok.injEq, Answer.response.injEq] at h
    rwa [hp, h] at hcases

end Server

end athena.paxos
