-- The loop of `Paxos::_rebalance`: it has a quorum chosen again and again until
-- the choice is made. The outcomes of the calls of each iteration are given; what
-- the loop asks for next is computed from them.
import Memo.PaxosClient
import Memo.ServerLaws

namespace memo.Paxos

open athena.paxos

/-! ## One iteration -/

/-- A client: the quorum it was built for, and the members that the lookup held. -/
structure PaxosClient (Id : Type) where
  quorum : Finset Id
  peers : Finset Id
deriving DecidableEq

/-- The variables of the loop: it calls `choose(version + 1, new_quorum)` on the client. -/
structure Attempt (Id : Type) where
  version : Int
  new_quorum : Finset Id
  client : PaxosClient Id
deriving DecidableEq

/-- How the calls of one iteration end. A member whose object is gone when the lookup yields is
not among the peers; `make_quorum` may fail to allocate nodes. -/
structure Outcomes (T Id : Type) where
  choose : Except (Error Id) (Choice T Id)
  make_quorum : Finset Id → Option (Finset Id)
  lookup_nodes : Finset Id → Finset Id
  propagate : Except (Error Id) Unit

inductive Iteration (Id : Type) where
  | returned (res : Bool)
  | raised (e : Error Id)
  | again (attempt : Attempt Id)
deriving DecidableEq

variable {T Id : Type} [DecidableEq Id] {factor : Int} {o : Outcomes T Id} {a b : Attempt Id}

/-- A client of the quorum. The constructor asserts that it has peers. -/
def client (o : Outcomes T Id) (quorum : Finset Id) : Option (PaxosClient Id) :=
  if o.lookup_nodes quorum = ∅ then none else some ⟨quorum, o.lookup_nodes quorum⟩

/-- The assertion of the constructor is not an `elle::Error`: no handler of the loop takes it. -/
def no_peers : Iteration Id := .raised (.assert_error "!this->_peers.empty()")

/-- The handlers of the loop. -/
def caught (o : Outcomes T Id) (a : Attempt Id) : Error Id → Iteration Id
  | .wrong_quorum expected _ _ =>
    match client o expected with
    | some client => .again { a with client }
    | none => no_peers
  | _ => .returned false

/-- `return propagate(...)`. -/
def propagated (o : Outcomes T Id) (a : Attempt Id) : Iteration Id :=
  match o.propagate with
  | .ok () => .returned true
  | .error e => caught o a e

def iteration (factor : Int) (o : Outcomes T Id) (a : Attempt Id) : Iteration Id :=
  match o.choose with
  | .error e => caught o a e
  | .ok ⟨_, none⟩ => propagated o a
  | .ok ⟨_, some (.value _)⟩ => .again { a with version := a.version + 1 }
  | .ok ⟨_, some (.quorum quorum)⟩ =>
    if quorum = a.new_quorum then propagated o a
    else if (quorum.card : Int) = factor then
      match o.make_quorum quorum with
      | none => .returned false
      | some new_quorum =>
        if new_quorum = quorum then propagated o { a with new_quorum }
        else
          match client o quorum with
          | some client => .again ⟨a.version + 1, new_quorum, client⟩
          | none => no_peers
    -- a quorum of another size has no branch of its own
    else .again a

/-! ## The loop -/

/-- Before the loop: nothing to do when the quorum is the wanted one already. -/
def start (client : PaxosClient Id) (new_quorum : Finset Id) (state : State T Id) :
    Option (Attempt Id) :=
  if new_quorum = state.quorum then none
  else some ⟨(state.proposal.map (·.version)).getD (-1), new_quorum, client⟩

/-- What the `n`-th iteration attempts, when the loop comes that far. -/
def attempts (factor : Int) (os : ℕ → Outcomes T Id) (first : Option (Attempt Id)) :
    ℕ → Option (Attempt Id)
  | 0 => first
  | n + 1 =>
    match attempts factor os first n with
    | some a =>
      match iteration factor (os n) a with
      | .again b => some b
      | _ => none
    | none => none

/-- `_rebalance`: the attempts of the loop for a client and the state it read. -/
def rebalance (factor : Int) (os : ℕ → Outcomes T Id) (client : PaxosClient Id)
    (new_quorum : Finset Id) (state : State T Id) : ℕ → Option (Attempt Id) :=
  attempts factor os (start client new_quorum state)

/-- The next attempt is for a greater version, or on a client built for another quorum. -/
def Advances (a b : Attempt Id) : Prop := a.version < b.version ∨ b.client.quorum ≠ a.client.quorum

/-- Each iteration that does not return goes on to an attempt that advances. -/
def Progresses (as : ℕ → Option (Attempt Id)) : Prop :=
  ∀ n a b, as n = some a → as (n + 1) = some b → Advances a b

/-! ## The iterations that do not advance -/

/-- `choose` ends on a quorum that is not the wanted one and has not the wanted size. -/
def Strays (factor : Int) (o : Outcomes T Id) (a : Attempt Id) : Prop :=
  ∃ p quorum, o.choose = .ok ⟨p, some (.quorum quorum)⟩ ∧ quorum ≠ a.new_quorum ∧
    (quorum.card : Int) ≠ factor

/-- `choose` ends on a quorum that the loop propagates. -/
def Settles (factor : Int) (o : Outcomes T Id) (a : Attempt Id) : Prop :=
  ∃ p v, o.choose = .ok ⟨p, v⟩ ∧
    (v = none ∨ ∃ quorum, v = some (.quorum quorum) ∧
      (quorum = a.new_quorum ∨
        (quorum.card : Int) = factor ∧ o.make_quorum quorum = some quorum))

/-- A member refuses a call for the quorum that the client was built for: `choose` presented the
members that the lookup held only, or a new owner that is sent the block keeps an older state. -/
def SentBack (factor : Int) (o : Outcomes T Id) (a : Attempt Id) : Prop :=
  o.lookup_nodes a.client.quorum ≠ ∅ ∧ ∃ effective p,
    o.choose = .error (.wrong_quorum a.client.quorum effective p) ∨
    Settles factor o a ∧ o.propagate = .error (.wrong_quorum a.client.quorum effective p)

/-! ## What an iteration leaves -/

theorem client_eq {q : Finset Id} {c : PaxosClient Id} :
    client o q = some c ↔ o.lookup_nodes q ≠ ∅ ∧ c = ⟨q, o.lookup_nodes q⟩ := by
  unfold client
  split_ifs with h
  · simp [h]
  · simp [h, eq_comm]

theorem caught_again {e : Error Id} :
    caught o a e = .again b ↔ ∃ expected effective p, e = .wrong_quorum expected effective p ∧
      o.lookup_nodes expected ≠ ∅ ∧
      b = { a with client := ⟨expected, o.lookup_nodes expected⟩ } := by
  cases e with
  | wrong_quorum expected effective p =>
    simp only [caught, Error.wrong_quorum.injEq]
    cases hc : client o expected with
    | none =>
      have hempty : o.lookup_nodes expected = ∅ := by simpa [client] using hc
      simp only [no_peers, reduceCtorEq, false_iff]
      rintro ⟨_, _, _, ⟨rfl, -, -⟩, hne, -⟩
      exact hne hempty
    | some c =>
      obtain ⟨hne, rfl⟩ := client_eq.mp hc
      simp only [Iteration.again.injEq]
      constructor
      · rintro rfl
        exact ⟨_, _, _, ⟨rfl, rfl, rfl⟩, hne, rfl⟩
      · rintro ⟨_, _, _, ⟨rfl, -, -⟩, -, rfl⟩
        rfl
  | _ => simp [caught]

theorem propagated_again :
    propagated o a = .again b ↔ ∃ expected effective p,
      o.propagate = .error (.wrong_quorum expected effective p) ∧
        o.lookup_nodes expected ≠ ∅ ∧
        b = { a with client := ⟨expected, o.lookup_nodes expected⟩ } := by
  unfold propagated
  cases o.propagate with
  | ok u => simp
  | error e => simp [caught_again]

/-- An iteration that does not return: `choose` ended on another value or on a quorum of the wanted
size, which the next attempt goes past; on a quorum of another size; or a wrong quorum was raised,
by `choose` or by the propagation. -/
inductive Continues (factor : Int) (o : Outcomes T Id) (a : Attempt Id) : Attempt Id → Prop
  | past {b : Attempt Id} (hv : b.version = a.version + 1) : Continues factor o a b
  | strays (h : Strays factor o a) : Continues factor o a a
  | refused {b : Attempt Id} {expected effective : Finset Id} {p : Option (Proposal Id)}
      (h : o.choose = .error (.wrong_quorum expected effective p) ∨
        Settles factor o a ∧ o.propagate = .error (.wrong_quorum expected effective p))
      (hl : o.lookup_nodes expected ≠ ∅) (hv : b.version = a.version)
      (hc : b.client = ⟨expected, o.lookup_nodes expected⟩) : Continues factor o a b

theorem iteration_again (h : iteration factor o a = .again b) : Continues factor o a b := by
  unfold iteration at h
  split at h
  · rename_i e he
    obtain ⟨expected, effective, p, rfl, hl, rfl⟩ := caught_again.mp h
    exact .refused (Or.inl he) hl rfl rfl
  · rename_i p he
    obtain ⟨expected, effective, p', hp, hl, rfl⟩ := propagated_again.mp h
    exact .refused (Or.inr ⟨⟨p, none, he, Or.inl rfl⟩, hp⟩) hl rfl rfl
  · cases h
    exact .past rfl
  · rename_i p quorum he
    split_ifs at h with hq hf
    · obtain ⟨expected, effective, p', hp, hl, rfl⟩ := propagated_again.mp h
      exact .refused (Or.inr ⟨⟨p, _, he, Or.inr ⟨quorum, rfl, Or.inl hq⟩⟩, hp⟩) hl rfl rfl
    · cases hm : o.make_quorum quorum with
      | none => simp [hm] at h
      | some new_quorum =>
        simp only [hm] at h
        split_ifs at h with hn
        · obtain ⟨expected, effective, p', hp, hl, rfl⟩ := propagated_again.mp h
          refine .refused (Or.inr ⟨⟨p, _, he, Or.inr ⟨quorum, rfl, Or.inr ⟨hf, ?_⟩⟩⟩, hp⟩) hl rfl
            rfl
          rw [hm, hn]
        · cases hc : client o quorum with
          | none => simp [hc, no_peers] at h
          | some c =>
            simp only [hc, Iteration.again.injEq] at h
            subst h
            exact .past rfl
    · cases h
      exact .strays ⟨p, quorum, he, hq, hf⟩

theorem iteration_of_strays (h : Strays factor o a) : iteration factor o a = .again a := by
  obtain ⟨p, quorum, he, hq, hf⟩ := h
  simp [iteration, he, hq, hf]

theorem iteration_of_settles (h : Settles factor o a) :
    ∃ new_quorum, iteration factor o a = propagated o { a with new_quorum } := by
  obtain ⟨p, v, he, rfl | ⟨quorum, rfl, rfl | ⟨hf, hm⟩⟩⟩ := h
  · exact ⟨a.new_quorum, by simp [iteration, he]⟩
  · exact ⟨a.new_quorum, by simp [iteration, he]⟩
  · refine ⟨quorum, ?_⟩
    by_cases hq : quorum = a.new_quorum
    · simp [iteration, he, hq]
    · simp [iteration, he, hq, hf, hm]

theorem iteration_of_sentBack (h : SentBack factor o a) :
    ∃ b, iteration factor o a = .again b ∧ b.version = a.version ∧
      b.client.quorum = a.client.quorum := by
  obtain ⟨hl, effective, p, he | ⟨hs, hp⟩⟩ := h
  · refine ⟨{ a with client := ⟨a.client.quorum, o.lookup_nodes a.client.quorum⟩ }, ?_, rfl, rfl⟩
    simp only [iteration, he]
    exact caught_again.mpr ⟨_, _, _, rfl, hl, rfl⟩
  · obtain ⟨new_quorum, hi⟩ := iteration_of_settles hs
    refine ⟨⟨a.version, new_quorum, ⟨a.client.quorum, o.lookup_nodes a.client.quorum⟩⟩, ?_, rfl,
      rfl⟩
    rw [hi]
    exact propagated_again.mpr ⟨_, _, _, hp, hl, rfl⟩

theorem advances_iff (h : iteration factor o a = .again b) :
    Advances a b ↔ ¬ Strays factor o a ∧ ¬ SentBack factor o a := by
  constructor
  · intro hadv
    constructor
    · intro hs
      rw [iteration_of_strays hs, Iteration.again.injEq] at h
      subst h
      simp [Advances] at hadv
    · intro hs
      obtain ⟨b', hb, hv, hc⟩ := iteration_of_sentBack hs
      rw [hb, Iteration.again.injEq] at h
      subst h
      simp [Advances, hv, hc] at hadv
  · rintro ⟨hstray, hback⟩
    cases iteration_again h with
    | past hv => exact Or.inl (by omega)
    | strays hs => exact absurd hs hstray
    | @refused b expected effective p he hl hv hc =>
      refine Or.inr fun heq => hback ?_
      rw [hc] at heq
      simp only at heq
      subst heq
      exact ⟨hl, effective, p, he⟩

/-! ## The whole loop -/

theorem attempts_succ {os : ℕ → Outcomes T Id} {first : Option (Attempt Id)} {n : ℕ}
    (ha : attempts factor os first n = some a) :
    attempts factor os first (n + 1) = some b ↔ iteration factor (os n) a = .again b := by
  simp only [attempts, ha]
  cases iteration factor (os n) a <;> simp

/-- The loop makes progress exactly when no iteration ends on a conflicting quorum of another size,
and no member refuses a call for the quorum that the client was built for. -/
theorem rebalance_progresses_iff (factor : Int) (os : ℕ → Outcomes T Id) (client : PaxosClient Id)
    (new_quorum : Finset Id) (state : State T Id) :
    Progresses (rebalance factor os client new_quorum state) ↔
      ∀ n a, rebalance factor os client new_quorum state n = some a →
        ¬ Strays factor (os n) a ∧ ¬ SentBack factor (os n) a := by
  constructor
  · intro h n a ha
    constructor
    · intro hs
      have hi := iteration_of_strays hs
      exact ((advances_iff hi).mp (h n a a ha ((attempts_succ ha).mpr hi))).1 hs
    · intro hs
      obtain ⟨b, hi, -⟩ := iteration_of_sentBack hs
      exact ((advances_iff hi).mp (h n a b ha ((attempts_succ ha).mpr hi))).2 hs
  · intro h n a b ha hb
    exact (advances_iff ((attempts_succ ha).mp hb)).mpr (h n a ha)

theorem attempts_of_strays (h : Strays factor o a) (n : ℕ) :
    attempts factor (fun _ => o) (some a) n = some a := by
  induction n with
  | zero => rfl
  | succ n ih => exact (attempts_succ ih).mpr (iteration_of_strays h)

/-! ## What the acceptors answer -/

/-- Another node elected one new owner of the two that the loop wants, at the version that the loop
attempts: the members answer each attempt with this quorum. -/
def elected : Outcomes Nat Nat where
  choose := .ok ⟨⟨1, 1, 2⟩, some (.quorum {1, 2})⟩
  make_quorum _ := some {1, 2, 3}
  lookup_nodes q := q
  propagate := .ok ()

theorem a_smaller_quorum_is_met_forever :
    ¬ Progresses (rebalance 3 (fun _ => elected) ⟨{1}, {1}⟩ {1, 2, 3}
        ⟨some 7, {1}, some ⟨0, 1, 1⟩⟩) ∧
      ∀ n, rebalance 3 (fun _ => elected) ⟨{1}, {1}⟩ {1, 2, 3} ⟨some 7, {1}, some ⟨0, 1, 1⟩⟩ n =
        some ⟨0, {1, 2, 3}, ⟨{1}, {1}⟩⟩ := by
  have hstray : Strays 3 elected ⟨0, {1, 2, 3}, ⟨{1}, {1}⟩⟩ :=
    ⟨_, _, rfl, by decide, by decide⟩
  have hsame := attempts_of_strays hstray
  refine ⟨fun h => ?_, hsame⟩
  have hadv := h 0 _ _ (hsame 0) (hsame 1)
  simp [Advances] at hadv

end memo.Paxos
