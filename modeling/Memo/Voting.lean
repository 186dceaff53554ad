-- Voting in ballots. Acceptors vote for values in ballots, and an acceptor
-- that moves past a ballot never votes in it again. The ballots of one
-- instance decide at most one value, when each vote is safe: no lower ballot
-- of the instance can still decide something else.
import Memo.Majority

open majority

namespace voting

variable {A B V ι : Type*}

/-- The votes cast, and the ballots that each acceptor has moved past. -/
structure Ledger (A B V : Type*) where
  voted : A → B → V → Prop
  closed : A → B → Prop

variable {L L' : Ledger A B V} {Q : Finset A} {inst : B → ι}

/-- A majority voted for the value in the ballot. -/
def Decided (L : Ledger A B V) (Q : Finset A) (b : B) (v : V) : Prop :=
  ∃ M, Majority Q M ∧ ∀ m ∈ M, L.voted m b v

/-- A majority voted for the value in the ballot, or still can. -/
def Choosable (L : Ledger A B V) (Q : Finset A) (b : B) (v : V) : Prop :=
  ∃ M, Majority Q M ∧ ∀ m ∈ M, L.voted m b v ∨ ¬ L.closed m b

/-- A later ledger: the votes stay, an acceptor never comes back to a ballot it moved past, and
a new vote is for a ballot that was open. -/
structure Grows (L L' : Ledger A B V) : Prop where
  votes : ∀ a b v, L.voted a b v → L'.voted a b v
  closed : ∀ a b, L.closed a b → L'.closed a b
  fresh : ∀ a b v, L'.voted a b v → L.voted a b v ∨ ¬ L.closed a b

theorem Decided.choosable {b : B} {v : V} (h : Decided L Q b v) : Choosable L Q b v := by
  obtain ⟨M, hM, hv⟩ := h
  exact ⟨M, hM, fun m hm => Or.inl (hv m hm)⟩

theorem Decided.voted {b : B} {v : V} (h : Decided L Q b v) : ∃ a, L.voted a b v := by
  obtain ⟨M, hM, hv⟩ := h
  obtain ⟨s, hs⟩ := hM.nonempty
  exact ⟨s, hv s hs⟩

theorem Choosable.of_grows {b : B} {v : V} (hg : Grows L L') (h : Choosable L' Q b v) :
    Choosable L Q b v := by
  obtain ⟨M, hM, hv⟩ := h
  refine ⟨M, hM, fun m hm => ?_⟩
  rcases hv m hm with h | h
  · exact hg.fresh _ _ _ h
  · exact Or.inr fun hc => h (hg.closed _ _ hc)

variable [LinearOrder B]

/-- No lower ballot of the same instance can decide another value. -/
def SafeAt (L : Ledger A B V) (Q : Finset A) (inst : B → ι) (b : B) (v : V) : Prop :=
  ∀ b' w, b' < b → inst b' = inst b → Choosable L Q b' w → w = v

/-- Each vote is safe, and a ballot has one value. -/
structure Sound (L : Ledger A B V) (Q : Finset A) (inst : B → ι) : Prop where
  safe : ∀ a b v, L.voted a b v → SafeAt L Q inst b v
  one_value : ∀ a a' b v v', L.voted a b v → L.voted a' b v' → v = v'

theorem SafeAt.grows {b : B} {v : V} (hg : Grows L L') (h : SafeAt L Q inst b v) :
    SafeAt L' Q inst b v :=
  fun b' w hlt hi hc => h b' w hlt hi (hc.of_grows hg)

theorem Sound.eq_of_decided {a : A} {b b' : B} {v w : V} (h : Sound L Q inst)
    (hd : Decided L Q b' w) (hv : L.voted a b v) (hle : b' ≤ b) (hi : inst b' = inst b) :
    w = v := by
  rcases lt_or_eq_of_le hle with hlt | heq
  · exact h.safe a b v hv b' w hlt hi hd.choosable
  · subst heq
    obtain ⟨a', ha'⟩ := hd.voted
    exact h.one_value _ _ _ _ _ ha' hv

theorem Sound.agreement {b b' : B} {v v' : V} (h : Sound L Q inst) (hd : Decided L Q b v)
    (hd' : Decided L Q b' v') (hi : inst b = inst b') : v = v' := by
  obtain ⟨a, ha⟩ := hd.voted
  obtain ⟨a', ha'⟩ := hd'.voted
  rcases le_total b b' with hle | hle
  · exact h.eq_of_decided hd ha' hle hi
  · exact (h.eq_of_decided hd' ha hle hi.symm).symm

variable [DecidableEq A] [LinearOrder ι]

/-- The rule of the proposer. A majority moved past every lower ballot and reported its last
vote of the instance; the value of the highest report is safe, and so is any value when there
is no report. -/
theorem safeAt_of_reports {R : Finset A} {b : B} {v : V} (report : A → B → V → Prop)
    (hs : Sound L Q inst) (hmono : Monotone inst) (hR : Majority Q R)
    (hclosed : ∀ r ∈ R, ∀ b' < b, L.closed r b')
    (hlast : ∀ r ∈ R, ∀ b' w, L.voted r b' w → b' < b → inst b' = inst b →
      ∃ l u, report r l u ∧ b' ≤ l)
    (hvote : ∀ r ∈ R, ∀ l u, report r l u →
      l < b ∧ (inst l = inst b → L.voted r l u))
    (hmax : ∀ r ∈ R, ∀ l u, report r l u → ∃ r₀ ∈ R, ∃ l₀, report r₀ l₀ v ∧ l ≤ l₀) :
    SafeAt L Q inst b v := by
  intro b' w hlt hi hc
  obtain ⟨M, hM, hv⟩ := hc
  obtain ⟨m, hmM, hmR⟩ := hM.meet hR
  have hvoted : L.voted m b' w := by
    rcases hv m hmM with h | h
    · exact h
    · exact absurd (hclosed m hmR b' hlt) h
  obtain ⟨l, u, hl, hle⟩ := hlast m hmR b' w hvoted hlt hi
  obtain ⟨r₀, hr₀, l₀, hl₀, hll₀⟩ := hmax m hmR l u hl
  obtain ⟨hl₀b, hr₀v⟩ := hvote r₀ hr₀ l₀ v hl₀
  have hb'l₀ : b' ≤ l₀ := le_trans hle hll₀
  -- the instance of `l₀` lies between two equal instances
  have hil₀ : inst l₀ = inst b :=
    le_antisymm (hmono hl₀b.le) (hi ▸ hmono hb'l₀)
  have hv₀ := hr₀v hil₀
  rcases lt_or_eq_of_le hb'l₀ with h | h
  · exact hs.safe r₀ l₀ v hv₀ b' w h (hi.trans hil₀.symm) ⟨M, hM, hv⟩
  · subst h
    exact hs.one_value _ _ _ _ _ hvoted hv₀

end voting
