-- The laws of the passports: what is accepted has a chain of trust up to the
-- owner, the verification ends unless the certifiers come back to one of them,
-- and the name of the network is signed but never looked at.
import Memo.Passports

open walks

namespace memo.Doughnut

variable {K Sig H : Type} [DecidableEq K]
variable {crypto : Cryptography K Sig H} {dht : Doughnut K Sig H}
variable {p p' : Passport K Sig} {w s g : Bool} {calls : Nat}
variable {signs : K → Fingerprint K → Sig → Prop}

/-! ## Chains of trust -/

/-- A passport that is accepted has the rights and a chain of trust, and a passport with the
rights and a chain through the published blocks is accepted. -/
theorem an_accepted_passport_has_a_chain_of_trust [DecidableEq H] (crypto : Cryptography K Sig H)
    (signs : K → Fingerprint K → Sig → Prop) (hsign : Unforgeable crypto signs)
    (hfree : CollisionFree crypto) (dht : Doughnut K Sig H) (hfetch : Checked crypto dht)
    (p : Passport K Sig) (require_write require_storage require_sign : Bool) :
    ((∃ calls, verify crypto dht calls p require_write require_storage require_sign = some true) →
      Has p require_write require_storage require_sign ∧ ∃ chain, TrustChain signs dht p chain) ∧
    (Has p require_write require_storage require_sign →
      (∃ chain, TrustChain signs dht p chain ∧ Through crypto dht p chain) →
        ∃ calls,
          verify crypto dht calls p require_write require_storage require_sign = some true) := by
  constructor
  · rintro ⟨calls, h⟩
    exact accepted_chain hsign hfree hfetch h
  · rintro hhas ⟨chain, hchain, hthrough⟩
    exact ⟨chain.length + 1, chain_accepted hsign chain hhas hchain hthrough⟩

/-- Keys and digests that are texts, and signatures that show what they sign. -/
def plain_crypto : Cryptography String (String × Fingerprint String) String where
  verify k sig m := decide (sig = (k, m))
  hash text := (text, 0)
  der k := k
  show_address a := a.value
  show_key k := k

def stamps (k : String) (m : Fingerprint String) (sig : String × Fingerprint String) : Prop :=
  sig = (k, m)

/-- The passport of a user, signed by a certifier. -/
def passport_of (user network certifier : String) (allow_sign : Bool) :
    Passport String (String × Fingerprint String) :=
  Passport.issue user network certifier (fun m => (certifier, m)) true true true allow_sign

/-- The block in which a user publishes a passport. -/
def block_of (p : Passport String (String × Fingerprint String)) :
    UB String (String × Fingerprint String) String where
  address := UB.hash_address_key plain_crypto p.user true
  name := p.user
  key := p.user
  reverse := true
  passport := some p

/-- A node of the network of Owner, where one passport is published. -/
def node_with (p : Passport String (String × Fingerprint String)) :
    Doughnut String (String × Fingerprint String) String where
  owner := "Owner"
  combine := true
  fetch a := if a = UB.hash_address_key plain_crypto p.user true then some (block_of p) else none

theorem plain_unforgeable : Unforgeable plain_crypto stamps := by
  intro k sig m
  simp [plain_crypto, stamps]

theorem plain_collision_free : CollisionFree plain_crypto :=
  ⟨fun _ _ h => h, fun _ _ h => h⟩

theorem node_with_checked (p : Passport String (String × Fingerprint String)) :
    Checked plain_crypto (node_with p) := by
  intro a ub h
  simp only [node_with] at h
  split_ifs at h with ha
  cases h
  exact ⟨ha.symm, by simp [UB._validate, UB.expected_address, block_of, node_with,
    Address.equal_unflagged]⟩

/-- The passport of Bob is signed by Alice, and the one of Alice by the owner. -/
theorem bob_has_a_chain_of_trust :
    ∃ chain, TrustChain stamps (node_with (passport_of "Alice" "home" "Owner" true))
      (passport_of "Bob" "home" "Alice" false) chain :=
  ((an_accepted_passport_has_a_chain_of_trust plain_crypto stamps plain_unforgeable
    plain_collision_free (node_with (passport_of "Alice" "home" "Owner" true))
    (node_with_checked _) (passport_of "Bob" "home" "Alice" false) true true false).1
      ⟨2, by decide⟩).2

/-! ## The end of the verification -/

variable (crypto dht) in
/-- The passport that the next call goes on with: it must allow to sign. -/
def pursued (p : Passport K Sig) : Option (Passport K Sig) :=
  (followed crypto dht p).filter (·.allow_sign)

theorem pursued_iff : pursued crypto dht p = some p' ↔
    followed crypto dht p = some p' ∧ p'.allow_sign = true := by
  unfold pursued
  exact Option.filter_eq_some_iff

theorem verify_of_not_pursued (h : pursued crypto dht p = none) :
    ∃ b, verify crypto dht 2 p w s g = some b := by
  rw [verify_succ]
  split_ifs
  · cases hf : followed crypto dht p with
    | none => exact ⟨_, rfl⟩
    | some p' =>
      refine ⟨false, ?_⟩
      have hallow : ¬ Has p' false false true := by
        intro hhas
        have := pursued_iff.mpr ⟨hf, hhas.2.2 rfl⟩
        rw [h] at this
        cases this
      simp only
      rw [verify_succ, if_neg hallow]
  · exact ⟨false, rfl⟩

theorem verify_of_pursued (hhas : Has p w s g) (h : pursued crypto dht p = some p') :
    verify crypto dht (calls + 1) p w s g = verify crypto dht calls p' false false true := by
  rw [verify_succ, if_pos hhas, (pursued_iff.mp h).1]

theorem returns_iff (hhas : Has p w s g) :
    (∃ calls b, verify crypto dht calls p w s g = some b) ↔ Ends (pursued crypto dht) p := by
  constructor
  · rintro ⟨calls, b, h⟩
    induction calls generalizing p w s g with
    | zero => cases h
    | succ calls ih =>
      cases hp : pursued crypto dht p with
      | none => exact ⟨1, by simp [walk, hp]⟩
      | some p' =>
        rw [verify_of_pursued hhas hp] at h
        obtain ⟨n, hn⟩ := ih (Has.sign (pursued_iff.mp hp).2) h
        exact ⟨n + 1, by rw [walk_succ hp, hn]⟩
  · rintro ⟨n, hn⟩
    induction n generalizing p w s g with
    | zero => cases hn
    | succ n ih =>
      cases hp : pursued crypto dht p with
      | none =>
        obtain ⟨b, hb⟩ := verify_of_not_pursued (w := w) (s := s) (g := g) hp
        exact ⟨2, b, hb⟩
      | some p' =>
        rw [walk_succ hp] at hn
        obtain ⟨calls, b, hb⟩ := ih (Has.sign (pursued_iff.mp hp).2) hn
        exact ⟨calls + 1, b, by rw [verify_of_pursued hhas hp, hb]⟩

theorem pursued_finite (hfinite : {a | dht.fetch a ≠ none}.Finite) :
    {p' | ∃ p, pursued crypto dht p = some p'}.Finite := by
  have himage := (hfinite.image fun a => (dht.fetch a).bind (·.passport)).preimage
    ((Option.some_injective (Passport K Sig)).injOn)
  refine himage.subset ?_
  rintro p' ⟨p, hp⟩
  have hpublished := (followed_iff.mp (pursued_iff.mp hp).1).2.2.2
  unfold published at hpublished
  refine ⟨UB.hash_address_key crypto (certified_by dht p) dht.combine, ?_, hpublished⟩
  intro hnone
  rw [hnone] at hpublished
  cases hpublished

/-- The verification returns unless it goes on from a passport with the rights and the certifiers
come back: over finitely many published blocks, it meets no passport twice. -/
theorem verification_ends_unless_the_certifiers_come_back (crypto : Cryptography K Sig H)
    (dht : Doughnut K Sig H) (hfinite : {a | dht.fetch a ≠ none}.Finite) (p : Passport K Sig)
    (require_write require_storage require_sign : Bool) :
    (∃ calls b, verify crypto dht calls p require_write require_storage require_sign = some b) ↔
      (Has p require_write require_storage require_sign →
        ¬ ComesBack (pursued crypto dht) p) := by
  by_cases hhas : Has p require_write require_storage require_sign
  · rw [returns_iff hhas, ends_iff (pursued_finite hfinite)]
    exact ⟨fun h _ => h, fun h => h hhas⟩
  · refine ⟨fun _ h => absurd h hhas, fun _ => ⟨1, false, ?_⟩⟩
    rw [verify_succ, if_neg hhas]

/-- Mallory certifies and publishes her own passport: verifying it never ends. -/
theorem a_user_who_certifies_herself_is_verified_forever :
    Checked plain_crypto (node_with (passport_of "Mallory" "home" "Mallory" true)) ∧
    ¬ ∃ calls b, verify plain_crypto (node_with (passport_of "Mallory" "home" "Mallory" true)) calls
      (passport_of "Mallory" "home" "Mallory" true) false false false = some b := by
  refine ⟨node_with_checked _, ?_⟩
  have hself : pursued plain_crypto (node_with (passport_of "Mallory" "home" "Mallory" true))
      (passport_of "Mallory" "home" "Mallory" true) =
        some (passport_of "Mallory" "home" "Mallory" true) := by decide
  rw [returns_iff (by decide)]
  exact not_ends_of_comesBack ⟨0, 1, _, by decide, rfl, hself⟩

theorem node_with_finite (p : Passport String (String × Fingerprint String)) :
    {a | (node_with p).fetch a ≠ none}.Finite := by
  refine (Set.finite_singleton (UB.hash_address_key plain_crypto p.user true)).subset ?_
  intro a ha
  by_contra hne
  exact ha (if_neg hne)

/-- The passport of Bob goes on to the one of Alice, and no further. -/
theorem the_verification_of_bob_ends :
    ∃ calls b, verify plain_crypto (node_with (passport_of "Alice" "home" "Owner" true)) calls
      (passport_of "Bob" "home" "Alice" false) true true false = some b := by
  apply (verification_ends_unless_the_certifiers_come_back plain_crypto
    (node_with (passport_of "Alice" "home" "Owner" true)) (node_with_finite _)
    (passport_of "Bob" "home" "Alice" false) true true false).mpr
  intro _ hback
  exact not_ends_of_comesBack hback ⟨2, by decide⟩

/-! ## Networks of one owner -/

/-- The keys whose passports are accepted: the owner, and the users with a published passport that
allows to sign and that a recognised key signed. -/
inductive Recognised (signs : K → Fingerprint K → Sig → Prop) (crypto : Cryptography K Sig H)
    (dht : Doughnut K Sig H) : K → Prop
  | owner : Recognised signs crypto dht dht.owner
  | certified {k : K} {p : Passport K Sig} (hp : published crypto dht k = some p)
      (hallow : p.allow_sign = true) (hs : SignedBy signs p (certified_by dht p))
      (hk : Recognised signs crypto dht (certified_by dht p)) : Recognised signs crypto dht k

theorem accepted_recognised (hsign : Unforgeable crypto signs)
    (h : verify crypto dht calls p w s g = some true) :
    Has p w s g ∧ SignedBy signs p (certified_by dht p) ∧
      Recognised signs crypto dht (certified_by dht p) := by
  apply accepted_induction hsign _ _ h
  · intro p hs hc
    refine ⟨hs, ?_⟩
    rw [hc]
    exact Recognised.owner
  · intro p p' hp hs hallow hp'
    exact ⟨hs, Recognised.certified hp hallow hp'.1 hp'.2⟩

theorem owner_accepted (hsign : Unforgeable crypto signs) (hhas : Has p w s g)
    (hs : SignedBy signs p (certified_by dht p)) (hc : certified_by dht p = dht.owner) :
    ∃ calls, verify crypto dht calls p w s g = some true :=
  ⟨1, chain_accepted hsign [] hhas ⟨hs, hc⟩ trivial⟩

theorem recognised_accepted (hsign : Unforgeable crypto signs) {k : K}
    (hr : Recognised signs crypto dht k) (hhas : Has p w s g) (hk : certified_by dht p = k)
    (hs : SignedBy signs p k) : ∃ calls, verify crypto dht calls p w s g = some true := by
  induction hr generalizing p w s g with
  | owner => exact owner_accepted hsign hhas (by rwa [hk]) hk
  | @certified k p' hp hallow hs' _ ih =>
    subst hk
    by_cases hne : certified_by dht p = dht.owner
    · exact owner_accepted hsign hhas hs hne
    · obtain ⟨calls, h⟩ := ih (Has.sign hallow) rfl hs'
      have hc := certifier_of_ne hne
      have hf : followed crypto dht p = some p' :=
        followed_iff.mpr ⟨hc, hne, (certifier_verify_iff hsign hc).mpr hs, hp⟩
      exact ⟨calls + 1, by rw [verify_succ, if_pos hhas, hf]; exact h⟩

theorem along_accepted {q : Passport K Sig} {i : Nat}
    (h : verify crypto dht calls p w s g = some true)
    (hq : walk (followed crypto dht) i p = some q) :
    ∃ calls w s g, verify crypto dht calls q w s g = some true := by
  induction i generalizing p w s g calls with
  | zero =>
    cases hq
    exact ⟨calls, w, s, g, h⟩
  | succ i ih =>
    cases hf : followed crypto dht p with
    | none => simp [walk, hf] at hq
    | some p' =>
      rw [walk_succ hf] at hq
      cases calls with
      | zero => cases h
      | succ calls =>
        rw [verify_succ, hf] at h
        split_ifs at h
        · exact ih h hq
        · cases h

/-- The node accepts no passport that names the network, neither when it is presented nor as the
passport of a certifier. -/
def Separate (crypto : Cryptography K Sig H) (dht : Doughnut K Sig H) (network : String) : Prop :=
  ∀ p calls w s g, verify crypto dht calls p w s g = some true →
    ∀ i q, walk (followed crypto dht) i p = some q → q.network ≠ network

/-- A network stays separate from another one of the same owner as long as no passport that names
it is signed by a recognised key, and no longer. -/
theorem networks_stay_separate_while_recognised_keys_sign_no_passport_of_both
    (crypto : Cryptography K Sig H) (signs : K → Fingerprint K → Sig → Prop)
    (hsign : Unforgeable crypto signs) (dht : Doughnut K Sig H) (network : String) :
    Separate crypto dht network ↔
      ∀ p : Passport K Sig, p.network = network → SignedBy signs p (certified_by dht p) →
        ¬ Recognised signs crypto dht (certified_by dht p) := by
  constructor
  · intro h p hn hs hr
    have hhas : Has p false false false := ⟨nofun, nofun, nofun⟩
    obtain ⟨calls, hv⟩ := recognised_accepted hsign hr hhas rfl hs
    exact h p calls false false false hv 0 p rfl hn
  · intro h p calls w s g hv i q hq hn
    obtain ⟨calls', w', s', g', hv'⟩ := along_accepted hv hq
    obtain ⟨-, hs, hr⟩ := accepted_recognised hsign hv'
    exact h q hn hs hr

/-- A passport for the network home is accepted by every node of another network of the same
owner: nothing tells the node how its own network is called. -/
theorem a_passport_of_another_network_is_accepted :
    (passport_of "Bob" "home" "Owner" false).network ≠ "work" ∧
    verify plain_crypto (node_with (passport_of "Alice" "work" "Owner" true)) 1
      (passport_of "Bob" "home" "Owner" false) true true false = some true ∧
    ¬ Separate plain_crypto (node_with (passport_of "Alice" "work" "Owner" true)) "home" := by
  have hv : verify plain_crypto (node_with (passport_of "Alice" "work" "Owner" true)) 1
      (passport_of "Bob" "home" "Owner" false) true true false = some true := by decide
  exact ⟨by decide, hv, fun h => h _ 1 true true false hv 0 _ rfl rfl⟩

/-- Nobody signs a passport for the network home. -/
def signs_not_for_home (k : String) (m : Fingerprint String)
    (sig : String × Fingerprint String) : Prop :=
  sig = (k, m) ∧ ("network", Field.text "home") ∉ m

instance (k : String) (m : Fingerprint String) (sig : String × Fingerprint String) :
    Decidable (signs_not_for_home k m sig) := inferInstanceAs (Decidable (_ ∧ _))

def crypto_not_for_home : Cryptography String (String × Fingerprint String) String :=
  { plain_crypto with verify := fun k sig m => decide (signs_not_for_home k m sig) }

/-- An owner who signs no passport for home keeps it separate from work. -/
theorem home_stays_separate_from_work :
    verify crypto_not_for_home (node_with (passport_of "Alice" "work" "Owner" true)) 2
      (passport_of "Bob" "work" "Alice" false) true true false = some true ∧
    Separate crypto_not_for_home (node_with (passport_of "Alice" "work" "Owner" true)) "home" := by
  refine ⟨by decide, ?_⟩
  apply (networks_stay_separate_while_recognised_keys_sign_no_passport_of_both crypto_not_for_home
    signs_not_for_home (fun k sig m => by simp [crypto_not_for_home])
    (node_with (passport_of "Alice" "work" "Owner" true)) "home").mpr
  intro p hn hs _
  have hnamed : ∀ acl, ("network", Field.text "home") ∈ p.fingerprint acl := by
    intro acl
    simp [Passport.fingerprint, hn]
  rcases hs with hs | hs
  · exact hs.2 (hnamed true)
  · exact hs.1.2 (hnamed false)

end memo.Doughnut
