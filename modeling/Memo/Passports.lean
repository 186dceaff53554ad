-- The passports of a network and the user blocks that carry them, as
-- `Passport.cc`, `UB.cc` and `Doughnut::verify` have them. A passport is signed
-- by the owner of the network or by a certifier, whose own passport is looked
-- up in the blocks that users publish.
import Memo.LocalPeer
import Memo.Walks

open walks

namespace memo

/-! ## Keys, signatures and addresses -/

/-- A field of the JSON object that is signed. -/
inductive Field (K : Type) where
  | key (k : K)
  | text (s : String)
  | flag (b : Bool)
deriving DecidableEq

/-- What is signed: the fields of the JSON object, in order. -/
abbrev Fingerprint (K : Type) := List (String × Field K)

/-- `Address`. The last byte may hold the kind of the block. -/
structure Address (H : Type) where
  value : H
  flag_byte : UInt8
deriving DecidableEq

namespace Address

variable {H : Type}

def immutable_block : UInt8 := 1

/-- The address of a digest, with the kind of the block when `combine` is set. -/
def of_digest (digest : H × UInt8) (flags : UInt8) (combine : Bool) : Address H :=
  ⟨digest.1, if combine then flags else digest.2⟩

def equal_unflagged [DecidableEq H] (lhs rhs : Address H) : Bool := lhs.value = rhs.value

end Address

/-- The cryptography of `elle`: the verification of a signature, the digest of a text, as its last
byte and what is before it, the text of the encoding of a public key, and how the messages show an
address and a key. -/
structure Cryptography (K Sig H : Type) where
  verify : K → Sig → Fingerprint K → Bool
  hash : String → H × UInt8
  der : K → String
  show_address : Address H → String
  show_key : K → String

/-! ## Passports -/

structure Passport (K Sig : Type) where
  user : K
  network : String
  signature : Sig
  allow_write : Bool
  allow_storage : Bool
  allow_sign : Bool
  certifier : Option K
deriving DecidableEq

/-- The user block: the key of a user by name, or the name by key when `reverse` is set. -/
structure UB (K Sig H : Type) where
  address : Address H
  name : String
  key : K
  reverse : Bool
  passport : Option (Passport K Sig)

/-- The node: the owner of its network, whether its version is at least 0.5.0, and what it finds
at an address. There is none when fetching throws. -/
structure Doughnut (K Sig H : Type) where
  owner : K
  combine : Bool
  fetch : Address H → Option (UB K Sig H)

section

variable {K Sig H : Type} [DecidableEq K]

namespace Passport

/-- What is signed, with the rights or, before 0.5.0, without them. -/
def fingerprint (p : Passport K Sig) (acl : Bool) : Fingerprint K :=
  [("user", .key p.user), ("network", .text p.network)] ++
    if acl then
      [("allow_write", .flag p.allow_write), ("allow_storage", .flag p.allow_storage),
        ("allow_sign", .flag p.allow_sign)]
    else []

/-- The passport that the owner of a key issues. `sign` is by its private key. -/
def issue (user : K) (network : String) (owner : K) (sign : Fingerprint K → Sig)
    (store_certifier allow_write allow_storage allow_sign : Bool) : Passport K Sig :=
  let fingerprint : Fingerprint K :=
    [("user", .key user), ("network", .text network), ("allow_write", .flag allow_write),
      ("allow_storage", .flag allow_storage), ("allow_sign", .flag allow_sign)]
  { user, network, signature := sign fingerprint, allow_write, allow_storage, allow_sign,
    certifier := if store_certifier then some owner else none }

/-- With and without the rights; a signature without them does not allow to sign. -/
def verify (crypto : Cryptography K Sig H) (p : Passport K Sig) (owner : K) : Bool :=
  if p.certifier.any (· ≠ owner) then false
  else if crypto.verify owner p.signature (p.fingerprint true) then true
  else if crypto.verify owner p.signature (p.fingerprint false) then !p.allow_sign
  else false

end Passport

namespace UB

def hash_address_name (crypto : Cryptography K Sig H) (name : String) (combine : Bool) :
    Address H :=
  Address.of_digest (crypto.hash ("UB/" ++ name)) Address.immutable_block combine

def hash_address_key (crypto : Cryptography K Sig H) (key : K) (combine : Bool) : Address H :=
  Address.of_digest (crypto.hash ("RUB/" ++ crypto.der key)) Address.immutable_block combine

def expected_address (crypto : Cryptography K Sig H) (combine : Bool) (ub : UB K Sig H) :
    Address H :=
  if ub.reverse then hash_address_key crypto ub.key combine
  else hash_address_name crypto ub.name combine

/-- `UB::_validate`. -/
def _validate [DecidableEq H] (crypto : Cryptography K Sig H) (combine : Bool) (ub : UB K Sig H) :
    ValidationResult :=
  if !Address.equal_unflagged ub.address (ub.expected_address crypto combine) then
    .failure ("address " ++ crypto.show_address ub.address ++ " invalid, expecting " ++
      crypto.show_address (ub.expected_address crypto combine))
  else
    match ub.passport with
    | some passport =>
      if passport.user ≠ ub.key then
        .failure ("user key mismatch in passport: " ++ crypto.show_key ub.key ++ " v s " ++
          crypto.show_key passport.user)
      else .success
    | none => .success

end UB

namespace Doughnut

/-- `Doughnut::verify`, with a bound on the number of calls. There is no result when it does not
return within the bound. -/
def verify (crypto : Cryptography K Sig H) (dht : Doughnut K Sig H) :
    Nat → Passport K Sig → Bool → Bool → Bool → Option Bool
  | 0, _, _, _, _ => none
  | calls + 1, passport, require_write, require_storage, require_sign =>
    if (require_write && !passport.allow_write) || (require_storage && !passport.allow_storage) ||
        (require_sign && !passport.allow_sign) then
      some false
    else
      match passport.certifier with
      | none => some (passport.verify crypto dht.owner)
      | some certifier =>
        if certifier = dht.owner then some (passport.verify crypto dht.owner)
        else if !passport.verify crypto certifier then some false
        else
          match dht.fetch (UB.hash_address_key crypto certifier dht.combine) with
          | none => some false
          | some ub =>
            match ub.passport with
            | none => some false
            | some p => verify crypto dht calls p false false true

/-! ## One call of the verification -/

variable (crypto : Cryptography K Sig H) (dht : Doughnut K Sig H)
variable {p p' : Passport K Sig} {k : K} {w s g : Bool} {calls : Nat}

/-- The passport has the rights that are required. -/
def Has (p : Passport K Sig) (require_write require_storage require_sign : Bool) : Prop :=
  (require_write = true → p.allow_write = true) ∧
    (require_storage = true → p.allow_storage = true) ∧
    (require_sign = true → p.allow_sign = true)

instance : Decidable (Has p w s g) := inferInstanceAs (Decidable (_ ∧ _ ∧ _))

/-- The key that must have signed the passport. -/
def certified_by (p : Passport K Sig) : K := p.certifier.getD dht.owner

/-- The passport that the user of a key published. -/
def published (k : K) : Option (Passport K Sig) :=
  (dht.fetch (UB.hash_address_key crypto k dht.combine)).bind (·.passport)

/-- The passport that the verification goes on with: the one of the certifier, when it is not the
owner and its signature is right. -/
def followed (p : Passport K Sig) : Option (Passport K Sig) :=
  match p.certifier with
  | none => none
  | some c => if c ≠ dht.owner ∧ p.verify crypto c = true then published crypto dht c else none

variable {crypto dht}

theorem followed_iff : followed crypto dht p = some p' ↔
    p.certifier = some (certified_by dht p) ∧ certified_by dht p ≠ dht.owner ∧
      p.verify crypto (certified_by dht p) = true ∧
      published crypto dht (certified_by dht p) = some p' := by
  unfold followed certified_by
  cases p.certifier with
  | none => simp
  | some c =>
    by_cases h : c ≠ dht.owner ∧ p.verify crypto c = true
    · simp [h]
    · simp only [h, if_false, Option.getD_some]
      constructor
      · intro hn
        cases hn
      · rintro ⟨-, h1, h2, -⟩
        exact absurd ⟨h1, h2⟩ h

omit [DecidableEq K] in
theorem certifier_of_ne (h : certified_by dht p ≠ dht.owner) :
    p.certifier = some (certified_by dht p) := by
  unfold certified_by at h ⊢
  cases hc : p.certifier with
  | none => simp [hc] at h
  | some c => rfl

theorem verify_succ :
    verify crypto dht (calls + 1) p w s g =
      if Has p w s g then
        match followed crypto dht p with
        | some p' => verify crypto dht calls p' false false true
        | none => some (decide (certified_by dht p = dht.owner) && p.verify crypto dht.owner)
      else some false := by
  have hrights : ((w && !p.allow_write) || (s && !p.allow_storage) || (g && !p.allow_sign)) = true ↔
      ¬ Has p w s g := by
    unfold Has
    cases w <;> cases s <;> cases g <;> cases p.allow_write <;> cases p.allow_storage <;>
      cases p.allow_sign <;> decide
  conv_lhs => unfold verify
  by_cases hhas : Has p w s g
  · rw [if_neg (fun h => hrights.mp h hhas), if_pos hhas]
    unfold followed certified_by published
    cases p.certifier with
    | none => simp
    | some c =>
      by_cases hc : c = dht.owner
      · simp [hc]
      · cases hv : p.verify crypto c with
        | false => simp [hc, hv]
        | true =>
          simp only [hc, hv, if_false, Bool.not_true, Bool.false_eq_true, ne_eq, not_false_eq_true,
            and_self, if_true, Option.getD_some, decide_false, Bool.false_and]
          cases dht.fetch (UB.hash_address_key crypto c dht.combine) with
          | none => rfl
          | some ub =>
            simp only [Option.bind_some]
            cases ub.passport <;> rfl
  · rw [if_pos (hrights.mpr hhas), if_neg hhas]

omit [DecidableEq K] in
theorem Has.sign (h : p.allow_sign = true) : Has p false false true :=
  ⟨nofun, nofun, fun _ => h⟩

/-! ## Signatures -/

/-- The key signed the passport with its rights, or without them when it does not allow to
sign. -/
def SignedBy (signs : K → Fingerprint K → Sig → Prop) (p : Passport K Sig) (k : K) : Prop :=
  signs k (p.fingerprint true) p.signature ∨
    signs k (p.fingerprint false) p.signature ∧ p.allow_sign = false

/-- The signatures that a key verifies are those that it made. -/
def Unforgeable (crypto : Cryptography K Sig H) (signs : K → Fingerprint K → Sig → Prop) : Prop :=
  ∀ k sig m, crypto.verify k sig m = true ↔ signs k m sig

variable {signs : K → Fingerprint K → Sig → Prop}

theorem passport_verify_iff (hsign : Unforgeable crypto signs) :
    p.verify crypto k = true ↔ (∀ c, p.certifier = some c → c = k) ∧ SignedBy signs p k := by
  unfold Passport.verify SignedBy
  rw [← hsign, ← hsign]
  cases hc : p.certifier with
  | none =>
    simp only [Option.any_none, Bool.false_eq_true, if_false, reduceCtorEq, false_implies,
      implies_true, true_and]
    split_ifs <;> simp_all
  | some c =>
    simp only [Option.any_some, ne_eq, decide_not, Bool.not_eq_true', decide_eq_false_iff_not,
      Option.some.injEq, forall_eq']
    split_ifs <;> simp_all

theorem owner_verify_iff (hsign : Unforgeable crypto signs) :
    (certified_by dht p = dht.owner ∧ p.verify crypto dht.owner = true) ↔
      certified_by dht p = dht.owner ∧ SignedBy signs p (certified_by dht p) := by
  rw [passport_verify_iff hsign]
  unfold certified_by
  constructor
  · rintro ⟨hc, -, hs⟩
    exact ⟨hc, by rwa [hc]⟩
  · rintro ⟨hc, hs⟩
    rw [hc] at hs
    refine ⟨hc, fun c hcert => ?_, hs⟩
    rwa [hcert] at hc

theorem certifier_verify_iff (hsign : Unforgeable crypto signs)
    (hc : p.certifier = some (certified_by dht p)) :
    p.verify crypto (certified_by dht p) = true ↔ SignedBy signs p (certified_by dht p) := by
  rw [passport_verify_iff hsign]
  refine ⟨And.right, fun hs => ⟨fun c hcert => ?_, hs⟩⟩
  rw [hcert] at hc
  exact (Option.some.inj hc)

/-! ## Chains of trust -/

/-- The chain `p, p₁, …, pₙ`: each passport is signed by its certifier, which is the user of the
next one, each next one allows to sign, and the last one is signed by the owner. -/
def TrustChain (signs : K → Fingerprint K → Sig → Prop) (dht : Doughnut K Sig H)
    (p : Passport K Sig) : List (Passport K Sig) → Prop
  | [] => SignedBy signs p (certified_by dht p) ∧ certified_by dht p = dht.owner
  | p' :: chain => SignedBy signs p (certified_by dht p) ∧ p'.user = certified_by dht p ∧
      p'.allow_sign = true ∧ TrustChain signs dht p' chain

/-- The chain goes through the published blocks, and only its last passport is certified by the
owner. -/
def Through (crypto : Cryptography K Sig H) (dht : Doughnut K Sig H) (p : Passport K Sig) :
    List (Passport K Sig) → Prop
  | [] => True
  | p' :: chain => certified_by dht p ≠ dht.owner ∧
      published crypto dht (certified_by dht p) = some p' ∧ Through crypto dht p' chain

/-- No two texts have the same digest, even without the last byte, and no two keys the same
encoding. -/
structure CollisionFree (crypto : Cryptography K Sig H) : Prop where
  hash : ∀ x y, (crypto.hash x).1 = (crypto.hash y).1 → x = y
  der : ∀ k k', crypto.der k = crypto.der k' → k = k'

/-- Fetching gives the block of the address, and checks it. -/
def Checked [DecidableEq H] (crypto : Cryptography K Sig H) (dht : Doughnut K Sig H) : Prop :=
  ∀ a ub, dht.fetch a = some ub → ub.address = a ∧ ub._validate crypto dht.combine = .success

theorem validate_key [DecidableEq H] {ub : UB K Sig H} {combine : Bool}
    (hfree : CollisionFree crypto) (ha : ub.address = UB.hash_address_key crypto k combine)
    (hv : ub._validate crypto combine = .success) :
    ub.key = k ∧ ∀ p, ub.passport = some p → p.user = k := by
  unfold UB._validate at hv
  split at hv
  · cases hv
  · rename_i haddress
    have hkey : ub.key = k := by
      simp only [Address.equal_unflagged, ha, UB.expected_address, Bool.not_eq_true',
        decide_eq_false_iff_not, not_not] at haddress
      split at haddress
      · apply hfree.der
        exact (String.append_right_inj _).mp (hfree.hash _ _ haddress).symm
      · -- the text of a name is never the text of a key
        have := congrArg String.toList (hfree.hash _ _ haddress)
        simp at this
    refine ⟨hkey, fun p hp => ?_⟩
    rw [hp] at hv
    simp only at hv
    split at hv
    · cases hv
    · rename_i hu
      rw [not_not.mp hu, hkey]

theorem published_user [DecidableEq H] (hfree : CollisionFree crypto) (hfetch : Checked crypto dht)
    (h : published crypto dht k = some p) : p.user = k := by
  unfold published at h
  obtain ⟨ub, hub, hp⟩ := Option.bind_eq_some_iff.mp h
  obtain ⟨ha, hv⟩ := hfetch _ ub hub
  exact (validate_key hfree ha hv).2 p hp

/-- What is accepted has the rights, and what holds of the passports that the owner signed, and of
those that a published passport certifies, holds of it. -/
theorem accepted_induction (hsign : Unforgeable crypto signs) {P : Passport K Sig → Prop}
    (howner : ∀ p, SignedBy signs p (certified_by dht p) → certified_by dht p = dht.owner → P p)
    (hcertified : ∀ p p', published crypto dht (certified_by dht p) = some p' →
      SignedBy signs p (certified_by dht p) → p'.allow_sign = true → P p' → P p)
    (h : verify crypto dht calls p w s g = some true) : Has p w s g ∧ P p := by
  induction calls generalizing p w s g with
  | zero => cases h
  | succ calls ih =>
    rw [verify_succ] at h
    split_ifs at h with hhas
    · refine ⟨hhas, ?_⟩
      cases hf : followed crypto dht p with
      | none =>
        simp only [hf, Option.some.injEq, Bool.and_eq_true, decide_eq_true_eq] at h
        obtain ⟨hc, hs⟩ := (owner_verify_iff hsign).mp h
        exact howner p hs hc
      | some p' =>
        simp only [hf] at h
        obtain ⟨hsome, -, hv, hp⟩ := followed_iff.mp hf
        obtain ⟨hhas', hp'⟩ := ih h
        exact hcertified p p' hp ((certifier_verify_iff hsign hsome).mp hv) (hhas'.2.2 rfl) hp'
    · cases h

theorem accepted_chain [DecidableEq H] (hsign : Unforgeable crypto signs)
    (hfree : CollisionFree crypto) (hfetch : Checked crypto dht)
    (h : verify crypto dht calls p w s g = some true) :
    Has p w s g ∧ ∃ chain, TrustChain signs dht p chain := by
  apply accepted_induction hsign _ _ h
  · exact fun p hs hc => ⟨[], hs, hc⟩
  · rintro p p' hp hs hallow ⟨chain, hchain⟩
    exact ⟨p' :: chain, hs, published_user hfree hfetch hp, hallow, hchain⟩

theorem chain_accepted (hsign : Unforgeable crypto signs) (chain : List (Passport K Sig))
    (hhas : Has p w s g) (hchain : TrustChain signs dht p chain)
    (hthrough : Through crypto dht p chain) :
    verify crypto dht (chain.length + 1) p w s g = some true := by
  induction chain generalizing p w s g with
  | nil =>
    have howner := (owner_verify_iff hsign).mpr ⟨hchain.2, hchain.1⟩
    have hf : followed crypto dht p = none := by
      cases hf : followed crypto dht p with
      | none => rfl
      | some p' => exact absurd hchain.2 (followed_iff.mp hf).2.1
    rw [verify_succ, if_pos hhas, hf]
    simp [howner]
  | cons p' chain ih =>
    obtain ⟨hs, -, hallow, hrest⟩ := hchain
    obtain ⟨hne, hp, hthrough'⟩ := hthrough
    have hc : p.certifier = some (certified_by dht p) := certifier_of_ne hne
    have hf : followed crypto dht p = some p' :=
      followed_iff.mpr ⟨hc, hne, (certifier_verify_iff hsign hc).mpr hs, hp⟩
    rw [verify_succ, if_pos hhas, hf]
    exact ih (Has.sign hallow) hrest hthrough'

end Doughnut

end

end memo
