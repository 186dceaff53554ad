-- The cache of acceptors of a node, with the clock that orders it. The time of
-- the last use is a unique key: two entries that are used at one reading of the
-- clock cannot both stay.
import Mathlib.Order.Nat
import Memo.MultiIndex

open multi_index

namespace memo

structure DecisionEntry (A T D : Type) where
  address : A
  use : T
  decision : D
deriving DecidableEq

/-- `_addresses`. -/
abbrev Addresses (A T D : Type) [LinearOrder T] :=
  Container (DecisionEntry.address : DecisionEntry A T D → A) DecisionEntry.use

namespace Addresses

/-- What is on the disk under an address. -/
inductive Stored (B D : Type) where
  | block (b : B)
  | paxos (d : D)
deriving DecidableEq

/-- The exceptions, the failed assertion of an insertion, and an iterator to an entry that was
erased. -/
inductive Fault where
  | missing_key
  | missing_block
  | immutable_block
  | enforce
  | assert_inserted
  | dangling
deriving DecidableEq

/-- `_load`, or `_load_paxos` with the acceptor that it creates when there is none. -/
inductive Request (D : Type) where
  | load
  | load_paxos (fresh : Option D)

/-- A call, with the reading of the clock, what is on the disk and which acceptors other calls
have in use. -/
structure Call (A T B D : Type) where
  request : Request D
  address : A
  now : T
  stored : Option (Stored B D)
  used : A → Bool

variable {A T B D : Type} [DecidableEq A] [LinearOrder T]
variable {self : Addresses A T D} {a : A} {now : T} {c : Call A T B D}
variable {de : DecisionEntry A T D} {d : D}

/-! ## The functions -/

/-- The entry takes the reading of the clock. -/
def use (self : Addresses A T D) (a : A) (now : T) : Addresses A T D :=
  self.modify a fun de => { de with use := now }

/-- What the iterator to the entry of the address leads to. -/
def deref (self : Addresses A T D) (a : A) : Except Fault D :=
  match self.find a with
  | some de => .ok de.decision
  | none => .error .dangling

/-- The loop that drops entries, from the least recently used one. The number of entries is read
again at each turn. An entry in use is not stepped over. -/
def unload (max : Int) (used : A → Bool) (i : Nat) :
    List (DecisionEntry A T D) → List (DecisionEntry A T D)
  | [] => []
  | de :: l =>
    if (i : Int) < (l.length + 1 : Nat) - max then
      if used de.address then de :: l else unload max used (i + 1) l
    else de :: l

omit [DecidableEq A] [LinearOrder T] in
theorem unload_suffix {max : Int} {used : A → Bool} {i : Nat}
    (l : List (DecisionEntry A T D)) : unload max used i l <:+ l := by
  induction l generalizing i with
  | nil => exact List.suffix_rfl
  | cons de l ih =>
    unfold unload
    split_ifs
    · exact List.suffix_rfl
    · exact ih.trans (List.suffix_cons de l)
    · exact List.suffix_rfl

omit [DecidableEq A] [LinearOrder T] in
theorem mem_unload_of_used {max : Int} {used : A → Bool} {i : Nat}
    {l : List (DecisionEntry A T D)} (hm : de ∈ l) (hu : used de.address = true) :
    de ∈ unload max used i l := by
  induction l generalizing i with
  | nil => exact hm
  | cons x l ih =>
    unfold unload
    split_ifs with _ hx
    · exact hm
    · rcases List.mem_cons.mp hm with rfl | hm
      · exact absurd hu hx
      · exact ih hm
    · exact hm

/-- `_load_paxos(address, decision)`. The acceptor that it returns is in use. -/
def _load_decision (max : Int) (a : A) (d : D) (now : T) (used : A → Bool)
    (self : Addresses A T D) : Except Fault D × Addresses A T D :=
  let ir := self.insert ⟨a, now, d⟩
  if ir.2 then
    (.ok d, ir.1.part (unload max (fun a' => a' = a || used a') 0 ir.1.elements)
      (unload_suffix _).sublist)
  else (.error .assert_inserted, ir.1)

def _load (max : Int) (c : Call A T B D) (self : Addresses A T D) :
    Except Fault (Stored B D) × Addresses A T D :=
  match self.find c.address with
  | some _ => ((deref (use self c.address c.now) c.address).map .paxos,
      use self c.address c.now)
  | none =>
    match c.stored with
    | none => (.error .missing_key, self)
    | some (.block b) => (.ok (.block b), self)
    | some (.paxos d) =>
      let r := _load_decision max c.address d c.now c.used self
      (r.1.map .paxos, r.2)

def _load_paxos (max : Int) (c : Call A T B D) (fresh : Option D) (self : Addresses A T D) :
    Except Fault D × Addresses A T D :=
  match self.find c.address with
  | some _ => (deref (use self c.address c.now) c.address, use self c.address c.now)
  | none =>
    match _load max c self with
    | (.ok (.block _), self) => (.error .immutable_block, self)
    | (.ok (.paxos _), self) =>
      (match self.find c.address with
        | some de => .ok de.decision
        | none => .error .enforce, self)
    | (.error .missing_key, self) =>
      match fresh with
      | some d => _load_decision max c.address d c.now c.used self
      | none => (.error .missing_block, self)
    | (.error e, self) => (.error e, self)

/-- The call, with the acceptor that it returns when it returns one. -/
def call (max : Int) (self : Addresses A T D) (c : Call A T B D) :
    Except Fault (Option D) × Addresses A T D :=
  match c.request with
  | .load =>
    let r := _load max c self
    (r.1.map fun s => match s with
      | .block _ => none
      | .paxos d => some d, r.2)
  | .load_paxos fresh =>
    let r := _load_paxos max c fresh self
    (r.1.map some, r.2)

/-- The cache after a list of calls, whether they failed or not. -/
def after (max : Int) (self : Addresses A T D) (cs : List (Call A T B D)) : Addresses A T D :=
  cs.foldl (fun self c => (call max self c).2) self

/-- The acceptor that the call inserts when the address is not in the cache. -/
def Call.brought (c : Call A T B D) : Option D :=
  match c.stored, c.request with
  | some (.paxos d), _ => some d
  | some (.block _), _ => none
  | none, .load => none
  | none, .load_paxos fresh => fresh

/-! ## One call -/

theorem find_use {x : DecisionEntry A T D} (hf : self.find a = some de)
    (hx : (self.use a now).find a = some x) : x.decision = de.decision := by
  rw [Container.find_modify_eq hf (Container.mem_of_find hf).2 hx]

theorem deref_use (hf : self.find a = some de) :
    (∃ x, (self.use a now).find a = some x) ↔
      deref (self.use a now) a = .ok de.decision := by
  unfold deref
  constructor
  · rintro ⟨x, hx⟩
    rw [hx, ← find_use hf hx]
  · intro h
    cases hx : (self.use a now).find a with
    | none => simp [hx] at h
    | some x => exact ⟨x, rfl⟩

theorem find_use_iff (hf : self.find a = some de) :
    (∃ x, (self.use a now).find a = some x) ↔
      ∀ x ∈ self.elements, x.address ≠ a → x.use ≠ now :=
  Container.find_modify hf (Container.mem_of_find hf).2

theorem load_decision_spec (max : Int) (d : D) (now : T) (used : A → Bool)
    (hf : self.find a = none) :
    ((_load_decision max a d now used self).1 = .ok d ∧
        (_load_decision max a d now used self).2.find a = some ⟨a, now, d⟩ ∧
        ∀ x ∈ self.elements, x.use ≠ now) ∨
      ((_load_decision max a d now used self).1 = .error .assert_inserted ∧
        (_load_decision max a d now used self).2 = self ∧ ∃ x ∈ self.elements, x.use = now) := by
  have hnew : ∀ x ∈ self.elements, x.address ≠ a := Container.find_eq_none.mp hf
  by_cases hu : ∀ x ∈ self.elements, x.use ≠ now
  · left
    have hfree : Free DecisionEntry.address DecisionEntry.use self.elements
        (⟨a, now, d⟩ : DecisionEntry A T D) := fun x hx => ⟨hnew x hx, hu x hx⟩
    have hin := (Container.insert_free hfree).1
    have hm := ((Container.insert_free hfree).2 ⟨a, now, d⟩).mpr (Or.inl rfl)
    simp only [_load_decision, hin, if_true]
    refine ⟨trivial, Container.find_eq_some.mpr ⟨?_, rfl⟩, hu⟩
    exact mem_unload_of_used hm (by simp)
  · right
    push Not at hu
    obtain ⟨x, hx, hxu⟩ := hu
    have htaken : ¬ Free DecisionEntry.address DecisionEntry.use self.elements
        (⟨a, now, d⟩ : DecisionEntry A T D) := fun hfree => (hfree x hx).2 hxu
    simp only [_load_decision, Container.insert_taken htaken, Bool.false_eq_true, if_false]
    exact ⟨trivial, trivial, x, hx, hxu⟩

theorem call_cached (max : Int) (hf : self.find c.address = some de) :
    call max self c =
      ((deref (self.use c.address c.now) c.address).map some, self.use c.address c.now) := by
  unfold call
  cases c.request with
  | load =>
    simp only [_load, hf]
    cases deref (self.use c.address c.now) c.address <;> rfl
  | load_paxos fresh => simp only [_load_paxos, hf]

theorem call_brought (max : Int) (hf : self.find c.address = none) (hb : c.brought = some d) :
    call max self c =
      ((_load_decision max c.address d c.now c.used self).1.map some,
        (_load_decision max c.address d c.now c.used self).2) := by
  have hspec := load_decision_spec max d c.now c.used hf
  unfold Call.brought at hb
  unfold call
  cases hs : c.stored with
  | none =>
    cases hr : c.request with
    | load => simp [hs, hr] at hb
    | load_paxos fresh =>
      simp only [hs, hr] at hb
      simp [_load_paxos, _load, hf, hs, hb]
  | some st =>
    cases st with
    | block b => simp [hs] at hb
    | paxos d' =>
      simp only [hs, Option.some.injEq] at hb
      subst hb
      cases hr : c.request with
      | load =>
        simp only [_load, hf, hs]
        cases (_load_decision max c.address d' c.now c.used self).1 <;> rfl
      | load_paxos fresh =>
        rcases hspec with ⟨hok, hfind, -⟩ | ⟨herr, -, -⟩
        · simp [_load_paxos, _load, hf, hs, hok, hfind, Except.map]
        · simp [_load_paxos, _load, hf, hs, herr, Except.map]

/-! ## What a call keeps -/

/-- The call returns the acceptor that it touches or inserts, which is in the cache afterwards. -/
structure Kept (max : Int) (s : Addresses A T D) (c : Call A T B D) : Prop where
  touched : ∀ de, s.find c.address = some de → (call max s c).1 = .ok (some de.decision) ∧
    ∃ x, (call max s c).2.find c.address = some x ∧ x.decision = de.decision
  inserted : ∀ d, s.find c.address = none → c.brought = some d →
    (call max s c).1 = .ok (some d) ∧
      ∃ x, (call max s c).2.find c.address = some x ∧ x.decision = d

/-- The reading of the clock is not the time of the entry of another address. -/
def Untaken (self : Addresses A T D) (c : Call A T B D) : Prop :=
  (∃ de, self.find c.address = some de) ∨ (∃ d, c.brought = some d) →
    ∀ x ∈ self.elements, x.address ≠ c.address → x.use ≠ c.now

theorem kept_iff (max : Int) (self : Addresses A T D) (c : Call A T B D) :
    Kept max self c ↔ Untaken self c := by
  cases hf : self.find c.address with
  | some de =>
    have hcall := call_cached max hf
    have hderef : (∃ x, (self.use c.address c.now).find c.address = some x) ↔ _ := deref_use hf
    have htouch : (∃ x, (self.use c.address c.now).find c.address = some x) ↔ _ := find_use_iff hf
    constructor
    · intro hk _
      obtain ⟨-, x, hx, -⟩ := hk.touched de hf
      rw [hcall] at hx
      exact htouch.mp ⟨x, hx⟩
    · intro hu
      obtain ⟨x, hx⟩ := htouch.mpr (hu (Or.inl ⟨de, hf⟩))
      refine ⟨fun de' hde' => ?_, fun d hnone => by simp [hf] at hnone⟩
      obtain rfl := Option.some.inj (hf.symm.trans hde')
      rw [hcall, hderef.mp ⟨x, hx⟩]
      exact ⟨rfl, x, hx, find_use hf hx⟩
  | none =>
    have hother : ∀ x ∈ self.elements, x.address ≠ c.address := Container.find_eq_none.mp hf
    constructor
    · rintro hk (⟨de, hde⟩ | ⟨d, hb⟩) x hx -
      · simp [hf] at hde
      · have hin := (hk.inserted d hf hb).1
        rw [call_brought max hf hb] at hin
        rcases load_decision_spec max d c.now c.used hf with ⟨-, -, hfree⟩ | ⟨herr, -⟩
        · exact hfree x hx
        · simp [herr, Except.map] at hin
    · intro hu
      refine ⟨fun de hde => by simp [hf] at hde, fun d _ hb => ?_⟩
      rw [call_brought max hf hb]
      rcases load_decision_spec max d c.now c.used hf with ⟨hok, hfind, -⟩ | ⟨-, -, x, hx, hxu⟩
      · rw [hok]
        exact ⟨rfl, _, hfind, rfl⟩
      · exact absurd hxu (hu (Or.inr ⟨d, hb⟩) x hx (hother x hx))

/-! ## Sequences of calls -/

/-- In a sequence of calls each keeps what it touches and inserts if and only if none of them
comes at a reading of the clock that is already the time of another address. -/
theorem acceptors_kept_iff (max : Int) (self : Addresses A T D) (cs : List (Call A T B D)) :
    (∀ done c, done ++ [c] <+: cs → Kept max (after max self done) c) ↔
      ∀ done c, done ++ [c] <+: cs → Untaken (after max self done) c := by
  constructor
  · intro h done c hp
    exact (kept_iff max _ c).mp (h done c hp)
  · intro h done c hp
    exact (kept_iff max _ c).mpr (h done c hp)

/-- An acceptor is loaded from the disk. -/
def fetched (a now d : Nat) : Call Nat Nat Unit Nat :=
  ⟨.load, a, now, some (.paxos d), fun _ => false⟩

/-- Two addresses that are used at one reading of the clock: the second that is touched leaves
the cache, and the second that is inserted does not enter it. -/
theorem acceptor_lost_at_one_reading :
    ¬ Kept 100 (after 100 ⟨[], .nil, .nil⟩ [fetched 1 5 11, fetched 2 6 12]) (fetched 1 6 11) ∧
      ¬ Kept 100 (after 100 ⟨[], .nil, .nil⟩ [fetched 1 5 11]) (fetched 2 5 12) := by
  simp only [kept_iff]
  constructor
  · intro h
    exact h (Or.inl ⟨⟨1, 5, 11⟩, by decide⟩) ⟨2, 6, 12⟩ (by decide) (by decide) rfl
  · intro h
    exact h (Or.inr ⟨12, rfl⟩) ⟨1, 5, 11⟩ (by decide) (by decide) rfl

end Addresses

end memo
