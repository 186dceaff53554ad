-- The client of `athena::paxos`, as `Client.hxx` computes it: how `choose`
-- weighs the answers of the peers, and how `state` gathers theirs. The calls
-- themselves, and the order in which the answers come, are in `PaxosWorld`.
import Mathlib.Order.WithBot
import Memo.PaxosServer

namespace athena.paxos

variable {T Id : Type}

/-! ## Algorithms of the standard library -/

/-- `std::max_element`: the first element that no other one exceeds. -/
def max_element {α : Type} (lt : α → α → Bool) : List α → Option α
  | [] => none
  | a :: l => some (l.foldl (fun largest x => if lt largest x then x else largest) a)

theorem foldl_max_spec {α β : Type} [LinearOrder β] {lt : α → α → Bool} (key : α → β)
    (l seen : List α) (a : α) (ha : a ∈ seen) (hmax : ∀ x ∈ seen, key x ≤ key a)
    (hkey : ∀ x ∈ seen ++ l, ∀ y ∈ seen ++ l, lt x y = true ↔ key x < key y) :
    l.foldl (fun largest x => if lt largest x then x else largest) a ∈ seen ++ l ∧
      ∀ x ∈ seen ++ l,
        key x ≤ key (l.foldl (fun largest x => if lt largest x then x else largest) a) := by
  induction l generalizing seen a with
  | nil => simpa using ⟨ha, hmax⟩
  | cons b l ih =>
    have hab := hkey a (by simp [ha]) b (by simp)
    have happ : seen ++ b :: l = (seen ++ [b]) ++ l := by simp
    rw [happ] at hkey ⊢
    simp only [List.foldl_cons]
    by_cases hlt : lt a b = true
    · rw [if_pos hlt]
      have hab' := hab.mp hlt
      refine ih (seen ++ [b]) b (by simp) ?_ hkey
      intro x hx
      rcases List.mem_append.mp hx with hx | hx
      · exact (hmax x hx).trans hab'.le
      · rw [List.mem_singleton.mp hx]
    · rw [if_neg hlt]
      have hab' : key b ≤ key a := not_lt.mp fun h => hlt (hab.mpr h)
      refine ih (seen ++ [b]) a (by simp [ha]) ?_ hkey
      intro x hx
      rcases List.mem_append.mp hx with hx | hx
      · exact hmax x hx
      · rw [List.mem_singleton.mp hx]
        exact hab'

theorem max_element_spec {α β : Type} [LinearOrder β] {lt : α → α → Bool} (key : α → β)
    {l : List α} {m : α} (hkey : ∀ x ∈ l, ∀ y ∈ l, lt x y = true ↔ key x < key y)
    (h : max_element lt l = some m) : m ∈ l ∧ ∀ x ∈ l, key x ≤ key m := by
  cases l with
  | nil => cases h
  | cons a l =>
    simp only [max_element, Option.some.injEq] at h
    subst h
    exact foldl_max_spec key l [a] a (by simp) (by simp) hkey

theorem max_element_mem {α : Type} {lt : α → α → Bool} {l : List α} {m : α}
    (h : max_element lt l = some m) : m ∈ l := by
  cases l with
  | nil => cases h
  | cons a l =>
    simp only [max_element, Option.some.injEq] at h
    subst h
    induction l generalizing a with
    | nil => simp
    | cons b l ih =>
      simp only [List.foldl_cons]
      split
      · exact List.mem_cons_of_mem _ (ih b)
      · rcases List.mem_cons.mp (ih a) with h | h
        · rw [h]
          exact List.mem_cons_self
        · exact List.mem_cons_of_mem _ (List.mem_cons_of_mem _ h)

/-! ## The head count -/

/-- Raises when too few members were reached: the weak error if there was one. A read is content
with one member less than half of an even quorum. -/
def check_headcount (q : Finset Id) (reached : Nat) (weak_error : Option (Error Id))
    (reading : Bool) : Except (Error Id) Unit :=
  if reached ≤ (q.card - if reading then 1 else 0) / 2 then
    match weak_error with
    | some e => .error e
    | none => .error (.too_few_peers reached q.card)
  else .ok ()

variable {responses : List (Response T Id)} {replace : Option (Value T Id)}
  {weak_error : Option (Error Id)} {q : Finset Id} {p : Proposal Id}

theorem check_headcount_ok {reached : Nat} {reading : Bool} {u : Unit}
    (h : check_headcount q reached weak_error reading = .ok u) :
    (q.card - if reading then 1 else 0) / 2 < reached := by
  unfold check_headcount at h
  by_cases hle : reached ≤ (q.card - if reading then 1 else 0) / 2
  · rw [if_pos hle] at h
    cases weak_error <;> cases h
  · exact not_le.mp hle

/-! ## The answers to a proposal -/

variable [LinearOrder Id]

/-- `Choice`: the proposal decided, with its value when it may not be the submitted one. -/
structure Choice (T Id : Type) where
  proposal : Proposal Id
  value : Option (Value T Id)

/-- The choice that a confirmed answer already gives. -/
def Response.choice (r : Response T Id) : Option (Choice T Id) :=
  match r.proposal, r.value, r.confirmed with
  | some p, some v, true => some ⟨p, some v⟩
  | _, _, _ => none

/-- The order of `valued`: the answers with a value are above the others, by proposal. A server
never sends a value without a proposal. -/
def Response.valued (l r : Response T Id) : Bool :=
  if l.value.isSome && r.value.isSome then
    match l.proposal, r.proposal with
    | some lp, some rp => lp < rp
    | _, _ => false
  else !l.value.isSome && r.value.isSome

/-- The order of `proposed`: the answers with a proposal are above the others, by proposal. -/
def Response.proposed (l r : Response T Id) : Bool :=
  match l.proposal, r.proposal with
  | some lp, some rp => lp < rp
  | none, some _ => true
  | _, _ => false

/-- What `choose` does once the proposal was answered by every peer that can be reached. -/
inductive Verdict (T Id : Type) where
  | chosen (choice : Choice T Id)
  | raise (e : Error Id)
  | retry (version round : Int) (replace : Option (Value T Id))
  | accept (replace : Option (Value T Id))

/-- The value to submit in place of the one of the caller: the accepted value with the highest
proposal among the answers, else the one found in an earlier attempt. -/
def replacement (replace : Option (Value T Id)) (responses : List (Response T Id)) :
    Option (Value T Id) :=
  match max_element Response.valued responses with
  | some r => if r.value.isSome then r.value else replace
  | none => replace

def weigh (q : Finset Id) (proposal : Proposal Id) (replace : Option (Value T Id))
    (weak_error : Option (Error Id)) (responses : List (Response T Id)) : Verdict T Id :=
  match responses.findSome? Response.choice with
  | some choice => .chosen choice
  | none =>
    match check_headcount q responses.length weak_error false with
    | .error e => .raise e
    | .ok () =>
      let replace := replacement replace responses
      match (max_element Response.proposed responses).bind (·.proposal) with
      | some rp =>
        -- another run of the same client id got the promises of this very proposal
        if proposal = rp then .retry proposal.version (rp.round + 1) replace
        else if proposal < rp then .retry rp.version rp.round replace
        else .accept replace
      | none => .accept replace

/-! ## What the weighing gives -/

/-- A value always comes with its proposal. -/
def Response.Labelled (r : Response T Id) : Prop := r.value.isSome → r.proposal.isSome

/-- The proposal of an answer with a value. -/
def Response.label (r : Response T Id) : WithBot (Proposal Id) :=
  match r.value, r.proposal with
  | some _, some p => p
  | _, _ => ⊥

theorem valued_iff {l r : Response T Id} (hl : l.Labelled) (hr : r.Labelled) :
    Response.valued l r = true ↔ l.label < r.label := by
  obtain ⟨lp, lv, lc⟩ := l
  obtain ⟨rp, rv, rc⟩ := r
  simp only [Response.Labelled] at hl hr
  cases lv <;> cases rv <;> cases lp <;> cases rp <;>
    simp_all [Response.valued, Response.label]

/-- The proposal of an answer, also without a value. -/
def Response.bound (r : Response T Id) : WithBot (Proposal Id) :=
  match r.proposal with
  | some p => p
  | none => ⊥

theorem proposed_iff (l r : Response T Id) : Response.proposed l r = true ↔ l.bound < r.bound := by
  obtain ⟨lp, lv, lc⟩ := l
  obtain ⟨rp, rv, rc⟩ := r
  cases lp <;> cases rp <;> simp [Response.proposed, Response.bound]

theorem replacement_of_valued (replace : Option (Value T Id)) (hl : ∀ r ∈ responses, r.Labelled)
    {r : Response T Id} (hr : r ∈ responses) (hv : r.value.isSome) :
    ∃ r₀ ∈ responses, ∃ l₀ v, r₀.proposal = some l₀ ∧ r₀.value = some v ∧
      replacement replace responses = some v ∧
      ∀ r ∈ responses, r.value.isSome → ∀ l, r.proposal = some l → l ≤ l₀ := by
  unfold replacement
  cases hm : max_element Response.valued responses with
  | none =>
    cases responses with
    | nil => cases hr
    | cons a l => cases hm
  | some m =>
    obtain ⟨hmem, hmax⟩ := max_element_spec Response.label
      (fun x hx y hy => valued_iff (hl x hx) (hl y hy)) hm
    have hle := hmax r hr
    obtain ⟨rl, hrl⟩ := Option.isSome_iff_exists.mp (hl r hr hv)
    obtain ⟨rv, hrv⟩ := Option.isSome_iff_exists.mp hv
    simp only [Response.label, hrv, hrl] at hle
    cases hmv : m.value with
    | none => simp [hmv] at hle
    | some v =>
      cases hmp : m.proposal with
      | none => simp [hmv, hmp] at hle
      | some l₀ =>
        refine ⟨m, hmem, l₀, v, hmp, hmv, by simp [hmv], ?_⟩
        intro r' hr' hv' l hl'
        obtain ⟨v', hv'⟩ := Option.isSome_iff_exists.mp hv'
        have := hmax r' hr'
        simpa [Response.label, hmv, hmp, hv', hl'] using this

theorem replacement_of_not_valued (h : ∀ r ∈ responses, r.value = none) :
    replacement replace responses = replace := by
  unfold replacement
  cases hm : max_element Response.valued responses with
  | none => rfl
  | some m =>
    have hmem := max_element_mem hm
    simp [h m hmem]

theorem replacement_mem {v : Value T Id} (h : replacement replace responses = some v) :
    replace = some v ∨ ∃ r ∈ responses, r.value = some v := by
  unfold replacement at h
  split at h
  · rename_i r hr
    split_ifs at h with hv
    · exact Or.inr ⟨r, max_element_mem hr, h⟩
    · exact Or.inl h
  · exact Or.inl h

theorem weigh_accept {replace' : Option (Value T Id)}
    (h : weigh q p replace weak_error responses = .accept replace') :
    (∀ r ∈ responses, r.choice = none) ∧ q.card / 2 < responses.length ∧
      (∀ r ∈ responses, r.Grants p) ∧ replace' = replacement replace responses := by
  unfold weigh at h
  cases hf : responses.findSome? Response.choice with
  | some c => simp [hf] at h
  | none =>
    simp only [hf] at h
    cases hh : check_headcount q responses.length weak_error false with
    | error e => simp [hh] at h
    | ok u =>
      simp only [hh] at h
      have hcount := check_headcount_ok hh
      have hnone := List.findSome?_eq_none_iff.mp hf
      cases hm : max_element Response.proposed responses with
      | none =>
        have hempty : responses = [] := by
          cases responses with
          | nil => rfl
          | cons a l => cases hm
        simp only [hm, Option.bind_none, Verdict.accept.injEq] at h
        exact ⟨hnone, by simpa using hcount, by simp [hempty], h.symm⟩
      | some m =>
        obtain ⟨hmem, hmax⟩ := max_element_spec Response.bound (fun x _ y _ => proposed_iff x y) hm
        simp only [hm, Option.bind_some] at h
        refine ⟨hnone, by simpa using hcount, ?_, ?_⟩
        · intro r hr l hl
          have hle := hmax r hr
          cases hmp : m.proposal with
          | none => simp [Response.bound, hl, hmp] at hle
          | some rp =>
            have hle' : l ≤ rp := by simpa [Response.bound, hl, hmp] using hle
            simp only [hmp] at h
            split_ifs at h with h1 h2
            exact lt_of_le_of_lt hle' (lt_of_le_of_ne (not_lt.mp h2) (Ne.symm h1))
        · cases hmp : m.proposal with
          | none =>
            simp only [hmp, Verdict.accept.injEq] at h
            exact h.symm
          | some rp =>
            simp only [hmp] at h
            split_ifs at h with h1 h2
            simp only [Verdict.accept.injEq] at h
            exact h.symm

theorem weigh_retry {replace' : Option (Value T Id)} {version round : Int}
    (h : weigh q p replace weak_error responses = .retry version round replace') :
    replace' = replacement replace responses ∧ ∃ rp : Proposal Id, p ≤ rp ∧
      rp.version = version ∧ ∀ r ∈ responses, ∀ l, r.proposal = some l → l ≤ rp := by
  unfold weigh at h
  cases hf : responses.findSome? Response.choice with
  | some c => simp [hf] at h
  | none =>
    simp only [hf] at h
    cases hh : check_headcount q responses.length weak_error false with
    | error e => simp [hh] at h
    | ok u =>
      simp only [hh] at h
      cases hm : max_element Response.proposed responses with
      | none => simp [hm] at h
      | some m =>
        obtain ⟨hmem, hmax⟩ := max_element_spec Response.bound (fun x _ y _ => proposed_iff x y) hm
        cases hmp : m.proposal with
        | none => simp [hm, hmp] at h
        | some rp =>
          have hle : ∀ r ∈ responses, ∀ l, r.proposal = some l → l ≤ rp := by
            intro r hr l hl
            simpa [Response.bound, hl, hmp] using hmax r hr
          simp only [hm, hmp, Option.bind_some] at h
          split_ifs at h with h1 h2
          · cases h
            exact ⟨rfl, rp, h1.le, by rw [h1], hle⟩
          · cases h
            exact ⟨rfl, rp, h2.le, rfl, hle⟩

theorem weigh_chosen {c : Choice T Id} (h : weigh q p replace weak_error responses = .chosen c) :
    ∃ r ∈ responses, r.choice = some c := by
  unfold weigh at h
  cases hf : responses.findSome? Response.choice with
  | some c' =>
    simp only [hf, Verdict.chosen.injEq] at h
    subst h
    exact List.exists_of_findSome?_eq_some hf
  | none =>
    simp only [hf] at h
    split at h
    · cases h
    · split at h
      · split_ifs at h
      · cases h

/-! ## Reading -/

/-- `Client::State`. -/
structure State (T Id : Type) where
  value : Option T
  quorum : Finset Id
  proposal : Option (Proposal Id)

/-- What `state` has gathered so far: the peers reached, the newest value, the newest wrong
quorum (expected, presented and proposal), and the first weak error. -/
structure Gathered (T Id : Type) where
  reached : List Id
  res : Option (Accepted T Id)
  wrong_quorum : Option (Finset Id × Finset Id × Proposal Id)
  weak_error : Option (Error Id)

namespace Gathered

def empty : Gathered T Id := ⟨[], none, none, none⟩

/-- The newest of the value gathered so far and the one of an answer: the first one of two that
have the same proposal. -/
def newest (res : Option (Accepted T Id)) (a : Accepted T Id) : Option (Accepted T Id) :=
  match res with
  | none => some a
  | some r => if r.proposal < a.proposal then some a else some r

/-- The answer of a peer. A wrong quorum without proposal, and any error that is neither
`Unavailable` nor a `WeakError`, ends the call. -/
def answered (g : Gathered T Id) (s : Id) :
    Except (Error Id) (Option (Accepted T Id)) → Except (Error Id) (Gathered T Id)
  | .ok none => .ok { g with reached := g.reached ++ [s] }
  | .ok (some a) => .ok { g with reached := g.reached ++ [s], res := newest g.res a }
  | .error (.wrong_quorum expected effective (some p)) =>
    let wrong_quorum := match g.wrong_quorum with
      | some (e, f, wp) => if wp < p then some (expected, effective, p) else some (e, f, wp)
      | none => some (expected, effective, p)
    .ok { g with reached := g.reached ++ [s], wrong_quorum }
  | .error e => .error e

/-- A peer failed with a `WeakError`. -/
def weakened (g : Gathered T Id) (e : Error Id) : Gathered T Id :=
  { g with weak_error := g.weak_error.or (some e) }

/-- The newest value gathered. -/
def value (g : Gathered T Id) (q : Finset Id) : Except (Error Id) (State T Id) :=
  match g.res with
  | some ⟨p, .value v, _⟩ => .ok ⟨some v, q, some p⟩
  | some ⟨_, .quorum _, _⟩ => .error (.assert_error "is<T>")
  | none => .ok ⟨none, q, none⟩

/-- The end of `state`. -/
def finish (g : Gathered T Id) (q : Finset Id) : Except (Error Id) (State T Id) :=
  match check_headcount q g.reached.length g.weak_error true with
  | .error e => .error e
  | .ok () =>
    match g.wrong_quorum with
    | some (expected, effective, p) =>
      if g.res.all (fun a => a.proposal < p) then
        .error (.wrong_quorum expected effective (some p))
      else g.value q
    | none => g.value q

end Gathered

end athena.paxos
