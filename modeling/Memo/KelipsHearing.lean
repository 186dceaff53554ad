-- What a packet does to the contact that it comes from. `Node::get_or_make` looks the contact up,
-- moves it between the tables and makes it, and only does the last when there is room.
import Mathlib.Data.Fintype.Option
import Mathlib.Data.Fintype.Pigeonhole
import Memo.KelipsObservers

namespace memo.overlay.kelips

variable {A E : Type} {k : Nat} [DecidableEq A]

/-! ## The timeouts of the pings -/

/-- The `ping_timeouts` of the contacts, by table and address. -/
abbrev Pings (A : Type) (k : Nat) : Type := Option (Fin k) → A → Int

def Pings.set (pings : Pings A k) (table : Option (Fin k)) (a : A) (timeouts : Int) : Pings A k :=
  fun other b => if other = table ∧ b = a then timeouts else pings other b

/-- The `ping_timeouts` after `Node::get_or_make`: those of an entry that is moved go with it, and
a contact that is made has none. -/
def Node.get_or_make_pings (n : Node A E k) (a : A) (observer make : Bool) (pings : Pings A k) :
    Pings A k :=
  let table := n.target observer a
  let ntable := n.target (!observer) a
  if (n.find table a).isSome then
    pings
  else if (n.find ntable a).isSome then
    if observer then pings else pings.set table a (pings ntable a)
  else if make then
    pings.set table a 0
  else
    pings

/-- A node with the `ping_timeouts` of its contacts. -/
structure Pinged (A E : Type) (k : Nat) where
  node : Node A E k
  ping_timeouts : Pings A k

/-- `Node::onContactSeen`. -/
def Pinged.onContactSeen [DecidableEq E] (now : Time) (a : A) (endpoint : E) (observer : Bool)
    (s : Pinged A E k) : Pinged A E k where
  node := s.node.onContactSeen now a endpoint observer
  ping_timeouts :=
    if a = s.node._self then
      s.ping_timeouts
    else
      let make := observer || s.node.room (s.node.group_of a)
      let pings := s.node.get_or_make_pings a observer make s.ping_timeouts
      match (s.node.get_or_make now a observer [endpoint] make).2 with
      | some table => pings.set table a 0
      | none => pings

/-! ## Contacts that are heard from -/

namespace Node

variable {n : Node A E k} {a : A} {e : E} {now : Time} {observer : Bool} {table : Option (Fin k)}

/-- The node has a contact of the address, in the contacts or in the observers. -/
def Contacted (n : Node A E k) (a : A) : Prop :=
  ∃ observer, (n.find (n.target observer a) a).isSome

/-- The contact that is in the table was heard from at this endpoint and time. -/
def HeardIn [DecidableEq E] (n : Node A E k) (table : Option (Fin k)) (a : A) (e : E) (now : Time) :
    Prop :=
  ∃ c, n.find table a = some c ∧ c.validated_endpoint = some (e, now) ∧ Reached now e c.endpoints

/-- No table of another group has grown above its bound. -/
def Within (n n' : Node A E k) : Prop :=
  ∀ g ≠ n._group, (n.contacts (some g)).length < (n'.contacts (some g)).length →
    (n'.contacts (some g)).length ≤ n._config.max_other_contacts

/-- What the lookup of `get_or_make` does to the node and where it ends. -/
inductive Misplacing (n : Node A E k) (a : A) (observer : Bool) : Node A E k × Option (Fin k) → Prop
  | here (h : (n.find (n.target observer a) a).isSome) :
    Misplacing n a observer (n, n.target observer a)
  | there (ho : observer = true) (h : n.find (n.target observer a) a = none)
    (hother : (n.find (n.target (!observer) a) a).isSome) :
    Misplacing n a observer (n, n.target (!observer) a)
  | moved (c : Contact A E) (ho : observer = false) (h : n.find (n.target observer a) a = none)
    (hother : n.find (n.target (!observer) a) a = some c) :
    Misplacing n a observer
      ((n.add (n.target observer a) c).erase (n.target (!observer) a) a, n.target observer a)
  | nowhere (h : n.find (n.target observer a) a = none)
    (hother : n.find (n.target (!observer) a) a = none) :
    Misplacing n a observer (n, n.target observer a)

theorem misplacing (n : Node A E k) (a : A) (observer : Bool) :
    n.Misplacing a observer (n.misplaced a observer) := by
  unfold Node.misplaced
  dsimp only
  cases h : n.find (n.target observer a) a with
  | some c => exact .here (by rw [h]; rfl)
  | none =>
    cases hother : n.find (n.target (!observer) a) a with
    | none => exact .nowhere h hother
    | some c =>
      cases observer with
      | true => exact .there rfl h (by rw [hother]; rfl)
      | false => exact .moved c rfl h hother

variable {p : Node A E k × Option (Fin k)}

omit [DecidableEq A] in
theorem length_add (n : Node A E k) (table : Option (Fin k)) (c : Contact A E)
    (other : Option (Fin k)) :
    ((n.add table c).contacts other).length =
      (n.contacts other).length + if other = table then 1 else 0 := by
  unfold add
  by_cases ht : other = table
  · subst ht
    rw [contacts_set_self]
    simp
  · rw [contacts_set_ne _ _ ht, if_neg ht]
    rfl

theorem length_update (n : Node A E k) (table : Option (Fin k)) (b : A)
    (f : Contact A E → Contact A E) (other : Option (Fin k)) :
    ((n.update table b f).contacts other).length = (n.contacts other).length := by
  unfold update
  by_cases ht : other = table
  · subst ht
    rw [contacts_set_self, List.length_map]
  · rw [contacts_set_ne _ _ ht]

theorem length_erase_le (n : Node A E k) (table : Option (Fin k)) (b : A)
    (other : Option (Fin k)) :
    ((n.erase table b).contacts other).length ≤ (n.contacts other).length := by
  unfold erase
  by_cases ht : other = table
  · subst ht
    rw [contacts_set_self]
    exact List.length_filter_le _ _
  · rw [contacts_set_ne _ _ ht]

theorem Misplacing.config (h : n.Misplacing a observer p) :
    p.1._config = n._config ∧ p.1._self = n._self ∧ ∃ other, p.2 = n.target other a := by
  cases h with
  | here => exact ⟨rfl, rfl, _, rfl⟩
  | there => exact ⟨rfl, rfl, _, rfl⟩
  | moved => exact ⟨rfl, rfl, _, rfl⟩
  | nowhere => exact ⟨rfl, rfl, _, rfl⟩

theorem Misplacing.found (h : n.Misplacing a observer p) (hc : n.Contacted a) :
    (p.1.find p.2 a).isSome := by
  cases h with
  | here h => exact h
  | there ho h hother => exact hother
  | moved c ho h hother =>
    subst ho
    have hca : c.address = a := (find_mem hother).2
    have hne : ¬(n.target false a = n.target (!false) a ∧ a = a) := fun heq => nomatch heq.1
    change ((((n.add (n.target false a) c).erase (n.target (!false) a) a).find
      (n.target false a) a)).isSome
    rw [find_erase, if_neg hne, find_add (by rw [hca]; exact h), if_pos ⟨rfl, hca.symm⟩]
    rfl
  | nowhere h hother =>
    obtain ⟨other, hsome⟩ := hc
    rcases Bool.eq_or_eq_not other observer with rfl | rfl
    · rw [h] at hsome
      cases hsome
    · rw [hother] at hsome
      cases hsome

theorem Misplacing.length (h : n.Misplacing a observer p) (g : Fin k) :
    (p.1.contacts (some g)).length + (if p.1.find p.2 a = none ∧ some g = p.2 then 1 else 0) ≤
      (n.contacts (some g)).length + if observer = false ∧ g = n.group_of a then 1 else 0 := by
  cases h with
  | here h =>
    obtain ⟨c, hc⟩ := Option.isSome_iff_exists.mp h
    simp [hc]
  | there ho h hother =>
    obtain ⟨c, hc⟩ := Option.isSome_iff_exists.mp hother
    simp [hc]
  | moved c ho h hother =>
    subst ho
    have hcontacted : n.Contacted a := ⟨!false, by rw [hother]; rfl⟩
    have hfound : (((n.add (n.target false a) c).erase (n.target (!false) a) a).find
        (n.target false a) a).isSome := (Misplacing.moved c rfl h hother).found hcontacted
    obtain ⟨d, hd⟩ := Option.isSome_iff_exists.mp hfound
    have herase := length_erase_le (n.add (n.target false a) c) (n.target (!false) a) a (some g)
    have hadd := length_add n (n.target false a) c (some g)
    have htarget : (some g = n.target false a) ↔ g = n.group_of a := by simp [target]
    simp only [hd, reduceCtorEq, false_and, if_false, true_and]
    simp only [htarget] at hadd
    omega
  | nowhere h hother =>
    have htarget : (some g = n.target observer a) ↔ observer = false ∧ g = n.group_of a := by
      cases observer <;> simp [target]
    simp only [h, htarget, true_and]
    exact Nat.le_refl _

variable [DecidableEq E]

theorem get_or_make_made (n : Node A E k) (now : Time) (a : A) (observer : Bool)
    (endpoints : List E) : ∃ n' : Node A E k,
    n.get_or_make now a observer endpoints true = (n', some (n.misplaced a observer).2) ∧
      (n'.find (n.misplaced a observer).2 a).isSome ∧
      n'._config = (n.misplaced a observer).1._config ∧
      n'._self = (n.misplaced a observer).1._self ∧
      ∀ other, (n'.contacts other).length = ((n.misplaced a observer).1.contacts other).length +
        if (n.misplaced a observer).1.find (n.misplaced a observer).2 a = none ∧
          other = (n.misplaced a observer).2 then 1 else 0 := by
  unfold Node.get_or_make
  obtain ⟨m, table⟩ := n.misplaced a observer
  dsimp only
  rw [if_pos rfl]
  cases hfind : m.find table a with
  | none =>
    dsimp only
    have hadded : ∀ c : Contact A E, c.address = a → ((m.add table c).find table a).isSome := by
      rintro c rfl
      rw [find_add hfind, if_pos ⟨rfl, rfl⟩]
      rfl
    refine ⟨_, rfl, ?_, ?_, ?_, fun other => ?_⟩
    · split
      · exact hadded _ rfl
      · exact hadded _ rfl
    · split <;> rfl
    · split <;> rfl
    · have hlength := fun c => length_add m table c other
      simp only [true_and]
      split
      · exact hlength _
      · exact hlength _
  | some c =>
    dsimp only
    have hupdated : ∀ f : Contact A E → Contact A E, (∀ d, (f d).address = d.address) →
        ((m.update table a f).find table a).isSome := by
      intro f hf
      rw [find_update hf, if_pos ⟨rfl, rfl⟩, hfind]
      rfl
    simp only [reduceCtorEq, false_and, if_false, Nat.add_zero]
    split
    · exact ⟨_, rfl, hupdated _ fun _ => rfl, rfl, rfl, fun other => length_update ..⟩
    · exact ⟨_, rfl, hupdated _ fun _ => rfl, rfl, rfl, fun other => length_update ..⟩

theorem get_or_make_unmade (endpoints : List E) :
    n.get_or_make now a observer endpoints false = ((n.misplaced a observer).1, none) := by
  unfold Node.get_or_make
  rfl

/-- There is room for the contact, if it is one of another group. -/
def Roomy (n : Node A E k) (a : A) (observer : Bool) : Prop :=
  observer = true ∨ n.room (n.group_of a) = true

theorem onContactSeen_kept (ha : a ≠ n._self) (hroom : n.Roomy a observer) :
    ∃ table, (n.onContactSeen now a e observer).HeardIn table a e now ∧
      (n.get_or_make now a observer [e] (observer || n.room (n.group_of a))).2 = some table ∧
      (∃ other, table = (n.onContactSeen now a e observer).target other a) ∧
      n.Within (n.onContactSeen now a e observer) := by
  have hmake : (observer || n.room (n.group_of a)) = true := by
    rcases hroom with h | h <;> simp [h]
  obtain ⟨n', heq, hsome, hconfig, hself, hlength⟩ :=
    n.get_or_make_made now a observer [e]
  have hp := n.misplacing a observer
  obtain ⟨hpconfig, hpself, other, hother⟩ := hp.config
  obtain ⟨c, hc⟩ := Option.isSome_iff_exists.mp hsome
  have hseen : n.onContactSeen now a e observer =
      n'.update (n.misplaced a observer).2 a (Contact.stamp now e) := by
    unfold onContactSeen
    rw [if_neg ha, hmake, heq]
    rfl
  rw [hseen, hmake, heq]
  refine ⟨_, ⟨c.stamp now e, ?_, rfl, reached_update⟩, rfl, ⟨other, ?_⟩, ?_⟩
  · have haddress : ∀ d : Contact A E, (d.stamp now e).address = d.address := fun _ => rfl
    rw [find_update haddress, if_pos ⟨rfl, rfl⟩, hc]
    rfl
  · rw [hother]
    change n.target other a = n'.target other a
    unfold target group_of
    rw [hconfig, hpconfig]
  · intro g hg hgrown
    rw [length_update, hlength] at hgrown ⊢
    have hbound := hp.length g
    by_cases hown : observer = false ∧ g = n.group_of a
    · rw [if_pos hown] at hbound
      have hless : (n.contacts (some g)).length < n._config.max_other_contacts := by
        rcases hroom with ho | hroom
        · rw [hown.1] at ho
          cases ho
        · unfold room at hroom
          rw [← hown.2, decide_eq_true_eq] at hroom
          exact hroom.resolve_left hg
      omega
    · rw [if_neg hown] at hbound
      omega

theorem onContactSeen_dropped (h : a = n._self ∨ ¬n.Roomy a observer) :
    ∃ m : Node A E k, (∀ now, n.onContactSeen now a e observer = m) ∧
      ∀ table c, m.find table a = some c → ∃ other, n.find other a = some c := by
  by_cases ha : a = n._self
  · refine ⟨n, fun now => ?_, fun table c hc => ⟨table, hc⟩⟩
    unfold onContactSeen
    rw [if_pos ha]
  · have hroom : (observer || n.room (n.group_of a)) = false := by
      have hno := h.resolve_left ha
      unfold Roomy at hno
      rw [not_or, Bool.not_eq_true, Bool.not_eq_true] at hno
      simp [hno.1, hno.2]
    refine ⟨(n.misplaced a observer).1, fun now => ?_, fun table c hc => ?_⟩
    · unfold onContactSeen
      rw [if_neg ha, hroom, get_or_make_unmade]
    · have hp := n.misplacing a observer
      generalize n.misplaced a observer = p at hp hc
      cases hp with
      | here => exact ⟨_, hc⟩
      | there => exact ⟨_, hc⟩
      | nowhere => exact ⟨_, hc⟩
      | moved d ho h hother =>
        have hda : d.address = a := (find_mem hother).2
        dsimp only at hc
        rw [find_erase] at hc
        split_ifs at hc
        rw [find_add (by rw [hda]; exact h)] at hc
        split_ifs at hc
        · exact ⟨_, Option.some.inj hc ▸ hother⟩
        · exact ⟨_, hc⟩

theorem onContactSeen_unknown (hc : ¬n.Contacted a) (h : a = n._self ∨ ¬n.Roomy a observer) :
    n.onContactSeen now a e observer = n := by
  unfold onContactSeen
  split_ifs with ha
  · rfl
  · have hno := h.resolve_left ha
    unfold Roomy at hno
    rw [not_or, Bool.not_eq_true, Bool.not_eq_true] at hno
    have hroom : (observer || n.room (n.group_of a)) = false := by simp [hno.1, hno.2]
    rw [hroom, get_or_make_unmade]
    have hp := n.misplacing a observer
    generalize n.misplaced a observer = p at hp
    cases hp with
    | here => rfl
    | there => rfl
    | nowhere => rfl
    | moved d ho h hother => exact absurd ⟨!observer, by rw [hother]; rfl⟩ hc

end Node

namespace Pinged

variable {s : Pinged A E k} {a : A} {e : E} {now : Time} {observer : Bool}

variable [DecidableEq E]

/-- The contact was heard from at this endpoint and time, and its pings have no timeout. -/
def Heard (s : Pinged A E k) (a : A) (e : E) (now : Time) : Prop :=
  ∃ observer, s.node.HeardIn (s.node.target observer a) a e now ∧
    s.ping_timeouts (s.node.target observer a) a = 0

theorem onContactSeen_heard (ha : a ≠ s.node._self) (hroom : s.node.Roomy a observer) :
    (s.onContactSeen now a e observer).Heard a e now := by
  obtain ⟨table, hheard, hmade, ⟨other, htable⟩, -⟩ :=
    Node.onContactSeen_kept (e := e) ha hroom
  refine ⟨other, ?_, ?_⟩
  · exact htable ▸ hheard
  · change (s.onContactSeen now a e observer).ping_timeouts
      ((s.node.onContactSeen now a e observer).target other a) a = 0
    unfold onContactSeen
    dsimp only
    rw [← htable, if_neg ha, hmade]
    exact if_pos ⟨rfl, rfl⟩

/-- Hearing from a contact that the node has keeps it alive, and no table of another group grows
above its bound, exactly when such a contact is not the node itself, and is an observer or one
that there is room for. -/
theorem hearing_keeps_alive_iff (s : Pinged A E k) (a : A) (e : E) (observer : Bool) :
    (∀ now, (s.node.Contacted a → (s.onContactSeen now a e observer).Heard a e now) ∧
        s.node.Within (s.onContactSeen now a e observer).node) ↔
      (s.node.Contacted a → a ≠ s.node._self ∧ s.node.Roomy a observer) := by
  constructor
  · intro hall hcontacted
    by_contra hno
    rw [not_and_or, not_not] at hno
    obtain ⟨m, hm, hold⟩ := Node.onContactSeen_dropped (e := e) hno
    have hheard : ∀ now, ∃ table c, s.node.find table a = some c ∧
        c.validated_endpoint = some (e, now) := by
      intro now
      obtain ⟨other, ⟨c, hc, hvalidated, -⟩, -⟩ := (hall now).1 hcontacted
      have hsame : (s.onContactSeen now a e observer).node = m := hm now
      rw [hsame] at hc
      obtain ⟨table, htable⟩ := hold _ c hc
      exact ⟨table, c, htable, hvalidated⟩
    -- one of the tables would have its contact heard from at two times
    choose table c hfind hvalidated using hheard
    obtain ⟨t, t', hne, htable⟩ := Finite.exists_ne_map_eq_of_infinite table
    have hsame : c t = c t' :=
      Option.some.inj ((hfind t).symm.trans ((congrArg (s.node.find · a) htable).trans (hfind t')))
    have htimes := (hvalidated t).symm.trans (hsame ▸ hvalidated t')
    exact hne (Prod.ext_iff.mp (Option.some.inj htimes)).2
  · intro hcond now
    by_cases hgood : a ≠ s.node._self ∧ s.node.Roomy a observer
    · refine ⟨fun _ => onContactSeen_heard hgood.1 hgood.2, ?_⟩
      obtain ⟨-, -, -, -, hwithin⟩ := Node.onContactSeen_kept hgood.1 hgood.2
      exact hwithin
    · have hunknown : ¬s.node.Contacted a := fun hc => hgood (hcond hc)
      refine ⟨fun hc => absurd hc hunknown, ?_⟩
      rw [not_and_or, not_not] at hgood
      have hsame : (s.onContactSeen now a e observer).node = s.node :=
        Node.onContactSeen_unknown hunknown hgood
      rw [hsame]
      exact fun g _ hgrown => absurd hgrown (Nat.lt_irrefl _)

/-- A node 0 of the group 0 that takes one contact of another group. -/
def small : Node (Fin 6) Unit 2 where
  _self := 0
  _config :=
    { group_of := fun a => ⟨if a < 3 then 0 else 1, by split <;> omega⟩, max_other_contacts := 1 }

/-- The contact 3 of the other group was heard from at 5. -/
def full : Pinged (Fin 6) Unit 2 where
  node := small.onContactSeen 5 3 () false
  ping_timeouts := fun _ _ => 4

/-- An observer 4 comes in. -/
def watched : Pinged (Fin 6) Unit 2 := full.onContactSeen 6 4 () true

theorem an_observer_is_kept_alive :
    watched.node.Contacted 4 ∧ (watched.onContactSeen 9 4 () true).Heard 4 () 9 := by
  have hcontacted : watched.node.Contacted 4 := ⟨true, by decide⟩
  have hkept := (hearing_keeps_alive_iff watched 4 () true).mpr
    fun _ => ⟨by decide, .inl rfl⟩
  exact ⟨hcontacted, (hkept 9).1 hcontacted⟩

/-- The contact of the table that is full sends a packet, and an observer that is none any more
is moved to that table. -/
theorem a_contact_of_a_full_table_is_not_heard :
    full.node.Contacted 3 ∧ ¬(full.onContactSeen 9 3 () false).Heard 3 () 9 ∧
      ¬watched.node.Within (watched.onContactSeen 9 4 () false).node := by
  refine ⟨⟨false, by decide⟩, ?_, fun hwithin => ?_⟩
  · have hold : ∀ other, ((full.onContactSeen 9 3 () false).node.find
        ((full.onContactSeen 9 3 () false).node.target other 3) 3).bind
          Contact.validated_endpoint ≠ some ((), 9) := by decide
    rintro ⟨other, ⟨c, hc, hvalidated, -⟩, -⟩
    refine hold other ?_
    rw [hc]
    exact hvalidated
  · exact absurd (hwithin 1 (by decide) (by decide)) (by decide)

end Pinged

end memo.overlay.kelips
