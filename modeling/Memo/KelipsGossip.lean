-- Nodes that gossip about their contacts. The times of the endpoints go from node to node, and
-- none may be later than the last packet that some node received from the endpoint.
import Memo.KelipsSignals

open runs vectors

namespace memo.overlay.kelips

variable {A E I : Type} {k : Nat}

/-! ## Endpoints -/

section Endpoints

variable {now t deadline : Time} {e : E} {te : TimedEndpoint E} {l src : List (TimedEndpoint E)}

variable [DecidableEq E]

theorem mem_endpoints_update (h : te ∈ endpoints_update now e t l) :
    te ∈ l ∨ te = (e, now) ∧ e ∉ l.map (·.1) ∨ ∃ last, (e, last) ∈ l ∧ te = (e, max t last) := by
  induction l with
  | nil => exact Or.inr (Or.inl ⟨List.mem_singleton.mp h, List.not_mem_nil⟩)
  | cons te' l ih =>
    obtain ⟨e', last⟩ := te'
    unfold endpoints_update at h
    split at h
    · rename_i he
      subst he
      rcases List.mem_cons.mp h with h | h
      · exact Or.inr (Or.inr ⟨last, List.mem_cons_self, h⟩)
      · exact Or.inl (List.mem_cons_of_mem _ h)
    · rename_i he
      rcases List.mem_cons.mp h with h | h
      · exact Or.inl (h ▸ List.mem_cons_self)
      · rcases ih h with h | ⟨h, hnew⟩ | ⟨last', h, hmax⟩
        · exact Or.inl (List.mem_cons_of_mem _ h)
        · refine Or.inr (Or.inl ⟨h, fun hin => ?_⟩)
          rcases List.mem_cons.mp hin with hin | hin
          · exact he hin.symm
          · exact hnew hin
        · exact Or.inr (Or.inr ⟨last', List.mem_cons_of_mem _ h, hmax⟩)

theorem endpoints_update_le (now : Time) (e : E) (t : Time) (h : te ∈ l) :
    ∃ last, (te.1, last) ∈ endpoints_update now e t l ∧ te.2 ≤ last := by
  induction l with
  | nil => exact absurd h List.not_mem_nil
  | cons te' l ih =>
    obtain ⟨e', last⟩ := te'
    unfold endpoints_update
    rcases List.mem_cons.mp h with rfl | h
    · split
      · exact ⟨max t last, List.mem_cons_self, Int.le_max_right t last⟩
      · exact ⟨last, List.mem_cons_self, Int.le_refl last⟩
    · split
      · exact ⟨te.2, List.mem_cons_of_mem _ h, Int.le_refl _⟩
      · obtain ⟨last', hin, hle⟩ := ih h
        exact ⟨last', List.mem_cons_of_mem _ hin, hle⟩

theorem endpoints_update_new (h : e ∉ l.map (·.1)) : (e, now) ∈ endpoints_update now e t l := by
  induction l with
  | nil => exact List.mem_cons_self
  | cons te' l ih =>
    obtain ⟨e', last⟩ := te'
    rw [List.map_cons, List.mem_cons, not_or] at h
    unfold endpoints_update
    rw [if_neg (Ne.symm h.1)]
    exact List.mem_cons_of_mem _ (ih h.2)

theorem endpoints_merge_le (h : te ∈ l) :
    ∃ last, (te.1, last) ∈ endpoints_merge now l src ∧ te.2 ≤ last := by
  unfold endpoints_merge
  induction src generalizing l te with
  | nil => exact ⟨te.2, h, Int.le_refl _⟩
  | cons s src ih =>
    obtain ⟨last, hin, hle⟩ := endpoints_update_le now s.1 s.2 h
    obtain ⟨last', hin', hle'⟩ := ih hin
    exact ⟨last', hin', Int.le_trans hle hle'⟩

theorem endpoints_merge_new (hsrc : e ∈ src.map (·.1)) (h : e ∉ l.map (·.1)) :
    ∃ last, (e, last) ∈ endpoints_merge now l src ∧ now ≤ last := by
  induction src generalizing l with
  | nil => exact absurd hsrc List.not_mem_nil
  | cons s src ih =>
    by_cases hs : s.1 = e
    · subst hs
      exact endpoints_merge_le (l := endpoints_update now s.1 s.2 l) (endpoints_update_new h)
    · have hsrc' : e ∈ src.map (·.1) := by
        rw [List.map_cons, List.mem_cons] at hsrc
        exact hsrc.resolve_left (Ne.symm hs)
      refine ih hsrc' fun hin => ?_
      obtain ⟨te, hte, rfl⟩ := List.mem_map.mp hin
      rcases mem_endpoints_update hte with hte | ⟨rfl, -⟩ | ⟨last, -, rfl⟩
      · exact h (List.mem_map_of_mem hte)
      · exact hs rfl
      · exact hs rfl

/-- The endpoint was heard, and not before the time that is recorded for it. -/
def Heard (heard : E → Option Time) (te : TimedEndpoint E) : Prop :=
  ∃ h, heard te.1 = some h ∧ te.2 ≤ h

/-- Endpoints that were heard, and one of them not before the deadline. -/
structure Alive (heard : E → Option Time) (deadline : Time) (l : List (TimedEndpoint E)) :
    Prop where
  heard : ∀ te ∈ l, Heard heard te
  recent : ∃ te ∈ l, deadline ≤ te.2

theorem Alive.endpoints_update {heard : E → Option Time} (h : Alive heard deadline l)
    (ht : Heard heard (e, t)) (hnew : e ∉ l.map (·.1) → heard e = some now) :
    Alive heard deadline (endpoints_update now e t l) := by
  constructor
  · intro te hte
    rcases mem_endpoints_update hte with hte | ⟨rfl, hout⟩ | ⟨last, hin, rfl⟩
    · exact h.heard te hte
    · exact ⟨now, hnew hout, Int.le_refl now⟩
    · obtain ⟨t₁, ht₁, hle₁⟩ := ht
      obtain ⟨t₂, ht₂, hle₂⟩ := h.heard _ hin
      have heq : t₁ = t₂ := Option.some.inj (ht₁.symm.trans ht₂)
      exact ⟨t₁, ht₁, Int.max_le.mpr ⟨hle₁, heq ▸ hle₂⟩⟩
  · obtain ⟨te, hte, hle⟩ := h.recent
    obtain ⟨last, hin, hle'⟩ := endpoints_update_le now e t hte
    exact ⟨_, hin, Int.le_trans hle hle'⟩

theorem Alive.endpoints_merge {heard : E → Option Time} (h : Alive heard deadline l)
    (hsrc : ∀ te ∈ src, Heard heard te)
    (hnew : ∀ e ∈ src.map (·.1), e ∉ l.map (·.1) → heard e = some now) :
    Alive heard deadline (endpoints_merge now l src) := by
  unfold kelips.endpoints_merge
  induction src generalizing l with
  | nil => exact h
  | cons s src ih =>
    rw [List.foldl_cons]
    have hs : s.1 ∉ l.map (·.1) → heard s.1 = some now := hnew s.1 (by simp)
    refine ih (h.endpoints_update (hsrc s List.mem_cons_self) hs)
      (fun te hte => hsrc te (List.mem_cons_of_mem _ hte)) fun e he hout => ?_
    refine hnew e (by rw [List.map_cons]; exact List.mem_cons_of_mem _ he) fun hin => hout ?_
    obtain ⟨te, hte, rfl⟩ := List.mem_map.mp hin
    obtain ⟨last, hin', -⟩ := endpoints_update_le now s.1 s.2 hte
    exact List.mem_map.mpr ⟨_, hin', rfl⟩

theorem Alive.endpoints_seen {heard : E → Option Time} (h : Alive heard deadline l)
    (he : heard e = some now) : Alive heard deadline (endpoints_seen now l [e]) := by
  unfold kelips.endpoints_seen
  refine h.endpoints_merge (fun te hte => ?_) fun e' he' _ => ?_
  · rw [List.mem_singleton.mp hte]
    exact ⟨now, he, Int.le_refl now⟩
  · simp only [List.map_cons, List.map_nil, List.mem_singleton] at he'
    rw [he']
    exact he

omit [DecidableEq E] in
theorem Alive.singleton {heard : E → Option Time} (he : heard e = some now)
    (hdeadline : deadline ≤ now) : Alive heard deadline [(e, now)] := by
  refine ⟨fun te hte => ?_, ⟨_, List.mem_cons_self, hdeadline⟩⟩
  rw [List.mem_singleton.mp hte]
  exact ⟨now, he, Int.le_refl now⟩

omit [DecidableEq E] in
theorem Heard.mono {heard heard' : E → Option Time} (h : Heard heard te)
    (hmono : ∀ e t, heard e = some t → ∃ t', heard' e = some t' ∧ t ≤ t') : Heard heard' te := by
  obtain ⟨t, ht, hle⟩ := h
  obtain ⟨t', ht', hle'⟩ := hmono _ t ht
  exact ⟨t', ht', Int.le_trans hle hle'⟩

omit [DecidableEq E] in
theorem Alive.mono {heard heard' : E → Option Time} (h : Alive heard deadline l)
    (hmono : ∀ e t, heard e = some t → ∃ t', heard' e = some t' ∧ t ≤ t') :
    Alive heard' deadline l := ⟨fun te hte => (h.heard te hte).mono hmono, h.recent⟩

omit [DecidableEq E] in
theorem Alive.last {heard : E → Option Time} (h : Alive heard deadline l) :
    ∃ te ∈ l, ∃ t, heard te.1 = some t ∧ deadline ≤ t := by
  obtain ⟨te, hte, hle⟩ := h.recent
  obtain ⟨t, ht, hle'⟩ := h.heard te hte
  exact ⟨te, hte, t, ht, Int.le_trans hle hle'⟩

end Endpoints

/-! ## The contacts of a node -/

namespace Node

variable {n : Node A E k} {heard : E → Option Time} {now deadline : Time} {e : E} {a : A}
variable {table : Option (Fin k)} {c : Contact A E} {f : Contact A E → Contact A E}

structure ContactAlive (heard : E → Option Time) (deadline : Time) (c : Contact A E) : Prop where
  endpoints : Alive heard deadline c.endpoints
  validated : ∀ te, c.validated_endpoint = some te → Heard heard te

/-- The contacts of the node, and the packets that it sent. -/
structure Faithful (heard : E → Option Time) (deadline : Time) (n : Node A E k) : Prop where
  contacts : ∀ table, ∀ c ∈ n.contacts table, ContactAlive heard deadline c
  sent : ∀ p ∈ n.sent, ∀ contact ∈ p.contacts, Alive heard deadline contact.2

theorem Faithful.set {l : List (Contact A E)} (h : n.Faithful heard deadline)
    (hl : ∀ c ∈ l, ContactAlive heard deadline c) : (n.set table l).Faithful heard deadline := by
  refine ⟨fun other c hc => ?_, h.sent⟩
  by_cases ht : other = table
  · rw [ht, contacts_set_self] at hc
    exact hl c hc
  · rw [contacts_set_ne _ _ ht] at hc
    exact h.contacts other c hc

theorem Faithful.update [DecidableEq A] (h : n.Faithful heard deadline)
    (hf : ∀ c ∈ n.contacts table, c.address = a → ContactAlive heard deadline c →
      ContactAlive heard deadline (f c)) :
    (n.update table a f).Faithful heard deadline := by
  refine h.set fun c hc => ?_
  obtain ⟨d, hd, rfl⟩ := List.mem_map.mp hc
  split
  · rename_i ha
    exact hf d hd ha (h.contacts table d hd)
  · exact h.contacts table d hd

theorem Faithful.add (h : n.Faithful heard deadline) (hc : ContactAlive heard deadline c) :
    (n.add table c).Faithful heard deadline := by
  refine h.set fun d hd => ?_
  rcases List.mem_append.mp hd with hd | hd
  · exact h.contacts table d hd
  · rw [List.mem_singleton.mp hd]
    exact hc

theorem Faithful.erase [DecidableEq A] (h : n.Faithful heard deadline) :
    (n.erase table a).Faithful heard deadline :=
  h.set fun d hd => h.contacts table d (List.mem_filter.mp hd).1

theorem Faithful.notify_observers {l : List (TimedEndpoint E)} (h : n.Faithful heard deadline)
    (hl : Alive heard deadline l) : (n.notify_observers [(a, l)]).Faithful heard deadline := by
  refine ⟨h.contacts, fun p hp contact hcontact => ?_⟩
  rcases List.mem_append.mp hp with hp | hp
  · exact h.sent p hp contact hcontact
  · obtain ⟨d, -, rfl⟩ := List.mem_map.mp hp
    rw [List.mem_singleton.mp hcontact]
    exact hl

variable [DecidableEq A]

theorem Faithful.find (h : n.Faithful heard deadline) (hc : n.find table a = some c) :
    ContactAlive heard deadline c := h.contacts table c (find_mem hc).1

theorem Faithful.misplaced {observer : Bool} (h : n.Faithful heard deadline) :
    (n.misplaced a observer).1.Faithful heard deadline := by
  unfold Node.misplaced
  dsimp only
  split
  · exact h
  · split
    · rename_i c hc
      split
      · exact h
      · exact (h.add (h.find hc)).erase
    · exact h

variable [DecidableEq E]

theorem Faithful.get_or_make {observer make : Bool} (h : n.Faithful heard deadline)
    (he : heard e = some now) (hdeadline : deadline ≤ now) :
    (n.get_or_make now a observer [e] make).1.Faithful heard deadline := by
  have hmisplaced : (n.misplaced a observer).1.Faithful heard deadline := h.misplaced
  unfold Node.get_or_make
  generalize n.misplaced a observer = placed at hmisplaced ⊢
  obtain ⟨m, table⟩ := placed
  dsimp only at hmisplaced ⊢
  split
  · split
    · have hadd : (m.add table
          { endpoints := [(e, now)], address := a, discovered := observer }).Faithful
            heard deadline :=
        hmisplaced.add ⟨Alive.singleton he hdeadline, nofun⟩
      split
      · exact ⟨hadd.contacts, hadd.sent⟩
      · exact hadd
    · rename_i c hc
      have hmerged := (hmisplaced.find hc).endpoints.endpoints_seen he
      split
      · exact (hmisplaced.update fun d _ _ _ => ⟨hmerged, by simp⟩).notify_observers hmerged
      · exact hmisplaced.update fun d _ _ hd => ⟨hmerged, hd.validated⟩
  · exact hmisplaced

theorem Faithful.onContactSeen {observer : Bool} (h : n.Faithful heard deadline)
    (he : heard e = some now) (hdeadline : deadline ≤ now) :
    (n.onContactSeen now a e observer).Faithful heard deadline := by
  have hmade : (n.get_or_make now a observer [e]
      (observer || n.room (n.group_of a))).1.Faithful heard deadline :=
    h.get_or_make he hdeadline
  unfold Node.onContactSeen
  split
  · exact h
  · split
    · rename_i heq
      rw [heq] at hmade
      refine hmade.update fun c _ _ hc => ⟨?_, fun te hte => ?_⟩
      · exact hc.endpoints.endpoints_update ⟨now, he, Int.le_refl now⟩ fun _ => he
      · rw [← Option.some.inj hte]
        exact ⟨now, he, Int.le_refl now⟩
    · rename_i heq
      rw [heq] at hmade
      exact hmade

theorem Faithful.gossip_sender (h : n.Faithful heard deadline) (he : heard e = some now)
    (hdeadline : deadline ≤ now) : (n.gossip_sender now a e).Faithful heard deadline := by
  have hmade : (if (n.find (some (n.group_of a)) a).isSome then n
      else (n.get_or_make now a false [e] true).1).Faithful heard deadline := by
    split
    · exact h
    · exact h.get_or_make he hdeadline
  unfold Node.gossip_sender
  dsimp only
  split
  · split
    · exact hmade
    · generalize (if (n.find (some (n.group_of a)) a).isSome then n
        else (n.get_or_make now a false [e] true).1) = m at hmade ⊢
      have hflag : (m.update (some (n.group_of a)) a
          fun c => { c with discovered := true }).Faithful heard deadline :=
        hmade.update fun c _ _ hc => ⟨hc.endpoints, hc.validated⟩
      exact ⟨hflag.contacts, hflag.sent⟩
  · exact hmade

/-! ## The contacts of a gossip -/

/-- The endpoints of a known contact that it was not known to have. They are stamped with the
time of the call, and not with that of the gossip. -/
def stamped (now : Time) (n : Node A E k) (contact : A × List (TimedEndpoint E)) : List E :=
  if contact.1 = n._self then
    []
  else
    ((n.contacts (some (n.group_of contact.1))).filter fun c => c.address = contact.1).flatMap
      fun c =>
        ((endpoints_cleanup contact.2 (now - n._config.contact_timeout)).map (·.1)).filter
          fun e => e ∉ c.endpoints.map (·.1)

theorem mem_stamped {contact : A × List (TimedEndpoint E)} :
    e ∈ n.stamped now contact ↔ contact.1 ≠ n._self ∧
      ∃ c ∈ n.contacts (some (n.group_of contact.1)), c.address = contact.1 ∧
        e ∈ (endpoints_cleanup contact.2 (now - n._config.contact_timeout)).map (·.1) ∧
          e ∉ c.endpoints.map (·.1) := by
  unfold stamped
  split
  · rename_i hself
    exact ⟨fun h => absurd h List.not_mem_nil, fun h => absurd hself h.1⟩
  · rename_i hself
    simp only [List.mem_flatMap, List.mem_filter, decide_eq_true_eq, and_assoc, ne_eq, hself,
      not_false_eq_true, true_and]

/-- The endpoint is recorded in a table, as of the time or later. -/
def Records (e : E) (t : Time) (n : Node A E k) : Prop :=
  ∃ table, ∃ c ∈ n.contacts table, ∃ last, (e, last) ∈ c.endpoints ∧ t ≤ last

omit [DecidableEq E] in
theorem mem_endpoints_cleanup {te : TimedEndpoint E} {l : List (TimedEndpoint E)} :
    te ∈ endpoints_cleanup l deadline ↔ te ∈ l ∧ deadline ≤ te.2 := by
  unfold endpoints_cleanup
  rw [mem_remove_if, decide_eq_false_iff_not, Int.not_lt]

theorem Faithful.gossip_contact {contact : A × List (TimedEndpoint E)}
    (h : n.Faithful heard deadline) (hsrc : ∀ te ∈ contact.2, Heard heard te)
    (hdeadline : deadline ≤ now - n._config.contact_timeout)
    (hstamped : ∀ e ∈ n.stamped now contact, heard e = some now) :
    (n.gossip_contact now contact).Faithful heard deadline := by
  obtain ⟨a, endpoints⟩ := contact
  have hcleaned : ∀ te ∈ endpoints_cleanup endpoints (now - n._config.contact_timeout),
      Heard heard te := fun te hte => hsrc te (mem_endpoints_cleanup.mp hte).1
  unfold Node.gossip_contact
  dsimp only
  split_ifs with hself hempty hknown hroom
  · exact h
  · exact h
  · refine h.update fun c hc ha halive => ⟨?_, halive.validated⟩
    refine halive.endpoints.endpoints_merge hcleaned fun e he hout => ?_
    exact hstamped e (mem_stamped.mpr ⟨hself, c, hc, ha, he, hout⟩)
  · have hnew : Alive heard deadline
        (endpoints_cleanup endpoints (now - n._config.contact_timeout)) := by
      obtain ⟨te, hte⟩ := List.exists_mem_of_ne_nil _ hempty
      exact ⟨hcleaned, te, hte, Int.le_trans hdeadline (mem_endpoints_cleanup.mp hte).2⟩
    have hadd : (n.add (some (n.group_of a))
        { endpoints := _, address := a, discovered := true }).Faithful heard deadline :=
      h.add ⟨hnew, nofun⟩
    exact ⟨hadd.contacts, hadd.sent⟩
  · exact h

theorem Records.gossip_contact {t : Time} {contact : A × List (TimedEndpoint E)}
    (h : n.Records e t) : (n.gossip_contact now contact).Records e t := by
  obtain ⟨table, c, hc, last, hin, hle⟩ := h
  obtain ⟨a, endpoints⟩ := contact
  unfold Node.gossip_contact
  dsimp only
  split_ifs with hself hempty hknown hroom
  · exact ⟨table, c, hc, last, hin, hle⟩
  · exact ⟨table, c, hc, last, hin, hle⟩
  · refine ⟨table, ?_⟩
    by_cases ht : table = some (n.group_of a)
    · subst ht
      unfold update
      rw [contacts_set_self]
      refine ⟨_, List.mem_map_of_mem hc, ?_⟩
      split
      · obtain ⟨last', hin', hle'⟩ := endpoints_merge_le hin
        exact ⟨last', hin', Int.le_trans hle hle'⟩
      · exact ⟨last, hin, hle⟩
    · unfold update
      rw [contacts_set_ne _ _ ht]
      exact ⟨c, hc, last, hin, hle⟩
  · refine ⟨table, c, ?_, last, hin, hle⟩
    unfold add emit
    by_cases ht : table = some (n.group_of a)
    · subst ht
      dsimp only
      rw [contacts_set_self]
      exact List.mem_append_left _ hc
    · dsimp only
      rw [contacts_set_ne _ _ ht]
      exact hc
  · exact ⟨table, c, hc, last, hin, hle⟩

theorem stamped_records {contact : A × List (TimedEndpoint E)} (h : e ∈ n.stamped now contact) :
    (n.gossip_contact now contact).Records e now := by
  obtain ⟨hself, c, hc, ha, hin, hout⟩ := mem_stamped.mp h
  obtain ⟨a, endpoints⟩ := contact
  dsimp only at hself hc ha hin
  have hempty : endpoints_cleanup endpoints (now - n._config.contact_timeout) ≠ [] := by
    intro heq
    rw [heq] at hin
    exact List.not_mem_nil hin
  have hknown : (n.find (some (n.group_of a)) a).isSome := by
    rw [Option.isSome_iff_ne_none, ne_eq, find_none_iff]
    exact fun hall => hall c hc ha
  unfold Node.gossip_contact
  dsimp only
  rw [if_neg hself, if_neg hempty, if_pos hknown]
  refine ⟨some (n.group_of a), ?_⟩
  unfold update
  rw [contacts_set_self]
  refine ⟨_, List.mem_map_of_mem hc, ?_⟩
  rw [if_pos ha]
  exact endpoints_merge_new hin hout

/-- What the loop over the contacts of a gossip stamps. -/
def stampedAll (now : Time) : Node A E k → List (A × List (TimedEndpoint E)) → List E
  | _, [] => []
  | n, contact :: contacts =>
    n.stamped now contact ++ stampedAll now (n.gossip_contact now contact) contacts

theorem Faithful.gossip_contacts {contacts : List (A × List (TimedEndpoint E))}
    (h : n.Faithful heard deadline) (hsrc : ∀ contact ∈ contacts, ∀ te ∈ contact.2, Heard heard te)
    (hdeadline : deadline ≤ now - n._config.contact_timeout)
    (hstamped : ∀ e ∈ stampedAll now n contacts, heard e = some now) :
    (contacts.foldl (Node.gossip_contact now) n).Faithful heard deadline := by
  induction contacts generalizing n with
  | nil => exact h
  | cons contact contacts ih =>
    unfold stampedAll at hstamped
    have hone := h.gossip_contact (hsrc contact List.mem_cons_self) hdeadline
      fun e he => hstamped e (List.mem_append_left _ he)
    refine ih hone (fun c hc => hsrc c (List.mem_cons_of_mem _ hc)) ?_
      fun e he => hstamped e (List.mem_append_right _ he)
    rw [(SameFiles.gossip_contact now n contact).config]
    exact hdeadline

theorem Records.gossip_contacts {t : Time} (contacts : List (A × List (TimedEndpoint E)))
    (h : n.Records e t) : (contacts.foldl (Node.gossip_contact now) n).Records e t :=
  List.foldlRecOn (motive := Records e t) contacts _ h fun _ hm _ _ => hm.gossip_contact

theorem stampedAll_records {contacts : List (A × List (TimedEndpoint E))}
    (h : e ∈ stampedAll now n contacts) :
    (contacts.foldl (gossip_contact now) n).Records e now := by
  induction contacts generalizing n with
  | nil => exact absurd h List.not_mem_nil
  | cons contact contacts ih =>
    rcases List.mem_append.mp h with h | h
    · exact Records.gossip_contacts contacts (stamped_records h)
    · exact ih h

/-- The node when it turns to the contacts of a gossip. -/
def greeted (now : Time) (endpoint : E) (p : Gossip A E) (n : Node A E k) : Node A E k :=
  let n := n.onContactSeen now p.sender endpoint p.observer
  if n._observer then n.gossip_sender now p.sender endpoint else n

/-- All but the files. -/
structure SameContacts (n n' : Node A E k) : Prop where
  contacts : n'.contacts = n.contacts
  sent : n'.sent = n.sent
  config : n'._config = n._config

theorem process_eq (now : Time) (endpoint : E) (p : Gossip A E) (n : Node A E k) :
    SameContacts (p.contacts.foldl (gossip_contact now) (n.greeted now endpoint p))
      (n.process now endpoint p) := by
  have hfile : ∀ (m : Node A E k) f, SameContacts m (m.gossip_file f) := by
    intro m f
    unfold gossip_file
    dsimp only
    split <;> exact ⟨rfl, rfl, rfl⟩
  unfold process onGossip greeted
  dsimp only
  generalize p.contacts.foldl _ _ = m
  split
  · refine List.foldlRecOn (motive := SameContacts m) _ _ ⟨rfl, rfl, rfl⟩ fun m' h f _ => ?_
    exact ⟨(hfile m' f).contacts.trans h.contacts, (hfile m' f).sent.trans h.sent,
      (hfile m' f).config.trans h.config⟩
  · exact ⟨rfl, rfl, rfl⟩

theorem SameFiles.greeted (now : Time) (endpoint : E) (p : Gossip A E) (n : Node A E k) :
    SameFiles n (n.greeted now endpoint p) := by
  have hseen := SameFiles.onContactSeen now p.sender endpoint p.observer n
  unfold Node.greeted
  dsimp only
  split
  · exact hseen.trans (SameFiles.gossip_sender now p.sender endpoint _)
  · exact hseen

theorem process_config (now : Time) (endpoint : E) (p : Gossip A E) (n : Node A E k) :
    (n.process now endpoint p)._config = n._config := by
  have hcontacts := (SameFiles.greeted now endpoint p n).trans
    (SameFiles.foldl (SameFiles.gossip_contact now) p.contacts _)
  exact (process_eq now endpoint p n).config.trans hcontacts.config

theorem Faithful.greeted {p : Gossip A E} (h : n.Faithful heard deadline)
    (he : heard e = some now) (hdeadline : deadline ≤ now) :
    (n.greeted now e p).Faithful heard deadline := by
  have hseen : (n.onContactSeen now p.sender e p.observer).Faithful heard deadline :=
    h.onContactSeen he hdeadline
  unfold Node.greeted
  dsimp only
  split
  · exact hseen.gossip_sender he hdeadline
  · exact hseen

theorem Faithful.process {p : Gossip A E} (h : n.Faithful heard deadline)
    (he : heard e = some now) (hsrc : ∀ contact ∈ p.contacts, ∀ te ∈ contact.2, Heard heard te)
    (htimeout : 0 ≤ n._config.contact_timeout)
    (hdeadline : deadline ≤ now - n._config.contact_timeout)
    (hstamped : ∀ e' ∈ stampedAll now (n.greeted now e p) p.contacts, heard e' = some now) :
    (n.process now e p).Faithful heard deadline := by
  have hgreeted : (n.greeted now e p).Faithful heard deadline :=
    h.greeted he (Int.le_trans hdeadline (Int.sub_le_self now htimeout))
  have hcontacts := hgreeted.gossip_contacts hsrc
    (by rw [(SameFiles.greeted now e p n).config]; exact hdeadline) hstamped
  have hsame := process_eq now e p n
  exact ⟨hsame.contacts ▸ hcontacts.contacts, hsame.sent ▸ hcontacts.sent⟩

/-! ## Cleanup and emission -/

omit [DecidableEq A] [DecidableEq E] in
theorem cleanup_table_contacts {other : Option (Fin k)}
    (hc : c ∈ (n.cleanup_table deadline table).contacts other) :
    other ≠ table ∧ c ∈ n.contacts other ∨
      other = table ∧ c.endpoints ≠ [] ∧ ∃ d ∈ n.contacts table, c = cleaned deadline d := by
  have hcontacts : (n.cleanup_table deadline table).contacts =
      (n.set table (((n.contacts table).map (cleaned deadline)).filter
        fun c => c.endpoints ≠ [])).contacts := by
    cases table with
    | none =>
      unfold cleanup_table cleanup_contacts
      rw [List.partition_eq_filter_filter]
      rfl
    | some g => rw [cleanup_group_eq]
  rw [hcontacts] at hc
  by_cases ht : other = table
  · rw [ht, contacts_set_self, List.mem_filter, decide_eq_true_eq] at hc
    obtain ⟨d, hd, rfl⟩ := List.mem_map.mp hc.1
    exact Or.inr ⟨ht, hc.2, d, hd, rfl⟩
  · rw [contacts_set_ne _ _ ht] at hc
    exact Or.inl ⟨ht, hc⟩

omit [DecidableEq A] [DecidableEq E] in
theorem ContactAlive.cleaned {before : Time} (h : ContactAlive heard before c)
    (hne : (cleaned deadline c).endpoints ≠ []) :
    ContactAlive heard deadline (cleaned deadline c) := by
  obtain ⟨te, hte⟩ := List.exists_mem_of_ne_nil _ hne
  refine ⟨⟨fun te' hte' => ?_, te, hte, (mem_endpoints_cleanup.mp hte).2⟩, h.validated⟩
  exact h.endpoints.heard te' (mem_endpoints_cleanup.mp hte').1

omit [DecidableEq A] [DecidableEq E] in
theorem cleanup_tables_alive {before : Time} (tables : List (Option (Fin k)))
    (h : ∀ table, ∀ c ∈ n.contacts table,
      ContactAlive heard deadline c ∨ table ∈ tables ∧ ContactAlive heard before c) :
    ∀ table, ∀ c ∈ (tables.foldl (cleanup_table deadline) n).contacts table,
      ContactAlive heard deadline c := by
  induction tables generalizing n with
  | nil =>
    intro table c hc
    exact (h table c hc).resolve_right fun hin => List.not_mem_nil hin.1
  | cons t tables ih =>
    apply ih
    intro table c hc
    rcases cleanup_table_contacts hc with ⟨hne, hc⟩ | ⟨rfl, hempty, d, hd, rfl⟩
    · rcases h table c hc with halive | ⟨hin, halive⟩
      · exact Or.inl halive
      · exact Or.inr ⟨(List.mem_cons.mp hin).resolve_left hne, halive⟩
    · rcases h table d hd with halive | ⟨-, halive⟩
      · exact Or.inl (halive.cleaned hempty)
      · exact Or.inl (halive.cleaned hempty)

omit [DecidableEq E] in
theorem cleanup_sent (now : Time) (n : Node A E k) : (n.cleanup now).sent = n.sent := by
  have htable : ∀ (m : Node A E k) table,
      (m.cleanup_table (now - n._config.contact_timeout) table).sent = m.sent := by
    intro m table
    cases table with
    | none => rfl
    | some g => rw [cleanup_group_eq]; rfl
  unfold Node.cleanup
  exact List.foldlRecOn (motive := fun m : Node A E k => m.sent = n.sent) _ _ rfl
    fun m hm table _ => (htable m table).trans hm

omit [DecidableEq E] in
theorem Faithful.cleanup (h : n.Faithful heard deadline) (hsent : n.sent = []) :
    (n.cleanup now).Faithful heard (now - n._config.contact_timeout) := by
  refine ⟨?_, fun p hp => ?_⟩
  · unfold Node.cleanup
    apply cleanup_tables_alive
    intro table c hc
    refine Or.inr ⟨?_, h.contacts table c hc⟩
    cases table with
    | none => exact List.mem_append_right _ List.mem_cons_self
    | some g => exact List.mem_append_left _ (List.mem_map_of_mem (List.mem_finRange g))
  · rw [cleanup_sent, hsent] at hp
    exact absurd hp List.not_mem_nil

omit [DecidableEq E] in
theorem Faithful.gossipEmitter {pick : Nat → List A → List A} {picked : List (A × A)}
    (h : n.Faithful heard deadline) :
    (n.gossipEmitter pick picked now).Faithful heard deadline := by
  have hpicked : (n.pickContacts pick now).2.Faithful heard deadline ∧
      ∀ contact ∈ (n.pickContacts pick now).1, Alive heard deadline contact.2 := by
    apply pickContacts_induction (I := fun s => s.2.Faithful heard deadline ∧
      ∀ contact ∈ s.1, Alive heard deadline contact.2) pick now n ⟨h, by simp⟩
    intro s a hs
    unfold insertContact
    dsimp only
    split
    · rename_i c hc
      refine ⟨hs.1.update fun d _ _ hd => ⟨hd.endpoints, hd.validated⟩, fun contact hcontact => ?_⟩
      dsimp only at hcontact
      split at hcontact
      · exact hs.2 contact hcontact
      · rcases List.mem_append.mp hcontact with hin | hin
        · exact hs.2 contact hin
        · rw [List.mem_singleton.mp hin]
          exact (hs.1.find hc).endpoints
    · exact hs
  unfold Node.gossipEmitter
  generalize n.pickContacts pick now = s at hpicked ⊢
  refine ⟨hpicked.1.contacts, fun p hp => ?_⟩
  rcases List.mem_append.mp hp with hp | hp
  · exact hpicked.1.sent p hp
  · simp only [List.mem_cons, List.not_mem_nil, or_false] at hp
    rcases hp with rfl | rfl
    · exact hpicked.2
    · exact hpicked.2

/-- `Node::onBootstrapRequest`: the gossip that it answers with, whichever contacts are picked. The
sender's state is not fetched. -/
def onBootstrapRequest (picked : List A) (n : Node A E k) : Node A E k :=
  { n with sent := n.sent ++ [⟨n._self, n._observer, picked.filterMap fun a =>
      (n.find (some (n.group_of a)) a).map fun c => (a, c.endpoints), []⟩] }

omit [DecidableEq E] in
theorem Faithful.onBootstrapRequest {picked : List A} (h : n.Faithful heard deadline) :
    (n.onBootstrapRequest picked).Faithful heard deadline := by
  refine ⟨h.contacts, fun p hp contact hcontact => ?_⟩
  rcases List.mem_append.mp hp with hp | hp
  · exact h.sent p hp contact hcontact
  · rw [List.mem_singleton.mp hp] at hcontact
    obtain ⟨a, -, hcontact⟩ := List.mem_filterMap.mp hcontact
    obtain ⟨c, hc, rfl⟩ := Option.map_eq_some_iff.mp hcontact
    exact (h.find hc).endpoints

omit [DecidableEq A] [DecidableEq E] in
theorem Faithful.before {before : Time} (h : n.Faithful heard deadline)
    (hle : before ≤ deadline) : n.Faithful heard before := by
  have halive : ∀ {l}, Alive heard deadline l → Alive heard before l := fun hl =>
    ⟨hl.heard, hl.recent.imp fun te hte => ⟨hte.1, Int.le_trans hle hte.2⟩⟩
  exact ⟨fun table c hc => ⟨halive (h.contacts table c hc).endpoints,
      (h.contacts table c hc).validated⟩,
    fun p hp contact hcontact => halive (h.sent p hp contact hcontact)⟩

omit [DecidableEq A] [DecidableEq E] in
theorem Faithful.mono {heard' : E → Option Time} (h : n.Faithful heard deadline)
    (hmono : ∀ e t, heard e = some t → ∃ t', heard' e = some t' ∧ t ≤ t') :
    n.Faithful heard' deadline :=
  ⟨fun table c hc => ⟨(h.contacts table c hc).endpoints.mono hmono,
      fun te hte => ((h.contacts table c hc).validated te hte).mono hmono⟩,
    fun p hp contact hcontact => (h.sent p hp contact hcontact).mono hmono⟩

end Node

/-! ## Nodes with a common clock -/

variable [DecidableEq E]

/-- The packets that were ever sent, each with the deadline of its sender's last cleanup, may be
lost, come late or come again. `cleaned` has the time of the last cleanup of each node, and `heard`
that of the last packet that some node received from each endpoint. -/
structure World (I A E : Type) (k : Nat) where
  now : Time
  nodes : I → Node A E k
  packets : List (Time × Gossip A E) := []
  cleaned : I → Time
  heard : E → Option Time := fun _ => none

namespace World

inductive Act (I A E : Type) where
  | tick (d : Nat)
  | gossip (i : I) (endpoint : E) (p : Gossip A E)
  /-- Any other packet. -/
  | seen (i : I) (a : A) (endpoint : E) (observer : Bool)
  | gossipEmitter (i : I) (pick : Nat → List A → List A) (picked : List (A × A))
  | onBootstrapRequest (i : I) (picked : List A)
  | cleanup (i : I)

variable {w w' : World I A E k} {i : I}

/-- The oldest endpoint that the last cleanup of the node kept. -/
def deadline (w : World I A E k) (i : I) : Time :=
  w.cleaned i - (w.nodes i)._config.contact_timeout

def hear (endpoint : E) (w : World I A E k) : World I A E k :=
  { w with heard := Function.update w.heard endpoint (some w.now) }

/-- The node has changed, and what it sent is on its way. -/
def become [DecidableEq I] (i : I) (n : Node A E k) (w : World I A E k) : World I A E k :=
  { w with
    nodes := Function.update w.nodes i { n with sent := [] }
    packets := w.packets ++ n.sent.map fun p => (w.deadline i, p) }

def step [DecidableEq A] [DecidableEq I] (w : World I A E k) : Act I A E → Option (World I A E k)
  | .tick d => some { w with now := w.now + d }
  | .gossip i endpoint p =>
    if w.packets.any fun sent => sent.2 = p then
      some ((w.hear endpoint).become i ((w.nodes i).process w.now endpoint p))
    else
      none
  | .seen i a endpoint observer =>
    some ((w.hear endpoint).become i ((w.nodes i).onContactSeen w.now a endpoint observer))
  | .gossipEmitter i pick picked =>
    some (w.become i ((w.nodes i).gossipEmitter pick picked w.now))
  | .onBootstrapRequest i picked => some (w.become i ((w.nodes i).onBootstrapRequest picked))
  | .cleanup i =>
    some { w.become i ((w.nodes i).cleanup w.now) with
      cleaned := Function.update w.cleaned i w.now }

def started [DecidableEq A] (now : Time) (self : I → A) (observer : I → Bool)
    (config : I → Configuration A k) (keys : I → List A) : World I A E k where
  now
  nodes i := Node.started (self i) (observer i) (config i) now (keys i)
  cleaned _ := now

/-- No time that is recorded for an endpoint is later than the last packet from it. What has a
contact in a table, or in a packet, was heard since the deadline of the node, or of the sender. -/
structure Ages (w : World I A E k) : Prop where
  recorded : ∀ i table, ∀ c ∈ (w.nodes i).contacts table,
    ∀ te ∈ c.endpoints ++ c.validated_endpoint.toList, Heard w.heard te
  gossiped : ∀ p ∈ w.packets, ∀ contact ∈ p.2.contacts, ∀ te ∈ contact.2, Heard w.heard te
  alive : ∀ i table, ∀ c ∈ (w.nodes i).contacts table,
    ∃ te ∈ c.endpoints, ∃ h, w.heard te.1 = some h ∧ w.deadline i ≤ h
  alive_gossiped : ∀ p ∈ w.packets, ∀ contact ∈ p.2.contacts,
    ∃ te ∈ contact.2, ∃ h, w.heard te.1 = some h ∧ p.1 ≤ h

structure Sound (w : World I A E k) : Prop where
  nodes : ∀ i, (w.nodes i).Faithful w.heard (w.deadline i)
  unsent : ∀ i, (w.nodes i).sent = []
  packets : ∀ p ∈ w.packets, ∀ contact ∈ p.2.contacts, Alive w.heard p.1 contact.2
  past : ∀ e t, w.heard e = some t → t ≤ w.now
  cleaned : ∀ i, w.cleaned i ≤ w.now
  timeout : ∀ i, 0 ≤ (w.nodes i)._config.contact_timeout

omit [DecidableEq E] in
theorem Sound.ages (h : w.Sound) : w.Ages := by
  refine ⟨fun i table c hc te hte => ?_, fun p hp contact hcontact => ?_, fun i table c hc => ?_,
    fun p hp contact hcontact => ?_⟩
  · have halive := (h.nodes i).contacts table c hc
    rcases List.mem_append.mp hte with hte | hte
    · exact halive.endpoints.heard te hte
    · exact halive.validated te (by simpa using hte)
  · exact (h.packets p hp contact hcontact).heard
  · exact ((h.nodes i).contacts table c hc).endpoints.last
  · exact (h.packets p hp contact hcontact).last

theorem Sound.hear (h : w.Sound) (endpoint : E) : (w.hear endpoint).Sound := by
  have hmono : ∀ e t, w.heard e = some t → ∃ t', (w.hear endpoint).heard e = some t' ∧ t ≤ t' := by
    intro e t ht
    unfold World.hear
    dsimp only
    by_cases he : e = endpoint
    · rw [he, Function.update_self]
      exact ⟨w.now, rfl, h.past e t ht⟩
    · rw [Function.update_of_ne he]
      exact ⟨t, ht, Int.le_refl t⟩
  refine ⟨fun i => (h.nodes i).mono hmono, h.unsent,
    fun p hp contact hcontact => (h.packets p hp contact hcontact).mono hmono, fun e t ht => ?_,
    h.cleaned, h.timeout⟩
  unfold World.hear at ht ⊢
  dsimp only at ht ⊢
  by_cases he : e = endpoint
  · rw [he, Function.update_self] at ht
    exact Int.le_of_eq (Option.some.inj ht).symm
  · rw [Function.update_of_ne he] at ht
    exact h.past e t ht

omit [DecidableEq E] in
theorem Sound.become [DecidableEq I] {n : Node A E k} (h : w.Sound)
    (hn : n.Faithful w.heard (w.deadline i)) (hconfig : n._config = (w.nodes i)._config) :
    (w.become i n).Sound := by
  have hdeadline : ∀ j, (w.become i n).deadline j = w.deadline j := by
    intro j
    unfold World.deadline World.become
    dsimp only
    by_cases hj : j = i
    · rw [hj, Function.update_self, hconfig]
    · rw [Function.update_of_ne hj]
  refine ⟨fun j => ?_, fun j => ?_, fun p hp contact hcontact => ?_, h.past, h.cleaned, fun j => ?_⟩
  · rw [hdeadline]
    unfold World.become
    dsimp only
    by_cases hj : j = i
    · rw [hj, Function.update_self]
      exact ⟨hn.contacts, by simp⟩
    · rw [Function.update_of_ne hj]
      exact h.nodes j
  · unfold World.become
    dsimp only
    by_cases hj : j = i
    · rw [hj, Function.update_self]
    · rw [Function.update_of_ne hj]
      exact h.unsent j
  · rcases List.mem_append.mp hp with hp | hp
    · exact h.packets p hp contact hcontact
    · obtain ⟨q, hq, rfl⟩ := List.mem_map.mp hp
      exact hn.sent q hq contact hcontact
  · unfold World.become
    dsimp only
    by_cases hj : j = i
    · rw [hj, Function.update_self]
      exact hconfig ▸ h.timeout i
    · rw [Function.update_of_ne hj]
      exact h.timeout j

/-- What a gossip stamps, was heard at that instant. -/
def Relays [DecidableEq A] (w : World I A E k) : Act I A E → Prop
  | .gossip i endpoint p =>
    ∀ e ∈ Node.stampedAll w.now ((w.nodes i).greeted w.now endpoint p) p.contacts,
      (w.hear endpoint).heard e = some w.now
  | _ => True

theorem hear_now (endpoint : E) (w : World I A E k) :
    (w.hear endpoint).heard endpoint = some w.now := Function.update_self ..

omit [DecidableEq E] in
theorem Sound.recent (h : w.Sound) (i : I) : w.deadline i ≤ w.now :=
  Int.le_trans (Int.sub_le_self _ (h.timeout i)) (h.cleaned i)

variable [DecidableEq A] [DecidableEq I]

theorem gossip_sent {endpoint : E} {p : Gossip A E}
    (hs : w.step (.gossip i endpoint p) = some w') :
    (∃ t, (t, p) ∈ w.packets) ∧
      w' = (w.hear endpoint).become i ((w.nodes i).process w.now endpoint p) := by
  dsimp only [World.step] at hs
  split at hs
  · rename_i hsent
    simp only [List.any_eq_true, decide_eq_true_eq] at hsent
    obtain ⟨⟨t, q⟩, hq, rfl⟩ := hsent
    exact ⟨⟨t, hq⟩, (Option.some.inj hs).symm⟩
  · exact absurd hs.symm (Option.some_ne_none w')

omit [DecidableEq E] in
theorem Sound.cleanup (h : w.Sound) (i : I) :
    Sound { w.become i ((w.nodes i).cleanup w.now) with
      cleaned := Function.update w.cleaned i w.now } := by
  have hconfig : ((w.nodes i).cleanup w.now)._config = (w.nodes i)._config :=
    (Node.SameFiles.foldl (Node.SameFiles.cleanup_table _) _ _).config
  have hkept : ((w.nodes i).cleanup w.now).Faithful w.heard
      (w.now - (w.nodes i)._config.contact_timeout) := (h.nodes i).cleanup (h.unsent i)
  have hle : w.deadline i ≤ w.now - (w.nodes i)._config.contact_timeout :=
    Int.sub_le_sub_right (h.cleaned i) _
  have hold := h.become (hkept.before hle) hconfig
  refine { hold with nodes := fun j => ?_, cleaned := fun j => ?_ }
  · by_cases hj : j = i
    · subst hj
      unfold World.deadline World.become
      dsimp only
      rw [Function.update_self, Function.update_self, hconfig]
      exact ⟨hkept.contacts, by simp⟩
    · have hother := hold.nodes j
      unfold World.deadline World.become at hother ⊢
      dsimp only at hother ⊢
      rw [Function.update_of_ne hj] at hother ⊢
      rw [Function.update_of_ne hj]
      exact hother
  · dsimp only
    by_cases hj : j = i
    · rw [hj, Function.update_self]
      exact Int.le_refl _
    · rw [Function.update_of_ne hj]
      exact h.cleaned j

theorem Sound.step (h : w.Sound) {act : Act I A E} (hrelays : w.Relays act)
    (hs : w.step act = some w') : w'.Sound := by
  cases act with
  | tick d =>
    cases hs
    have hle : w.now ≤ w.now + d := Int.le_add_of_nonneg_right (Int.natCast_nonneg d)
    exact ⟨h.nodes, h.unsent, h.packets, fun e t ht => Int.le_trans (h.past e t ht) hle,
      fun i => Int.le_trans (h.cleaned i) hle, h.timeout⟩
  | gossip i endpoint p =>
    obtain ⟨⟨t, hsent⟩, rfl⟩ := gossip_sent hs
    have hheard := h.hear endpoint
    refine hheard.become (Node.Faithful.process (hheard.nodes i) (hear_now endpoint w) ?_
      (h.timeout i) ?_ hrelays) (Node.process_config _ _ _ _)
    · exact fun contact hcontact => (hheard.packets _ hsent contact hcontact).heard
    · exact Int.sub_le_sub_right (h.cleaned i) _
  | seen i a endpoint observer =>
    cases hs
    have hheard := h.hear endpoint
    exact hheard.become ((hheard.nodes i).onContactSeen (hear_now endpoint w) (hheard.recent i))
      (Node.SameFiles.onContactSeen w.now a endpoint observer (w.nodes i)).config
  | gossipEmitter i pick picked =>
    cases hs
    refine h.become (h.nodes i).gossipEmitter ?_
    exact (Node.SameFiles.pickContacts pick w.now (w.nodes i)).config
  | onBootstrapRequest i picked =>
    cases hs
    exact h.become (h.nodes i).onBootstrapRequest rfl
  | cleanup i =>
    cases hs
    exact h.cleanup i

theorem Sound.lost (h : w.Sound) {act : Act I A E} (hlose : ¬w.Relays act)
    (hs : w.step act = some w') : ¬w'.Ages := by
  intro hages
  cases act with
  | gossip i endpoint p =>
    obtain ⟨-, rfl⟩ := gossip_sent hs
    unfold Relays at hlose
    rw [Classical.not_forall] at hlose
    obtain ⟨e, hlose⟩ := hlose
    rw [Classical.not_imp] at hlose
    obtain ⟨he, hnever⟩ := hlose
    obtain ⟨table, c, hc, last, hin, hle⟩ := Node.stampedAll_records he
    rw [← (Node.process_eq w.now endpoint p (w.nodes i)).contacts] at hc
    have hc' : c ∈ (((w.hear endpoint).become i
        ((w.nodes i).process w.now endpoint p)).nodes i).contacts table := by
      unfold World.become
      dsimp only
      rw [Function.update_self]
      exact hc
    obtain ⟨t, ht, hle'⟩ := hages.recorded i table c hc' _ (List.mem_append_left _ hin)
    have hpast : t ≤ w.now := (h.hear endpoint).past e t ht
    apply hnever
    rw [← Int.le_antisymm hpast (Int.le_trans hle hle')]
    exact ht
  | _ => exact hlose trivial

/-- No time of an endpoint is later than the last packet from it, all along a run, if and only if
no gossip brings a node an endpoint that it does not know of a contact that it knows. -/
theorem ages_iff {now : Time} {self : I → A} {observer : I → Bool} {config : I → Configuration A k}
    {keys : I → List A} {acts : List (Act I A E)} (htimeout : ∀ i, 0 ≤ (config i).contact_timeout)
    (hrun : Run step anyStep (started now self observer config keys) acts w') :
    (∀ done w, done <+: acts → Run step anyStep (started now self observer config keys) done w →
      w.Ages) ↔
      Run step Relays (started now self observer config keys) acts w' := by
  have hstart : (started now self observer config keys : World I A E k).Sound := by
    refine ⟨fun i => ⟨fun table c hc => absurd hc List.not_mem_nil,
      fun p hp => absurd hp List.not_mem_nil⟩, fun i => rfl, fun p hp => absurd hp List.not_mem_nil,
      nofun, fun i => Int.le_refl now, htimeout⟩
  exact hrun.always_iff hstart (fun _ h => h.ages) (fun _ _ _ h hc hs => h.step hc hs)
    fun _ _ _ h _ hc hs => h.lost hc hs

instance (w : World I A E k) (act : Act I A E) : Decidable (w.Relays act) :=
  match act with
  | .gossip i endpoint p =>
    inferInstanceAs (Decidable (∀ e ∈ Node.stampedAll w.now
      ((w.nodes i).greeted w.now endpoint p) p.contacts, (w.hear endpoint).heard e = some w.now))
  | .tick _ => isTrue trivial
  | .seen .. => isTrue trivial
  | .gossipEmitter .. => isTrue trivial
  | .onBootstrapRequest .. => isTrue trivial
  | .cleanup _ => isTrue trivial

/-- Two nodes of one group. -/
def pair : World (Fin 2) Nat Nat 1 :=
  started 0 (fun i => i) (fun _ => false) (fun _ => Node.lonely) fun _ => []

theorem news_ages : ∃ w', Run step anyStep pair
      [.seen 0 7 10 false, .tick 5, .gossipEmitter 0 (fun _ l => l) [],
        .gossip 1 12 ⟨0, false, [(7, [(10, 0)])], []⟩] w' ∧
    ∀ done w, done <+: [.seen 0 7 10 false, .tick 5, .gossipEmitter 0 (fun _ l => l) [],
        .gossip 1 12 ⟨0, false, [(7, [(10, 0)])], []⟩] → Run step anyStep pair done w → w.Ages := by
  have h : (exec step Relays pair [.seen 0 7 10 false, .tick 5, .gossipEmitter 0 (fun _ l => l) [],
      .gossip 1 12 ⟨0, false, [(7, [(10, 0)])], []⟩]).map (fun w => w.now) = some 5 := by
    decide +kernel
  obtain ⟨w', hrun, -⟩ := Run.of_exec_map h
  have hany := hrun.mono fun _ _ _ => trivial
  exact ⟨w', hany, (ages_iff (fun _ => by decide) hany).mpr hrun⟩

/-- The contact is known under another endpoint, and that of the gossip comes to be as old as the
gossip. -/
theorem roaming_contact_is_rejuvenated : ∃ w, Run step anyStep pair
      [.seen 0 7 10 false, .seen 1 7 11 false, .tick 5, .gossipEmitter 0 (fun _ l => l) [],
        .gossip 1 12 ⟨0, false, [(7, [(10, 0)])], []⟩] w ∧ ¬w.Ages := by
  have h : (exec step anyStep pair
      [.seen 0 7 10 false, .seen 1 7 11 false, .tick 5, .gossipEmitter 0 (fun _ l => l) [],
        .gossip 1 12 ⟨0, false, [(7, [(10, 0)])], []⟩]).map
      (fun w => (w.heard 10, (w.nodes 1).contacts (some 0))) =
        some (some 0, [⟨some (11, 0), [(11, 0), (10, 5)], 7, 0, 0, 0, 0, false, 0⟩,
          ⟨some (12, 5), [(12, 5)], 0, 0, 0, 0, 0, false, 0⟩]) := by
    decide +kernel
  obtain ⟨w, hrun, hlast⟩ := Run.of_exec_map h
  rw [Prod.mk.injEq] at hlast
  refine ⟨w, hrun, fun hages => ?_⟩
  obtain ⟨t, ht, hle⟩ := hages.recorded 1 (some 0)
    ⟨some (11, 0), [(11, 0), (10, 5)], 7, 0, 0, 0, 0, false, 0⟩
    (by rw [hlast.2]; exact List.mem_cons_self) (10, 5) (by simp)
  rw [hlast.1, Option.some.injEq] at ht
  rw [← ht] at hle
  exact absurd hle (by decide)

end World

end memo.overlay.kelips
