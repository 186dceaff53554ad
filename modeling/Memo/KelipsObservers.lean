-- What an observer can change of a node that takes no plain packets: the storage nodes that it
-- knows, its files, and the requests that wait for a reply.
import Memo.KelipsService
import Memo.KelipsSignals

open dictionaries runs vectors

namespace memo.overlay.kelips

/-! ## Endpoints -/

section Endpoints

variable {A E : Type} [DecidableEq E] {now t t' : Time} {e e' : E}
variable {l : List (TimedEndpoint E)} {es : List E} {c : Contact A E}

/-- The endpoint is there, and is not older. -/
def Reached (now : Time) (e : E) (l : List (TimedEndpoint E)) : Prop :=
  ∃ last, l.lookup e = some last ∧ now ≤ last

theorem reached_cons {te : TimedEndpoint E} :
    Reached now e (te :: l) ↔ if te.1 = e then now ≤ te.2 else Reached now e l := by
  unfold Reached
  rw [List.lookup_cons]
  by_cases he : te.1 = e
  · rw [if_pos he, beq_iff_eq.mpr he.symm]
    constructor
    · rintro ⟨last, hlast, hle⟩
      rw [Option.some.injEq] at hlast
      exact hlast ▸ hle
    · exact fun hle => ⟨_, rfl, hle⟩
  · rw [if_neg he, beq_eq_false_iff_ne.mpr (Ne.symm he)]

theorem endpoints_update_eq_iff : endpoints_update now e now l = l ↔ Reached now e l := by
  induction l with
  | nil => exact ⟨nofun, nofun⟩
  | cons te l ih =>
    rw [reached_cons]
    unfold endpoints_update
    split
    · rw [List.cons_eq_cons, Prod.ext_iff]
      exact ⟨fun h => max_eq_right_iff.mp h.1.2, fun h => ⟨⟨rfl, max_eq_right h⟩, rfl⟩⟩
    · rw [List.cons_eq_cons, ih]
      exact ⟨fun h => h.2, fun h => ⟨rfl, h⟩⟩

theorem reached_update : Reached now e (endpoints_update now e now l) := by
  induction l with
  | nil => exact reached_cons.mpr ((if_pos rfl).mpr le_rfl)
  | cons te l ih =>
    unfold endpoints_update
    split
    · rename_i he
      exact reached_cons.mpr ((if_pos he).mpr (le_max_left _ _))
    · rename_i he
      exact reached_cons.mpr ((if_neg he).mpr ih)

theorem Reached.update (h : Reached now e l) : Reached now e (endpoints_update t e' t' l) := by
  induction l with
  | nil => obtain ⟨last, hlast, _⟩ := h; exact nomatch hlast
  | cons te l ih =>
    rw [reached_cons] at h
    unfold endpoints_update
    split
    · rw [reached_cons]
      split at h
      · rename_i he
        rw [if_pos he]
        exact h.trans (le_max_right _ _)
      · rename_i he
        rw [if_neg he]
        exact h
    · rw [reached_cons]
      split at h
      · rename_i he
        rw [if_pos he]
        exact h
      · rename_i he
        rw [if_neg he]
        exact ih h

theorem endpoints_seen_cons : endpoints_seen now l (e :: es) =
    endpoints_seen now (endpoints_update now e now l) es := rfl

theorem Reached.seen (h : Reached now e l) : Reached now e (endpoints_seen now l es) := by
  induction es generalizing l with
  | nil => exact h
  | cons e' es ih => exact ih h.update

theorem reached_seen (he : e ∈ es) : Reached now e (endpoints_seen now l es) := by
  induction es generalizing l with
  | nil => exact absurd he List.not_mem_nil
  | cons e' es ih =>
    rcases List.mem_cons.mp he with rfl | he
    · rw [endpoints_seen_cons]
      exact Reached.seen reached_update
    · exact ih he

theorem endpoints_seen_eq_iff : endpoints_seen now l es = l ↔ ∀ e ∈ es, Reached now e l := by
  constructor
  · intro h e he
    exact h ▸ reached_seen he
  · intro h
    induction es with
    | nil => rfl
    | cons e es ih =>
      rw [List.forall_mem_cons] at h
      rw [endpoints_seen_cons, endpoints_update_eq_iff.mpr h.1]
      exact ih h.2

/-! ## Contacts -/

/-- A contact that a packet came from. -/
def Contact.stamp (now : Time) (e : E) (c : Contact A E) : Contact A E :=
  { c with
    validated_endpoint := some (e, now)
    endpoints := endpoints_update now e now c.endpoints
    ping_timeouts := 0 }

/-- A contact that a request came from. -/
def Contact.merge (now : Time) (es : List E) (c : Contact A E) : Contact A E :=
  let merged := endpoints_seen now c.endpoints es
  if merged.length ≠ c.endpoints.length then
    { c with endpoints := merged, validated_endpoint := none }
  else
    { c with endpoints := merged }

@[simp] theorem Contact.merge_address : (c.merge now es).address = c.address := by
  unfold merge
  dsimp only
  split <;> rfl

@[simp] theorem Contact.merge_endpoints :
    (c.merge now es).endpoints = endpoints_seen now c.endpoints es := by
  unfold merge
  dsimp only
  split <;> rfl

theorem Contact.stamp_eq_iff : c.stamp now e = c ↔
    c.validated_endpoint = some (e, now) ∧ Reached now e c.endpoints ∧ c.ping_timeouts = 0 := by
  rw [← endpoints_update_eq_iff]
  constructor
  · exact fun h => ⟨(congrArg validated_endpoint h).symm, congrArg endpoints h,
      (congrArg ping_timeouts h).symm⟩
  · rintro ⟨hvalidated, hendpoints, htimeouts⟩
    unfold stamp
    rw [hendpoints, ← hvalidated, ← htimeouts]

theorem Contact.merge_eq_iff : c.merge now es = c ↔ ∀ e ∈ es, Reached now e c.endpoints := by
  rw [← endpoints_seen_eq_iff]
  constructor
  · intro h
    rw [← merge_endpoints, h]
  · intro h
    unfold merge
    rw [h, if_neg fun hne => hne rfl]

/-- What there is of a contact that a packet can change when it comes from it. -/
def Contact.presence (c : Contact A E) : Option (TimedEndpoint E) × List (TimedEndpoint E) × Int :=
  (c.validated_endpoint, c.endpoints, c.ping_timeouts)

theorem Contact.stamp_eq_of_presence (h : (c.stamp now e).presence = c.presence) :
    c.stamp now e = c := by
  obtain ⟨hvalidated, hendpoints, htimeouts⟩ := Prod.mk.inj h |>.imp_right Prod.mk.inj
  exact stamp_eq_iff.mpr
    ⟨hvalidated.symm, endpoints_update_eq_iff.mp hendpoints, htimeouts.symm⟩

theorem Contact.stamp_eq_of_merge (h : ((c.stamp now e).merge now es).presence = c.presence) :
    c.stamp now e = c := by
  have hendpoints : endpoints_seen now (c.stamp now e).endpoints es = c.endpoints := by
    rw [← merge_endpoints]
    exact congrArg (fun p => p.2.1) h
  have hreached : Reached now e c.endpoints := by
    rw [← hendpoints]
    exact Reached.seen reached_update
  have hsame : (c.stamp now e).endpoints = c.endpoints := endpoints_update_eq_iff.mpr hreached
  have hseen : endpoints_seen now (c.stamp now e).endpoints es = (c.stamp now e).endpoints :=
    hendpoints.trans hsame.symm
  rw [merge_eq_iff.mpr (endpoints_seen_eq_iff.mp hseen)] at h
  exact stamp_eq_of_presence h

/-- Nothing more can wait for the contact. -/
def Contact.Flushed (c : Contact A E) : Prop := c.validated_endpoint ≠ none ∨ 5 ≤ c.pending

omit [DecidableEq E] in
theorem Contact.queue_presence {count : Nat} : (c.queue count).presence = c.presence := by
  unfold queue
  split <;> rfl

omit [DecidableEq E] in
theorem Contact.queue_eq_iff {count : Nat} (hcount : 0 < count) :
    c.queue count = c ↔ c.Flushed := by
  unfold queue Flushed
  split
  · rename_i hvalidated
    simp [hvalidated]
  · rename_i hvalidated
    rw [or_iff_right (not_not.mpr hvalidated)]
    constructor
    · intro h
      have hpending : c.pending + min count (5 - c.pending) = c.pending := congrArg pending h
      omega
    · intro h
      rw [Nat.sub_eq_zero_of_le h, Nat.min_zero, Nat.add_zero]

theorem Contact.queue_merge_eq_iff {count : Nat} (hcount : 0 < count) :
    (c.merge now es).queue count = c ↔ (∀ e ∈ es, Reached now e c.endpoints) ∧ c.Flushed := by
  rw [← merge_eq_iff]
  constructor
  · intro h
    have hqueue : ((c.merge now es).queue count).presence = (c.merge now es).presence :=
      queue_presence
    rw [h] at hqueue
    have hendpoints : (c.merge now es).endpoints = c.endpoints :=
      congrArg (fun p => p.2.1) hqueue.symm
    rw [merge_endpoints, endpoints_seen_eq_iff, ← merge_eq_iff] at hendpoints
    rw [hendpoints, queue_eq_iff hcount] at h
    exact ⟨hendpoints, h⟩
  · rintro ⟨hmerge, hflushed⟩
    rw [hmerge, queue_eq_iff hcount]
    exact hflushed

theorem Contact.stamp_merge : (c.merge now [e]).stamp now e = c.stamp now e := by
  have hendpoints : endpoints_update now e now (c.merge now [e]).endpoints =
      endpoints_update now e now c.endpoints := by
    rw [merge_endpoints]
    exact endpoints_update_eq_iff.mpr reached_update
  unfold stamp
  rw [hendpoints]
  unfold merge
  dsimp only
  split <;> rfl

end Endpoints

namespace Node

variable {A E : Type} {k : Nat} [DecidableEq A] {n n' : Node A E k}
variable {now : Time} {a b : A} {e : E} {es : List E} {c : Contact A E} {g : Fin k}

/-! ## Tables stay maps -/

theorem Misplaced.moved (hm : n.Misplaced a) (h : n.Mapped) : ∃ m : Node A E k, m.Mapped ∧
    ¬m.Misplaced a ∧ n.misplaced a false = m.misplaced a false := by
  obtain ⟨hnone, hsome⟩ := hm
  obtain ⟨c, hc⟩ := Option.isSome_iff_exists.mp hsome
  have hca : c.address = a := (find_mem hc).2
  have htarget : ∀ m : Node A E k, m.target false a = some (m.group_of a) := fun _ => rfl
  have hother : n.target (!false) a = none := rfl
  let m := (n.add (some (n.group_of a)) c).erase none a
  have hfind : m.find (some (n.group_of a)) a = some c := by
    rw [find_erase, if_neg fun h => Option.some_ne_none _ h.1,
      find_add (by rw [hca]; exact hnone), if_pos ⟨rfl, hca.symm⟩]
  have hgroup : m.group_of a = n.group_of a := rfl
  refine ⟨m, (h.add (by rw [hca]; exact hnone) fun g hg => ?_).erase, ?_, ?_⟩
  · rw [hca]
    exact Option.some.inj hg
  · intro hm
    exact Option.some_ne_none c (hfind.symm.trans hm.1)
  · unfold misplaced
    dsimp only
    rw [htarget, htarget, hother, hgroup, hnone, hc, hfind]
    rfl

theorem Mapped.get_or_make [DecidableEq E] {observer make : Bool} (h : n.Mapped) :
    (n.get_or_make now a observer es make).1.Mapped := by
  by_cases hplaced : observer = false → ¬n.Misplaced a
  · exact (Lives.get_or_make h hplaced).mapped
  · rw [Classical.not_imp, not_not] at hplaced
    obtain ⟨rfl, hm⟩ := hplaced
    obtain ⟨m, hmapped, hplaced, heq⟩ := hm.moved h
    have hsame : n.get_or_make now a false es make = m.get_or_make now a false es make := by
      unfold Node.get_or_make
      rw [heq]
    rw [hsame]
    exact (Lives.get_or_make hmapped fun _ => hplaced).mapped

theorem Mapped.onContactSeen [DecidableEq E] {observer : Bool} (h : n.Mapped) :
    (n.onContactSeen now a e observer).Mapped := by
  have hmade : (n.get_or_make now a observer [e] (observer || n.room (n.group_of a))).1.Mapped :=
    h.get_or_make
  unfold Node.onContactSeen
  split
  · exact h
  · split
    · rename_i heq
      rw [heq] at hmade
      exact hmade.update fun _ => rfl
    · rename_i heq
      rw [heq] at hmade
      exact hmade

theorem Mapped.gossip_sender [DecidableEq E] (h : n.Mapped) : (n.gossip_sender now a e).Mapped := by
  have hmade : (if (n.find (some (n.group_of a)) a).isSome then n
      else (n.get_or_make now a false [e] true).1).Mapped := by
    split
    · exact h
    · exact h.get_or_make
  unfold Node.gossip_sender
  dsimp only
  split
  · split
    · exact hmade
    · exact (hmade.update (f := fun c => { c with discovered := true }) fun _ => rfl).emit _
  · exact hmade

theorem Mapped.onGossip [DecidableEq E] {p : Gossip A E} (h : n.Mapped) :
    (n.onGossip now e p).Mapped := by
  have hsender : (if n._observer then n.gossip_sender now p.sender e else n).Mapped := by
    split
    · exact h.gossip_sender
    · exact h
  have hcontacts : (p.contacts.foldl (gossip_contact now)
      (if n._observer then n.gossip_sender now p.sender e else n)).Mapped :=
    (gossip_contacts_lives hsender p.contacts).1.mapped
  unfold Node.onGossip
  dsimp only
  generalize (if n._observer then n.gossip_sender now p.sender e else n) = m at hcontacts ⊢
  split
  · exact (gossip_files_lives hcontacts p.files).1.mapped
  · exact hcontacts

theorem Mapped.step [DecidableEq E] (h : n.Mapped) (act : Time × Act A E) :
    (n.step act).Mapped := by
  obtain ⟨now, act⟩ := act
  cases act with
  | seen a endpoint observer => exact h.onContactSeen
  | gossip endpoint p => exact h.onGossip
  | send_bootstrap a endpoints => exact h.get_or_make
  | origin a endpoints => exact h.get_or_make
  | process_update contacts files => exact (Lives.process_update h).mapped
  | cleanup => exact (Lives.cleanup h).mapped
  | gossipEmitter pick picked => exact (Lives.gossipEmitter h).mapped
  | lookup_result file home => exact (Lives.step h (now, .lookup_result file home) trivial).mapped
  | store a => exact (Lives.step h (now, .store a) trivial).mapped
  | store_silently a => exact (Lives.step h (now, .store_silently a) trivial).mapped
  | remove a => exact (Lives.step h (now, .remove a) trivial).mapped

/-! ## Contacts that are seen -/

/-- The tables of the storage nodes are the same. -/
def SameStorage (n n' : Node A E k) : Prop :=
  ∀ g, n'.contacts (some g) = n.contacts (some g)

/-- The table that has an observer, or the origin of a request. -/
def observed (n : Node A E k) (a : A) : Option (Fin k) :=
  if n.find none a = none ∧ (n.find (some (n.group_of a)) a).isSome then some (n.group_of a)
  else none

theorem misplaced_observer : n.misplaced a true = (n, n.observed a) := by
  have htarget : n.target true a = none := rfl
  have hother : n.target (!true) a = some (n.group_of a) := rfl
  unfold misplaced observed
  dsimp only
  rw [htarget, hother]
  cases n.find none a with
  | some d => simp
  | none => cases n.find (some (n.group_of a)) a <;> simp

theorem get_or_make_observer [DecidableEq E] : n.get_or_make now a true es true =
    (match n.find (n.observed a) a with
      | none => (n.add (n.observed a)
          { endpoints := es.map fun e => (e, now), address := a, discovered := true }).emit
            (.discovery a true)
      | some c =>
        if (endpoints_seen now c.endpoints es).length ≠ c.endpoints.length then
          (n.update (n.observed a) a fun d =>
            { d with endpoints := endpoints_seen now c.endpoints es, validated_endpoint := none }
            ).notify_observers [(a, endpoints_seen now c.endpoints es)]
        else
          n.update (n.observed a) a fun d =>
            { d with endpoints := endpoints_seen now c.endpoints es },
      some (n.observed a)) := by
  unfold Node.get_or_make
  rw [misplaced_observer]
  dsimp only
  rw [if_pos rfl]
  cases n.find (n.observed a) a with
  | none => rfl
  | some c => dsimp only; split <;> rfl

theorem observed_none_iff : n.observed a = none ↔
    ¬(n.find none a = none ∧ (n.find (some (n.group_of a)) a).isSome) := by
  unfold observed
  split
  · rename_i h
    exact ⟨nofun, fun hno => absurd h hno⟩
  · rename_i h
    exact ⟨fun _ => h, fun _ => rfl⟩

theorem observed_eq_some (h : n.observed a = some g) :
    g = n.group_of a ∧ n.find none a = none := by
  unfold observed at h
  split at h
  · rename_i hfind
    exact ⟨(Option.some.inj h).symm, hfind.1⟩
  · exact nomatch h

theorem not_observed (h : n.Mapped) (hg : some g ≠ n.observed a) (hc : c ∈ n.contacts (some g)) :
    ¬(n.find none a = none ∧ c.address = a) := by
  rintro ⟨hnone, rfl⟩
  apply hg
  unfold observed
  rw [h.grouped g c hc, h.mem_find hc, if_pos ⟨hnone, rfl⟩]

theorem observed_of_find_none (hfind : n.find (n.observed a) a = none) : n.observed a = none := by
  rw [observed_none_iff]
  rintro ⟨hnone, hsome⟩
  have htable : n.observed a = some (n.group_of a) := if_pos ⟨hnone, hsome⟩
  rw [htable] at hfind
  rw [hfind] at hsome
  exact nomatch hsome

theorem contacts_update_observed (h : n.Mapped) {f f' : Contact A E → Contact A E}
    (hf : ∀ d, n.find (n.observed a) a = some d → f d = f' d) (g : Fin k) :
    (n.update (n.observed a) a f).contacts (some g) = (n.contacts (some g)).map fun c =>
      if n.find none a = none ∧ c.address = a then f' c else c := by
  unfold Node.update
  by_cases hg : some g = n.observed a
  · obtain ⟨-, hnone⟩ := observed_eq_some hg.symm
    rw [← hg, contacts_set_self]
    refine List.map_congr_left fun c hc => ?_
    by_cases hca : c.address = a
    · rw [if_pos hca, if_pos ⟨hnone, hca⟩]
      refine hf c ?_
      rw [← hg, ← hca]
      exact h.mem_find hc
    · rw [if_neg hca, if_neg fun h => hca h.2]
  · rw [contacts_set_ne _ _ hg]
    exact ((List.map_congr_left fun c hc => if_neg (not_observed h hg hc)).trans
      (List.map_id' _)).symm

variable [DecidableEq E]

theorem contacts_get_or_make (h : n.Mapped) (g : Fin k) :
    (n.get_or_make now a true es true).1.contacts (some g) =
      (n.contacts (some g)).map fun c =>
        if n.find none a = none ∧ c.address = a then c.merge now es else c := by
  rw [get_or_make_observer]
  dsimp only
  cases hfind : n.find (n.observed a) a with
  | none =>
    have hobserved := observed_of_find_none hfind
    have hg : some g ≠ n.observed a := hobserved ▸ Option.some_ne_none g
    have hadd : ∀ d, (n.add (n.observed a) d).contacts (some g) = n.contacts (some g) :=
      fun d => contacts_set_ne _ _ hg
    exact (hadd _).trans ((List.map_congr_left fun c hc => if_neg (not_observed h hg hc)).trans
      (List.map_id' _)).symm
  | some c =>
    dsimp only
    split
    · rename_i hlength
      refine contacts_update_observed h (fun d hd => ?_) g
      obtain rfl : c = d := Option.some.inj (hfind.symm.trans hd)
      unfold Contact.merge
      exact (if_pos hlength).symm
    · rename_i hlength
      refine contacts_update_observed h (fun d hd => ?_) g
      obtain rfl : c = d := Option.some.inj (hfind.symm.trans hd)
      unfold Contact.merge
      exact (if_neg hlength).symm

theorem onContactSeen_observer (ha : a ≠ n._self) : n.onContactSeen now a e true =
    (n.get_or_make now a true [e] true).1.update (n.observed a) a (Contact.stamp now e) := by
  have htable : (n.get_or_make now a true [e] true).2 = some (n.observed a) := by
    rw [get_or_make_observer]
  unfold Node.onContactSeen
  rw [if_neg ha, Bool.true_or]
  split
  · rename_i m table heq
    rw [heq] at htable ⊢
    obtain rfl : table = n.observed a := Option.some.inj htable
    rfl
  · rename_i m heq
    rw [heq] at htable
    exact nomatch htable

theorem contacts_onContactSeen (h : n.Mapped) (ha : a ≠ n._self) (g : Fin k) :
    (n.onContactSeen now a e true).contacts (some g) = (n.contacts (some g)).map fun c =>
      if n.find none a = none ∧ c.address = a then c.stamp now e else c := by
  rw [onContactSeen_observer ha]
  unfold Node.update
  by_cases hg : some g = n.observed a
  · obtain ⟨-, hnone⟩ := observed_eq_some hg.symm
    rw [← hg, contacts_set_self, contacts_get_or_make h, List.map_map]
    refine List.map_congr_left fun c _ => ?_
    by_cases hca : c.address = a
    · simp [hnone, hca, Contact.stamp_merge]
    · simp [hca]
  · rw [contacts_set_ne _ _ hg, contacts_get_or_make h]
    refine List.map_congr_left fun c hc => ?_
    rw [if_neg (not_observed h hg hc), if_neg (not_observed h hg hc)]

theorem observer_get_or_make (h : n.Mapped) (hc : c ∈ n.contacts (some g)) :
    (n.get_or_make now a true es true).1.find none c.address = none ↔
      n.find none c.address = none := by
  have hupdate : ∀ f : Contact A E → Contact A E, (∀ d, (f d).address = d.address) →
      ((n.update (n.observed a) a f).find none c.address = none ↔
        n.find none c.address = none) := by
    intro f hf
    rw [find_update hf]
    split
    · exact Option.map_eq_none_iff
    · rfl
  rw [get_or_make_observer]
  dsimp only
  cases hfind : n.find (n.observed a) a with
  | some d =>
    dsimp only
    split
    · exact hupdate _ fun _ => rfl
    · exact hupdate _ fun _ => rfl
  | none =>
    have hobserved := observed_of_find_none hfind
    have hca : c.address ≠ a := by
      rintro rfl
      rw [hobserved] at hfind
      exact not_observed h (hobserved ▸ Option.some_ne_none g) hc ⟨hfind, rfl⟩
    have hadd : ∀ d : Contact A E, d.address = a →
        (n.add (n.observed a) d).find none c.address = n.find none c.address := by
      rintro d rfl
      rw [find_add hfind, if_neg fun h => hca h.2]
    exact iff_of_eq (congrArg (· = none) (hadd _ rfl))

theorem observer_onContactSeen (h : n.Mapped) (hc : c ∈ n.contacts (some g)) :
    (n.onContactSeen now a e true).find none c.address = none ↔
      n.find none c.address = none := by
  by_cases ha : a = n._self
  · unfold Node.onContactSeen
    rw [if_pos ha]
  · rw [onContactSeen_observer ha, find_update (f := Contact.stamp now e) fun _ => rfl,
      ← observer_get_or_make h hc]
    split
    · exact Option.map_eq_none_iff
    · rfl

/-! ## What is the same -/

/-- The contact of a storage node is as it is once a packet came from it. -/
def Stamped (now : Time) (e : E) (a : A) (n : Node A E k) : Prop :=
  a ≠ n._self → n.find none a = none → ∀ g, ∀ c ∈ n.contacts (some g), c.address = a →
    c.validated_endpoint = some (e, now) ∧ Reached now e c.endpoints ∧ c.ping_timeouts = 0

/-- The endpoints of a storage node are those that are told, and what it is sent is not one more
that waits. -/
def Known (now : Time) (es : List E) (a : A) (n : Node A E k) : Prop :=
  n.find none a = none → ∀ g, ∀ c ∈ n.contacts (some g), c.address = a →
    (∀ e ∈ es, Reached now e c.endpoints) ∧ c.Flushed

theorem sameStorage_onContactSeen_iff (h : n.Mapped) :
    n.SameStorage (n.onContactSeen now a e true) ↔ n.Stamped now e a := by
  unfold Stamped SameStorage
  by_cases ha : a = n._self
  · unfold Node.onContactSeen
    rw [if_pos ha]
    exact ⟨fun _ hne => absurd ha hne, fun _ _ => rfl⟩
  · simp only [contacts_onContactSeen h ha, map_eq_self_iff]
    constructor
    · intro hsame _ hnone g c hc hca
      have hstamp := hsame g c hc
      rw [if_pos ⟨hnone, hca⟩] at hstamp
      exact Contact.stamp_eq_iff.mp hstamp
    · intro hstamped g c hc
      split
      · rename_i hca
        exact Contact.stamp_eq_iff.mpr (hstamped ha hca.1 g c hc hca.2)
      · rfl

theorem contacts_told (h : n.Mapped) (count : Nat) (g : Fin k) :
    ((n.get_or_make now a true es true).1.update (n.observed a) a
      (Contact.queue count)).contacts (some g) = (n.contacts (some g)).map fun c =>
        if n.find none a = none ∧ c.address = a then (c.merge now es).queue count else c := by
  unfold Node.update
  by_cases hg : some g = n.observed a
  · obtain ⟨-, hnone⟩ := observed_eq_some hg.symm
    rw [← hg, contacts_set_self, contacts_get_or_make h, List.map_map]
    refine List.map_congr_left fun c _ => ?_
    by_cases hca : c.address = a
    · simp [hnone, hca]
    · simp [hca]
  · rw [contacts_set_ne _ _ hg, contacts_get_or_make h]
    refine List.map_congr_left fun c hc => ?_
    rw [if_neg (not_observed h hg hc), if_neg (not_observed h hg hc)]

theorem sameStorage_told_iff {count : Nat} (h : n.Mapped) (hcount : 0 < count) :
    n.SameStorage ((n.get_or_make now a true es true).1.update (n.observed a) a
      (Contact.queue count)) ↔ n.Known now es a := by
  unfold Known SameStorage
  simp only [contacts_told h, map_eq_self_iff]
  constructor
  · intro hsame hnone g c hc hca
    have hmerge := hsame g c hc
    rw [if_pos ⟨hnone, hca⟩] at hmerge
    exact (Contact.queue_merge_eq_iff hcount).mp hmerge
  · intro hknown g c hc
    split
    · rename_i hca
      exact (Contact.queue_merge_eq_iff hcount).mpr (hknown hca.1 g c hc hca.2)
    · rfl

/-- No packet is one more that waits for the contact of the group. -/
def Flushed (g : Fin k) (a : A) (n : Node A E k) : Prop :=
  ∀ c ∈ n.contacts (some g), c.address = a → c.Flushed

omit [DecidableEq E] in
theorem sameStorage_update_iff {f : Contact A E → Contact A E} :
    n.SameStorage (n.update (some g) a f) ↔
      ∀ c ∈ n.contacts (some g), c.address = a → f c = c := by
  have hg : (n.update (some g) a f).contacts (some g) = n.contacts (some g) ↔
      ∀ c ∈ n.contacts (some g), c.address = a → f c = c := by
    unfold Node.update
    rw [contacts_set_self, map_eq_self_iff]
    refine forall₂_congr fun c _ => ?_
    by_cases hca : c.address = a
    · rw [if_pos hca, forall_prop_of_true hca]
    · rw [if_neg hca]
      exact ⟨fun _ h => absurd h hca, fun _ => rfl⟩
  rw [← hg]
  refine ⟨fun h => h g, fun h g' => ?_⟩
  by_cases heq : g' = g
  · exact heq ▸ h
  · exact contacts_set_ne _ _ fun h => heq (Option.some.inj h)

omit [DecidableEq E] in
theorem sameStorage_queue_iff {count : Nat} (hcount : 0 < count) :
    n.SameStorage (n.update (some g) a (Contact.queue count)) ↔ n.Flushed g a := by
  rw [sameStorage_update_iff]
  unfold Flushed
  simp only [Contact.queue_eq_iff hcount]

/-- The storage nodes are as present as they were. -/
def SamePresence (n n' : Node A E k) : Prop :=
  ∀ g, (n'.contacts (some g)).map Contact.presence = (n.contacts (some g)).map Contact.presence

omit [DecidableEq A] [DecidableEq E] in
theorem SameStorage.presence (h : n.SameStorage n') : n.SamePresence n' :=
  fun g => congrArg _ (h g)

omit [DecidableEq E] in
theorem samePresence_update_iff {m : Node A E k} {table : Option (Fin k)}
    {f : Contact A E → Contact A E} (hf : ∀ c, (f c).presence = c.presence) :
    m.SamePresence (n.update table a f) ↔ m.SamePresence n := by
  refine forall_congr' fun g => ?_
  unfold Node.update
  by_cases hg : some g = table
  · rw [← hg, contacts_set_self, List.map_map]
    have hcomp : (Contact.presence ∘ fun c => if c.address = a then f c else c) =
        Contact.presence := by
      funext c
      dsimp only [Function.comp]
      split
      · exact hf c
      · rfl
    rw [hcomp]
  · rw [contacts_set_ne _ _ hg]

theorem SamePresence.onContactSeen (h : n.Mapped)
    (hsame : n.SamePresence (n.onContactSeen now a e true)) :
    n.SameStorage (n.onContactSeen now a e true) := by
  by_cases ha : a = n._self
  · unfold Node.onContactSeen
    rw [if_pos ha]
    exact fun _ => rfl
  · intro g
    have hg := hsame g
    rw [contacts_onContactSeen h ha, List.map_map, List.map_inj_left] at hg
    rw [contacts_onContactSeen h ha, map_eq_self_iff]
    intro c hc
    have hpresence := hg c hc
    dsimp only [Function.comp] at hpresence
    split
    · rename_i hca
      rw [if_pos hca] at hpresence
      exact Contact.stamp_eq_of_presence hpresence
    · rfl

theorem SamePresence.of_get_or_make (h : n.Mapped)
    (hsame : n.SamePresence ((n.onContactSeen now a e true).get_or_make now b true es true).1) :
    n.SameStorage (n.onContactSeen now a e true) := by
  by_cases ha : a = n._self
  · unfold Node.onContactSeen
    rw [if_pos ha]
    exact fun _ => rfl
  · intro g
    have hg := hsame g
    rw [contacts_get_or_make h.onContactSeen, contacts_onContactSeen h ha, List.map_map,
      List.map_map, List.map_inj_left] at hg
    rw [contacts_onContactSeen h ha, map_eq_self_iff]
    intro c hc
    have hboth := hg c hc
    dsimp only [Function.comp] at hboth
    split
    · rename_i hca
      simp only [if_pos hca] at hboth
      split at hboth
      · exact Contact.stamp_eq_of_merge hboth
      · exact Contact.stamp_eq_of_presence hboth
    · rfl

theorem known_onContactSeen (h : n.Mapped)
    (hsame : n.SameStorage (n.onContactSeen now a e true)) :
    (n.onContactSeen now a e true).Known now es b ↔ n.Known now es b := by
  unfold Known
  constructor
  · intro hknown hnone g c hc hca
    refine hknown ?_ g c (hsame g ▸ hc) hca
    rw [← hca, observer_onContactSeen h hc, hca]
    exact hnone
  · intro hknown hnone g c hc hca
    rw [hsame g] at hc
    refine hknown ?_ g c hc hca
    rw [← hca, ← observer_onContactSeen h hc, hca]
    exact hnone

end Node

end memo.overlay.kelips
