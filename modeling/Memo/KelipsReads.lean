-- The times at which a node reads how old its contacts are: when it picks contacts to gossip
-- about, when it lists its peers, and when it is queried. A contact that has no endpoint has
-- no age.
import Mathlib.Data.List.ReduceOption
import Memo.KelipsHearing
import Memo.KelipsInfluence
import Memo.KelipsState
import Memo.Maps

open dictionaries maps runs

namespace memo.overlay.kelips

variable {A E : Type} [DecidableEq A] {k : Nat}

/-! ## Reads -/

/-- `endpoints_max`. The end of an empty list is not to be read. -/
def endpoints_max? (endpoints : List (TimedEndpoint E)) : Option Time :=
  if endpoints = [] then none else some (endpoints_max endpoints)

/-- A contact, as it is listed. -/
structure Listed (A E : Type) where
  id : A
  validated_endpoint : Option E
  endpoints : List E
  last_seen : Time

/-- One of the groups. -/
structure Peer (A E : Type) (k : Nat) extends Listed A E where
  discovered : Bool
  group : Fin k

/-- The contacts in an answer to `stats`. -/
structure Stats (A E : Type) (k : Nat) where
  group : Fin k
  contacts : List (Peer A E k)
  files : Nat
  observers : List (Listed A E)

def Contact.listed (now : Time) (c : Contact A E) : Option (Listed A E) := do
  let last_seen ← endpoints_max? c.endpoints
  return {
    id := c.address
    validated_endpoint := c.validated_endpoint.map (·.1)
    endpoints := c.endpoints.map (·.1)
    last_seen := now - last_seen }

namespace Node

def refreshed? (n : Node A E k) (now : Time) (c : Contact A E) : Option Bool := do
  let last_seen ← endpoints_max? c.endpoints
  return c.last_gossip < last_seen ∧ n._config.old_threshold < now - last_seen

def addresses? (n : Node A E k) (tables : List (Option (Fin k)))
    (p : Contact A E → Option Bool) : Option (List A) := do
  let chosen ← (tables.flatMap n.contacts).mapM fun c =>
    (p c).map fun b => if b then some c.address else none
  return chosen.reduceOption

def pickOld? (pick : Nat → List A → List A) (now : Time) (tables : List (Option (Fin k)))
    (target_count : Nat) (s : Picked A E k) : Option (Picked A E k) := do
  let contacts ← s.2.addresses? tables fun c => (s.2.refreshed? now c).map (· && missing s c)
  return filterAndInsert pick now contacts target_count s

/-- `Node::pickContacts`, with what it reads. -/
def pickContacts? (pick : Nat → List A → List A) (now : Time) (n : Node A E k) :
    Option (Picked A E k) := do
  let group := [some n._group]
  let others := ((List.finRange k).filter fun g => g ≠ n._group).map some
  let max_group := n._config.contacts_group
  let max_other := n._config.contacts_other
  let s ← pickOld? pick now group (max_group / 2) (pickNew pick now group (max_group / 2) ([], n))
  let s :=
    if s.1.length < max_group then pickRandom pick now group (max_group - s.1.length) s else s
  let size0 := s.1.length
  let s ← pickOld? pick now others (max_other / 2) (pickNew pick now others (max_other / 2) s)
  if s.1.length - size0 < max_group then
    let room : Int := max_other - (s.1.length - size0 : Nat)
    return pickRandom pick now others (room % 2 ^ 32).toNat s
  else
    return s

/-- `Node::gossipEmitter`, with what it reads. -/
def gossipEmitter? (pick : Nat → List A → List A) (picked : List (A × A)) (now : Time)
    (n : Node A E k) : Option (Node A E k) := do
  let (contacts, n) ← n.pickContacts? pick now
  let (files, n) := n.pickFiles picked now
  return { n with sent := n.sent ++
    [⟨n._self, n._observer, contacts, []⟩, ⟨n._self, n._observer, contacts, files⟩] }

/-- `Node::peer_list` -/
def peer_list (now : Time) (n : Node A E k) : Option (List (Peer A E k)) :=
  ((List.finRange k).flatMap fun g => (n.contacts (some g)).map fun c => (g, c)).mapM fun p =>
    (p.2.listed now).map fun l => { l with discovered := p.2.discovered, group := p.1 }

/-- `Node::query`, of the key `stats`. No other key is about the age of a contact. -/
def query_stats (now : Time) (n : Node A E k) : Option (Stats A E k) := do
  let contacts ← n.peer_list now
  let observers ← (n.contacts none).mapM (Contact.listed now)
  return { group := n._group, contacts, files := n.files.length, observers }

/-- Nothing that is read is missing. -/
structure Readable (now : Time) (n : Node A E k) : Prop where
  picks : ∀ pick, (n.pickContacts? pick now).isSome
  lists : (n.peer_list now).isSome
  queries : (n.query_stats now).isSome

/-- Each contact has an endpoint. -/
def Supplied (n : Node A E k) : Prop := ∀ table, ∀ c ∈ n.contacts table, c.endpoints ≠ []

/-! ### Contacts with endpoints -/

variable {n n' : Node A E k} {now : Time} {table : Option (Fin k)} {a : A}

theorem endpoints_max?_eq {endpoints : List (TimedEndpoint E)} (h : endpoints ≠ []) :
    endpoints_max? endpoints = some (endpoints_max endpoints) := if_neg h

theorem pickOld?_eq {s : Picked A E k} (h : s.2.Supplied) (pick : Nat → List A → List A)
    (now : Time) (tables : List (Option (Fin k))) (target_count : Nat) :
    pickOld? pick now tables target_count s = some (pickOld pick now tables target_count s) := by
  have hall : ∀ c ∈ tables.flatMap s.2.contacts,
      (((s.2.refreshed? now c).map (· && missing s c)).map fun b =>
        if b then some c.address else none) =
        some (if s.2.refreshed now c && missing s c then some c.address else none) := by
    intro c hc
    obtain ⟨table, -, hc⟩ := List.mem_flatMap.mp hc
    simp [refreshed?, refreshed, endpoints_max?_eq (h table c hc)]
  unfold pickOld? addresses? pickOld addresses
  rw [mapM_eq_map hall]
  simp [List.reduceOption, List.filterMap_map]

omit [DecidableEq A] in
theorem Supplied.of_contacts (h : n.Supplied) (hcontacts : n'.contacts = n.contacts) :
    n'.Supplied := by
  unfold Supplied
  rwa [hcontacts]

omit [DecidableEq A] in
theorem Supplied.emit (h : n.Supplied) (signal : Signal A) : (n.emit signal).Supplied := h

omit [DecidableEq A] in
theorem Supplied.notify_observers (h : n.Supplied) (contacts : List (A × List (TimedEndpoint E))) :
    (n.notify_observers contacts).Supplied := h

omit [DecidableEq A] in
theorem Supplied.set {l : List (Contact A E)} (h : n.Supplied)
    (hl : ∀ c ∈ l, c.endpoints ≠ []) : (n.set table l).Supplied := by
  intro other c hc
  by_cases ht : other = table
  · rw [ht, contacts_set_self] at hc
    exact hl c hc
  · rw [contacts_set_ne _ _ ht] at hc
    exact h other c hc

theorem Supplied.update {f : Contact A E → Contact A E} (h : n.Supplied)
    (hf : ∀ c, c.endpoints ≠ [] → (f c).endpoints ≠ []) : (n.update table a f).Supplied := by
  refine h.set fun c hc => ?_
  obtain ⟨d, hd, rfl⟩ := List.mem_map.mp hc
  split
  · exact hf d (h table d hd)
  · exact h table d hd

omit [DecidableEq A] in
theorem Supplied.add {c : Contact A E} (h : n.Supplied) (hc : c.endpoints ≠ []) :
    (n.add table c).Supplied := by
  refine h.set fun d hd => ?_
  rcases List.mem_append.mp hd with hd | hd
  · exact h table d hd
  · rwa [List.mem_singleton.mp hd]

theorem Supplied.erase (h : n.Supplied) : (n.erase table a).Supplied :=
  h.set fun c hc => h table c (List.mem_of_mem_filter hc)

theorem Supplied.insertContact {s : Picked A E k} (h : s.2.Supplied) (now : Time) (a : A) :
    (Node.insertContact now s a).2.Supplied := by
  unfold Node.insertContact
  dsimp only
  cases s.2.find (some (s.2.group_of a)) a with
  | none => exact h
  | some c => exact h.update fun c hc => hc

theorem Supplied.filterAndInsert {s : Picked A E k} (h : s.2.Supplied)
    (pick : Nat → List A → List A) (now : Time) (contacts : List A) (target_count : Nat) :
    (Node.filterAndInsert pick now contacts target_count s).2.Supplied := by
  unfold Node.filterAndInsert
  exact List.foldlRecOn (motive := fun s : Picked A E k => s.2.Supplied) _ _ h
    fun s h a _ => h.insertContact now a

theorem Supplied.pickContacts?_eq (h : n.Supplied) (pick : Nat → List A → List A) (now : Time) :
    n.pickContacts? pick now = some (n.pickContacts pick now) := by
  have hkept : ∀ (s : Picked A E k) contacts count, s.2.Supplied →
      (Node.filterAndInsert pick now contacts count s).2.Supplied :=
    fun _ _ _ hs => hs.filterAndInsert _ _ _ _
  unfold pickContacts? pickContacts
  extract_lets group others max_group max_other s₁ s₂ s₃ size0 s₄ s₅
  have h₁ : s₁.2.Supplied := hkept _ _ _ h
  have h₃ : s₃.2.Supplied := by
    change (if s₂.1.length < max_group then _ else _ : Picked A E k).2.Supplied
    split
    · exact hkept _ _ _ (hkept _ _ _ h₁)
    · exact hkept _ _ _ h₁
  have hfirst : pickOld? pick now group (max_group / 2)
      (pickNew pick now group (max_group / 2) ([], n)) = some s₂ := pickOld?_eq h₁ ..
  have hsecond : pickOld? pick now others (max_other / 2) s₄ = some s₅ :=
    pickOld?_eq (hkept _ _ _ h₃) ..
  rw [hfirst]
  change (pickOld? pick now others (max_other / 2) s₄).bind _ = _
  rw [hsecond, Option.bind_some]
  exact (apply_ite some (s₅.1.length - size0 < max_group) _ _).symm

theorem Supplied.gossipEmitter?_eq (h : n.Supplied) (pick : Nat → List A → List A)
    (picked : List (A × A)) (now : Time) :
    n.gossipEmitter? pick picked now = some (n.gossipEmitter pick picked now) := by
  unfold gossipEmitter?
  rw [h.pickContacts?_eq]
  rfl

omit [DecidableEq A] in
theorem listed_isSome_iff {c : Contact A E} : (c.listed now).isSome ↔ c.endpoints ≠ [] := by
  unfold Contact.listed endpoints_max?
  by_cases hc : c.endpoints = []
  · simp [hc]
  · simp [hc]

omit [DecidableEq A] in
theorem peer_list_isSome_iff : (n.peer_list now).isSome ↔
    ∀ g, ∀ c ∈ n.contacts (some g), c.endpoints ≠ [] := by
  unfold peer_list
  rw [mapM_isSome_iff]
  simp only [List.mem_flatMap, List.mem_map, List.mem_finRange, true_and, Option.isSome_map,
    listed_isSome_iff]
  constructor
  · exact fun h g c hc => h (g, c) ⟨g, c, hc, rfl⟩
  · rintro h p ⟨g, c, hc, rfl⟩
    exact h g c hc

omit [DecidableEq A] in
theorem query_stats_isSome_iff : (n.query_stats now).isSome ↔ n.Supplied := by
  have hobservers : ((n.contacts none).mapM (Contact.listed now)).isSome ↔
      ∀ c ∈ n.contacts none, c.endpoints ≠ [] := by
    simp only [mapM_isSome_iff, listed_isSome_iff]
  have hboth : (n.query_stats now).isSome ↔
      (n.peer_list now).isSome ∧ ((n.contacts none).mapM (Contact.listed now)).isSome := by
    unfold query_stats
    cases n.peer_list now with
    | none => simp
    | some contacts => cases (n.contacts none).mapM (Contact.listed now) <;> simp
  rw [hboth, peer_list_isSome_iff, hobservers]
  constructor
  · rintro ⟨hgroups, hnone⟩ table c hc
    cases table with
    | none => exact hnone c hc
    | some g => exact hgroups g c hc
  · exact fun h => ⟨fun g => h (some g), h none⟩

theorem readable_iff : n.Readable now ↔ n.Supplied := by
  constructor
  · exact fun h => query_stats_isSome_iff.mp h.queries
  · intro h
    refine ⟨fun pick => ?_, ?_, query_stats_isSome_iff.mpr h⟩
    · rw [h.pickContacts?_eq]
      rfl
    · exact peer_list_isSome_iff.mpr fun g => h (some g)

/-! ### What keeps contacts supplied -/

variable {e : E} {es : List E} {l : List (TimedEndpoint E)} {observer make : Bool}

theorem endpoints_update_ne_nil [DecidableEq E] (now : Time) (e : E) (t : Time)
    (l : List (TimedEndpoint E)) :
    endpoints_update now e t l ≠ [] := by
  cases l with
  | nil => simp [endpoints_update]
  | cons te l =>
    unfold endpoints_update
    split
    · simp
    · simp

theorem endpoints_merge_ne_nil [DecidableEq E] (h : l ≠ []) (src : List (TimedEndpoint E)) :
    endpoints_merge now l src ≠ [] :=
  List.foldlRecOn (motive := fun l => l ≠ []) _ _ h fun _ _ _ _ => endpoints_update_ne_nil _ _ _ _

theorem endpoints_seen_ne_nil [DecidableEq E] (h : l ≠ []) : endpoints_seen now l es ≠ [] :=
  endpoints_merge_ne_nil h _

theorem Misplacing.supplied {p : Node A E k × Option (Fin k)} (hm : n.Misplacing a observer p)
    (h : n.Supplied) : p.1.Supplied := by
  cases hm with
  | here => exact h
  | there => exact h
  | nowhere => exact h
  | moved c ho hnone hother => exact (h.add (h _ c (find_mem hother).1)).erase

theorem Supplied.get_or_make [DecidableEq E] (h : n.Supplied) (hes : es = [] → n.Contacted a) :
    (n.get_or_make now a observer es make).1.Supplied := by
  have hm := misplacing n a observer
  unfold Node.get_or_make
  generalize n.misplaced a observer = p at hm ⊢
  have hfound := hm.found
  have hsupplied := hm.supplied h
  obtain ⟨m, table⟩ := p
  dsimp only at hfound hsupplied ⊢
  split
  · cases hfind : m.find table a with
    | none =>
      have hnonempty : es ≠ [] := by
        intro heq
        have hsome := hfound (hes heq)
        rw [hfind] at hsome
        cases hsome
      have hadded : (m.add table
          { endpoints := es.map fun e => (e, now)
            address := a
            discovered := observer }).Supplied := hsupplied.add (by simpa using hnonempty)
      dsimp only
      split
      · exact hadded.emit _
      · exact hadded
    | some c =>
      have hmerged : endpoints_seen now c.endpoints es ≠ [] :=
        endpoints_seen_ne_nil (hsupplied table c (find_mem hfind).1)
      dsimp only
      split
      · exact (hsupplied.update fun _ _ => hmerged).notify_observers _
      · exact hsupplied.update fun _ _ => hmerged
  · exact hsupplied

theorem Supplied.onContactSeen [DecidableEq E] (h : n.Supplied) :
    (n.onContactSeen now a e observer).Supplied := by
  have hmade :
      (n.get_or_make now a observer [e] (observer || n.room (n.group_of a))).1.Supplied :=
    h.get_or_make nofun
  unfold Node.onContactSeen
  split
  · exact h
  · split
    · rename_i heq
      rw [heq] at hmade
      exact hmade.update fun _ _ => endpoints_update_ne_nil _ _ _ _
    · rename_i heq
      rw [heq] at hmade
      exact hmade

theorem Supplied.gossip_sender [DecidableEq E] (h : n.Supplied) :
    (n.gossip_sender now a e).Supplied := by
  have hmade : (if (n.find (some (n.group_of a)) a).isSome then n
      else (n.get_or_make now a false [e] true).1).Supplied := by
    split
    · exact h
    · exact h.get_or_make nofun
  unfold Node.gossip_sender
  dsimp only
  split
  · split
    · exact hmade
    · exact (hmade.update (f := fun c => { c with discovered := true }) fun _ hc => hc).emit _
  · exact hmade

theorem Supplied.gossip_contact [DecidableEq E] (h : n.Supplied)
    (contact : A × List (TimedEndpoint E)) : (n.gossip_contact now contact).Supplied := by
  obtain ⟨a, endpoints⟩ := contact
  unfold Node.gossip_contact
  dsimp only
  split_ifs with hself hempty hknown hroom
  · exact h
  · exact h
  · exact h.update fun _ hc => endpoints_merge_ne_nil hc _
  · exact (h.add hempty).emit _
  · exact h

theorem gossip_file_contacts (n : Node A E k) (f : A × Time × A) :
    (n.gossip_file f).contacts = n.contacts := by
  unfold gossip_file
  dsimp only
  split <;> rfl

theorem Supplied.onGossip [DecidableEq E] {p : Gossip A E} (h : n.Supplied) :
    (n.onGossip now e p).Supplied := by
  have hsender : (if n._observer then n.gossip_sender now p.sender e else n).Supplied := by
    split
    · exact h.gossip_sender
    · exact h
  have hcontacts : (p.contacts.foldl (Node.gossip_contact now)
      (if n._observer then n.gossip_sender now p.sender e else n)).Supplied :=
    List.foldlRecOn (motive := Supplied) _ _ hsender fun _ h c _ => h.gossip_contact c
  unfold Node.onGossip
  dsimp only
  generalize (if n._observer then n.gossip_sender now p.sender e else n) = m at hcontacts ⊢
  split
  · exact List.foldlRecOn (motive := Supplied) _ _ hcontacts
      fun n h f _ => h.of_contacts (gossip_file_contacts n f)
  · exact hcontacts

omit [DecidableEq A] in
theorem Supplied.cleanup_table (h : n.Supplied) (deadline : Time) (table : Option (Fin k)) :
    (n.cleanup_table deadline table).Supplied := by
  have hkept : (n.set table (cleanup_contacts deadline (n.contacts table)).1).Supplied := by
    refine h.set fun c hc => ?_
    unfold cleanup_contacts at hc
    rw [List.partition_eq_filter_filter] at hc
    simpa using (List.mem_filter.mp hc).2
  unfold Node.cleanup_table
  cases table with
  | none => exact hkept
  | some g => exact List.foldlRecOn (motive := Supplied) _ _ hkept fun _ h _ _ => h.of_contacts rfl

theorem Supplied.cleanup (h : n.Supplied) : (n.cleanup now).Supplied := by
  unfold Node.cleanup
  exact List.foldlRecOn (motive := Supplied) _ _ (h.of_contacts rfl)
    fun _ h table _ => h.cleanup_table _ table

theorem Supplied.gossipEmitter (h : n.Supplied) (pick : Nat → List A → List A)
    (picked : List (A × A)) : (n.gossipEmitter pick picked now).Supplied := by
  have hpicked : (n.pickContacts pick now).2.Supplied :=
    pickContacts_induction (I := fun s => s.2.Supplied) pick now n h
      fun s a h => h.insertContact now a
  exact hpicked.of_contacts rfl

/-! ### The state of another node -/

variable {c : A × List E} {contacts : List (A × List E)} {files : List (A × A)}

/-- A contact that is added without an endpoint. -/
def Unlocated (n : Node A E k) (c : A × List E) : Prop :=
  c.2 = [] ∧ c.1 ≠ n._self ∧ n.find (some (n.group_of c.1)) c.1 = none ∧
    n.room (n.group_of c.1) = true

theorem Supplied.update_contact [DecidableEq E] (h : n.Supplied) (hc : ¬ n.Unlocated c) :
    (n.update_contact now c).Supplied := by
  obtain ⟨a, endpoints⟩ := c
  unfold Node.update_contact
  dsimp only
  split
  · exact h
  · rename_i hself
    cases hfind : n.find (some (n.group_of a)) a with
    | none =>
      dsimp only
      split
      · rename_i hroom
        have hnonempty : endpoints ≠ [] := fun heq => hc ⟨heq, hself, hfind, hroom⟩
        have hadded : (n.add (some (n.group_of a))
            { endpoints := endpoints.map fun e => (e, now)
              address := a
              discovered := true }).Supplied := h.add (by simpa using hnonempty)
        exact (hadded.emit _).notify_observers _
      · exact h
    | some d =>
      have hmerged : endpoints_seen now d.endpoints endpoints ≠ [] :=
        endpoints_seen_ne_nil (h _ d (find_mem hfind).1)
      have hupdated : (n.update (some (n.group_of a)) a fun c =>
          { c with
            endpoints := endpoints_seen now d.endpoints endpoints
            discovered := true }).Supplied := h.update fun _ _ => hmerged
      dsimp only
      split
      · exact hupdated
      · exact (hupdated.emit _).notify_observers _

theorem update_file_contacts (n : Node A E k) (f : A × A) :
    (n.update_file now f).contacts = n.contacts := by
  unfold update_file
  dsimp only
  split <;> rfl

theorem update_files_contacts (n : Node A E k) (files : List (A × A)) :
    (files.foldl (update_file now) n).contacts = n.contacts :=
  List.foldlRecOn (motive := fun m : Node A E k => m.contacts = n.contacts) _ _ rfl
    fun m h f _ => (update_file_contacts m f).trans h

variable [DecidableEq E]

theorem supplied_process_update_iff : (n.process_update now contacts files).Supplied ↔
    (contacts.foldl (Node.update_contact now) n).Supplied := by
  unfold process_update Supplied
  rw [update_files_contacts]

theorem Supplied.update_contacts (h : n.Supplied)
    (hall : Always (fun n c => ¬ n.Unlocated c) (Node.update_contact now) n contacts) :
    (contacts.foldl (Node.update_contact now) n).Supplied :=
  hall.invariant h (fun _ _ h hc => h.update_contact hc) List.prefix_rfl

theorem find_update_contact (hne : a ≠ c.1) :
    (n.update_contact now c).find table a = n.find table a := by
  obtain ⟨b, endpoints⟩ := c
  have hnot : ¬ (table = some (n.group_of b) ∧ a = b) := fun h => hne h.2
  unfold Node.update_contact
  dsimp only
  split
  · rfl
  · cases hfind : n.find (some (n.group_of b)) b with
    | none =>
      have hadd : ∀ d : Contact A E, d.address = b →
          (n.add (some (n.group_of b)) d).find table a = n.find table a := by
        rintro d rfl
        rw [find_add hfind, if_neg hnot]
      dsimp only
      split
      · exact hadd _ rfl
      · rfl
    | some d =>
      have hupdate : ∀ f : Contact A E → Contact A E, (∀ c, (f c).address = c.address) →
          (n.update (some (n.group_of b)) b f).find table a = n.find table a := by
        intro f hf
        rw [find_update hf, if_neg hnot]
      dsimp only
      split
      · exact hupdate _ fun _ => rfl
      · exact hupdate _ fun _ => rfl

theorem find_update_contacts (hne : a ∉ contacts.map Prod.fst) :
    (contacts.foldl (Node.update_contact now) n).find table a = n.find table a := by
  induction contacts generalizing n with
  | nil => rfl
  | cons c contacts ih =>
    rw [List.map_cons, List.mem_cons, not_or] at hne
    rw [List.foldl_cons, ih hne.2, find_update_contact hne.1]

theorem Unlocated.found (hc : n.Unlocated c) (now : Time) :
    ∃ d, (n.update_contact now c).find (some (n.group_of c.1)) c.1 = some d ∧ d.endpoints = [] := by
  obtain ⟨a, endpoints⟩ := c
  obtain ⟨hempty, hself, hfind, hroom⟩ := hc
  dsimp only at hempty hself hfind hroom ⊢
  subst hempty
  have hupdate : (n.update_contact now (a, [])).find (some (n.group_of a)) a =
      (n.add (some (n.group_of a)) { endpoints := [], address := a, discovered := true }).find
        (some (n.group_of a)) a := by
    unfold Node.update_contact
    simp only [if_neg hself, hfind, hroom, if_true, List.map_nil]
    rfl
  rw [hupdate, find_add hfind, if_pos ⟨rfl, rfl⟩]
  exact ⟨_, rfl, rfl⟩

omit [DecidableEq E] in
theorem not_supplied_of_find {d : Contact A E} (h : n.find table a = some d)
    (hd : d.endpoints = []) : ¬ n.Supplied :=
  fun hsupplied => hsupplied table d (find_mem h).1 hd

theorem not_supplied_update_contacts (hdistinct : (contacts.map Prod.fst).Nodup)
    (hnot : ¬ Always (fun n c => ¬ n.Unlocated c) (Node.update_contact now) n contacts) :
    ¬ (contacts.foldl (Node.update_contact now) n).Supplied := by
  induction contacts generalizing n with
  | nil => exact absurd trivial hnot
  | cons c contacts ih =>
    rw [List.map_cons, List.nodup_cons] at hdistinct
    by_cases hc : n.Unlocated c
    · obtain ⟨d, hd, hempty⟩ := hc.found now
      have hfind : (contacts.foldl (Node.update_contact now) (n.update_contact now c)).find
          (some (n.group_of c.1)) c.1 = some d := (find_update_contacts hdistinct.1).trans hd
      exact not_supplied_of_find hfind hempty
    · exact ih hdistinct.2 fun hrest => hnot ⟨hc, hrest⟩

omit [DecidableEq E] in
theorem Misplacing.unmet {p : Node A E k × Option (Fin k)} (hm : n.Misplacing a observer p)
    (hc : ¬ n.Contacted a) :
    p = (n, n.target observer a) ∧ n.find (n.target observer a) a = none := by
  cases hm with
  | here h => exact absurd ⟨_, h⟩ hc
  | there ho h hother => exact absurd ⟨_, hother⟩ hc
  | moved c ho h hother => exact absurd ⟨_, Option.isSome_iff_exists.mpr ⟨c, hother⟩⟩ hc
  | nowhere h hother => exact ⟨rfl, h⟩

theorem not_supplied_made (hc : ¬ n.Contacted a) :
    ¬ (n.get_or_make now a false [] true).1.Supplied := by
  obtain ⟨heq, hfind⟩ := (misplacing n a false).unmet hc
  have hmade : (n.get_or_make now a false [] true).1 =
      n.add (n.target false a) { endpoints := [], address := a, discovered := false } := by
    unfold Node.get_or_make
    simp only [heq, hfind, if_true, List.map_nil]
    rfl
  have hfound : (n.get_or_make now a false [] true).1.find (n.target false a) a =
      some { endpoints := [], address := a, discovered := false } := by
    rw [hmade, find_add hfind, if_pos ⟨rfl, rfl⟩]
  exact not_supplied_of_find hfound rfl

end Node

/-! ## Runs -/

/-- The formats of the state of a node, `kelips_fetch_state` and `kelips_fetch_state2`. -/
inductive Format where
  | first
  | second

/-- The contacts that `Node::get_serstate` gives, of those in an answer. The second format leaves
out those that have no endpoint. -/
def Format.get_serstate (format : Format) (answer : List (A × List E)) : Assoc A (List E) :=
  match format with
  | .first => Assoc.of answer
  | .second => Assoc.of (answer.filter fun c => c.2 ≠ [])

theorem second_has_endpoints {answer : List (A × List E)} :
    ∀ c ∈ (Format.second.get_serstate answer).entries, c.2 ≠ [] := by
  intro c hc
  have hmem := (Assoc.foldl_sublist Assoc.empty _).subset hc
  simpa [Assoc.empty] using (List.mem_filter.mp hmem).2

section

variable {order : Finset E → List E} {m : Assoc Address (List E)} {l : ContactMap E}
variable {c : Address × Finset E} {state : SerState2 E} {r : SerState E}

/-- A contact whose endpoints are listed in some order. -/
def in_order (order : Finset E → List E) (c : Address × Finset E) : Address × List E :=
  (c.1, order c.2)

theorem emplace_in_order (hm : m.entries = l.map (in_order order))
    (hl : ∀ d ∈ l, d.1.serialized = d.1) (hc : c.1.serialized = c.1) :
    (m.emplace (in_order order c)).entries = (insert_contact l c).map (in_order order) := by
  have hiff : (in_order order c).1 ∈ m.entries.map Prod.fst ↔
      (l.any fun d => d.1.value = c.1.value) = true := by
    rw [hm, List.map_map, List.any_eq_true, List.mem_map]
    simp only [Function.comp, in_order, decide_eq_true_eq]
    constructor
    · rintro ⟨d, hd, heq⟩
      exact ⟨d, hd, congrArg Address.value heq⟩
    · rintro ⟨d, hd, heq⟩
      refine ⟨d, hd, ?_⟩
      rw [← hl d hd, ← hc]
      unfold Address.serialized
      rw [heq]
  unfold Assoc.emplace insert_contact
  by_cases hmem : (in_order order c).1 ∈ m.entries.map Prod.fst
  · rw [dif_pos hmem, if_pos (hiff.mp hmem), hm]
  · rw [dif_neg hmem, if_neg fun h => hmem (hiff.mpr h), List.map_append, List.map_singleton]
    exact congrArg (· ++ [in_order order c]) hm

theorem foldl_emplace_in_order {l' : ContactMap E} (hm : m.entries = l.map (in_order order))
    (hl : ∀ d ∈ l, d.1.serialized = d.1) (hl' : ∀ d ∈ l', d.1.serialized = d.1) :
    ((l'.map (in_order order)).foldl Assoc.emplace m).entries =
      (l'.foldl insert_contact l).map (in_order order) := by
  induction l' generalizing m l with
  | nil => exact hm
  | cons c l' ih =>
    rw [List.forall_mem_cons] at hl'
    refine ih (emplace_in_order hm hl hl'.1) (fun d hd => ?_) hl'.2
    unfold insert_contact at hd
    split at hd
    · exact hl d hd
    · rcases List.mem_append.mp hd with hd | hd
      · exact hl d hd
      · rw [List.mem_singleton.mp hd]
        exact hl'.1

theorem second_refines [DecidableEq E] (horder : ∀ s, order s = [] ↔ s = ∅)
    (h : kelips.get_serstate state.serialized = some r) :
    (Format.second.get_serstate (state.serialized.1.map (in_order order))).entries =
      r.1.map (in_order order) := by
  have hserialized : ∀ d ∈ state.serialized.1, d.1.serialized = d.1 := by
    intro d hd
    obtain ⟨c, -, rfl⟩ := List.mem_map.mp hd
    rfl
  unfold kelips.get_serstate at h
  obtain ⟨files, -, h⟩ := Option.bind_eq_some_iff.mp h
  obtain ⟨self, -, h⟩ := Option.bind_eq_some_iff.mp h
  obtain rfl := Option.some.inj h
  have hfilter : (state.serialized.1.map (in_order order)).filter (fun c => c.2 ≠ []) =
      (state.serialized.1.filter fun c => c.2 ≠ ∅).map (in_order order) := by
    rw [List.filter_map]
    congr 1
    refine List.filter_congr fun c _ => ?_
    simp [in_order, horder]
  unfold Format.get_serstate Assoc.of
  rw [hfilter]
  exact foldl_emplace_in_order (l := []) rfl nofun
    fun d hd => hserialized d (List.mem_of_mem_filter hd)

theorem first_refines {s : SerState E} (h : (s.1.map Prod.fst).Nodup) :
    (Format.first.get_serstate (s.1.map (in_order order))).entries = s.1.map (in_order order) := by
  refine Assoc.foldl_emplace Assoc.empty ?_
  rw [Assoc.empty, List.nil_append, List.map_map]
  exact h

end

variable [DecidableEq E]

/-- What comes to a node: its events, and the states that it asks for. -/
inductive Input (A E K B : Type) where
  | bootstrap (format : Format) (answer : List (A × List E)) (files : List (A × A))
  | service (event : Service.Event A E K B)

namespace Service

variable {P K B : Type} [DecidableEq B] {lib : Library A E P K B} {s s' : Service A E P K B k}
variable {now : Time} {input : Input A E K B}

/-- The packets of the other nodes come in datagrams, and their states in a format. An emission
of gossip reads how old the contacts are. -/
def step? (lib : Library A E P K B) (s : Service A E P K B k) :
    Time × Input A E K B → Option (Service A E P K B k)
  | (now, .bootstrap format answer files) =>
    some { s with node := s.node.process_update now (format.get_serstate answer).entries files }
  | (now, .service event) =>
    match event with
    | .node (.gossipEmitter pick picked) =>
      (s.node.gossipEmitter? pick picked now).map fun n => { s with node := n }
    | .node (.seen ..) | .node (.gossip ..) | .node (.origin ..) | .node (.process_update ..) =>
      none
    | event => some (step lib s (now, event))

/-- Each contact that is added has an endpoint. -/
def Locates (s : Service A E P K B k) : Time × Input A E K B → Prop
  | (now, .bootstrap .first answer _) =>
    Always (fun n c => ¬ n.Unlocated c) (Node.update_contact now) s.node
      (Format.first.get_serstate answer).entries
  | (_, .service (.node (.send_bootstrap a endpoints))) => endpoints = [] → s.node.Contacted a
  | _ => True

theorem lasting_supplied : Lasting (Node.Supplied (A := A) (E := E) (k := k)) where
  seen h := h.onContactSeen
  gossip h := h.onGossip
  origin hes h := h.get_or_make fun heq => absurd heq hes
  noted _ _ _ hf h := h.update fun c hc => (hf c).2 ▸ hc
  promised _ h := h
  picked _ h := h

theorem supplied_act {act : Node.Act A E} (h : s.node.Supplied)
    (hlocates : s.Locates (now, .service (.node act)))
    (hs : step? lib s (now, .service (.node act)) = some s') : s'.node.Supplied := by
  cases act with
  | seen a endpoint observer => cases hs
  | gossip endpoint p => cases hs
  | origin a endpoints => cases hs
  | process_update contacts files => cases hs
  | gossipEmitter pick picked =>
    change (s.node.gossipEmitter? pick picked now).map _ = some s' at hs
    rw [h.gossipEmitter?_eq] at hs
    obtain rfl := Option.some.inj hs
    exact h.gossipEmitter pick picked
  | send_bootstrap a endpoints =>
    obtain rfl := Option.some.inj hs
    exact h.get_or_make hlocates
  | cleanup =>
    obtain rfl := Option.some.inj hs
    exact h.cleanup
  | lookup_result file home =>
    obtain rfl := Option.some.inj hs
    change (s.node.lookup_result now file home).Supplied
    unfold Node.lookup_result
    split <;> exact h
  | store a =>
    obtain rfl := Option.some.inj hs
    change (Node.store now a { s.node with stored := insert a s.node.stored }).Supplied
    unfold Node.store
    dsimp only
    split <;> split <;> exact h
  | store_silently a =>
    obtain rfl := Option.some.inj hs
    exact h
  | remove a =>
    obtain rfl := Option.some.inj hs
    change (if a ∈ s.node.stored then
      Node.remove a { s.node with stored := s.node.stored.erase a } else s.node).Supplied
    split <;> exact h

theorem supplied_step (h : s.node.Supplied) (hlocates : s.Locates (now, input))
    (hs : step? lib s (now, input) = some s') : s'.node.Supplied := by
  cases input with
  | bootstrap format answer files =>
    obtain rfl := Option.some.inj hs
    refine Node.supplied_process_update_iff.mpr (h.update_contacts ?_)
    cases format with
    | first => exact hlocates
    | second => exact always_of_mem fun n c hc hun => second_has_endpoints c hc hun.1
  | service event =>
    cases event with
    | node act => exact supplied_act h hlocates hs
    | _ =>
      obtain rfl := Option.some.inj hs
      exact lasting_supplied.step h fun _ hact => nomatch hact

theorem not_supplied_step (hnot : ¬ s.Locates (now, input))
    (hs : step? lib s (now, input) = some s') : ¬ s'.node.Supplied := by
  cases input with
  | bootstrap format answer files =>
    obtain rfl := Option.some.inj hs
    cases format with
    | first =>
      rw [Node.supplied_process_update_iff]
      exact Node.not_supplied_update_contacts (Format.first.get_serstate answer).distinct hnot
    | second => exact absurd trivial hnot
  | service event =>
    cases event with
    | node act =>
      cases act with
      | send_bootstrap a endpoints =>
        obtain rfl := Option.some.inj hs
        obtain ⟨rfl, hc⟩ := Classical.not_imp.mp hnot
        exact Node.not_supplied_made hc
      | _ => exact absurd trivial hnot
    | _ => exact absurd trivial hnot

/-- The age of a contact is there whenever it is read if and only if each contact that is added
has an endpoint. -/
theorem ages_are_read_iff {a : A} {observer accept_plain : Bool} {config : Configuration A k}
    {start : Time} {keys : List A} {localhost : E} {inputs : List (Time × Input A E K B)}
    (hrun : Run (step? lib) anyStep
      { started a observer config start keys localhost with accept_plain } inputs s) :
    (∀ done t, done <+: inputs → Run (step? lib) anyStep
      { started a observer config start keys localhost with accept_plain } done t →
      ∀ now, t.node.Readable now) ↔
    Run (step? lib) Locates
      { started a observer config start keys localhost with accept_plain } inputs s :=
  Run.always_iff hrun (I := fun s => s.node.Supplied) (fun _ _ hc => by cases hc)
    (fun _ h _ => Node.readable_iff.mpr h)
    (fun _ _ _ h hlocates hs => supplied_step h hlocates hs)
    fun _ _ _ _ _ hnot hs hread => not_supplied_step hnot hs (Node.readable_iff.mp (hread 0))

/-- A state in the second format, whose contact without an endpoint is left out, and a discovery
of a contact that is known. -/
theorem the_second_format_is_read :
    ∃ (inputs : List (Time × Input Nat Nat Unit Nat)) (s : Service Nat Nat Unit Unit Nat 1),
      Run (step? observing) anyStep (started 0 false Node.lonely 0 [] 9) inputs s ∧
      (s.node.contacts (some 0)).map (·.address) = [4] ∧ ∀ now, s.node.Readable now := by
  have hlocates : Run (step? observing) Locates
      (started 0 false Node.lonely 0 [] 9 : Service Nat Nat Unit Unit Nat 1)
      [(1, .bootstrap .second [(3, []), (4, [7])] []), (2, .service (.node (.send_bootstrap 4 []))),
        (3, .service (.node (.gossipEmitter List.take []))), (4, .service (.node .cleanup))] _ :=
    Run.cons trivial rfl (Run.cons (fun _ => ⟨false, rfl⟩) rfl
      (Run.cons trivial rfl (Run.cons trivial rfl Run.nil)))
  have hany := hlocates.mono fun _ _ (_ : Locates _ _) => (trivial : anyStep _ _)
  exact ⟨_, _, hany, rfl, (ages_are_read_iff hany).mpr hlocates _ _ List.prefix_rfl hany⟩

/-- A contact whose endpoints are not known, that comes in the first format or is discovered. -/
theorem a_contact_has_no_age :
    (∃ s : Service Nat Nat Unit Unit Nat 1,
      Run (step? observing) anyStep (started 0 false Node.lonely 0 [] 9)
        [(1, .bootstrap .first [(3, [])] [])] s ∧
      s.node.pickContacts? List.take 2 = none ∧ s.node.peer_list 2 = none ∧
      s.node.query_stats 2 = none) ∧
    ∃ s : Service Nat Nat Unit Unit Nat 1,
      Run (step? observing) anyStep (started 0 false Node.lonely 0 [] 9)
        [(1, .service (.node (.send_bootstrap 3 [])))] s ∧
      s.node.pickContacts? List.take 2 = none ∧ s.node.peer_list 2 = none ∧
      s.node.query_stats 2 = none := by
  constructor
  · exact ⟨_, Run.cons trivial rfl Run.nil, rfl, rfl, rfl⟩
  · exact ⟨_, Run.cons trivial rfl Run.nil, rfl, rfl, rfl⟩

end Service

end memo.overlay.kelips
