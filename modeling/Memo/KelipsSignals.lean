-- The discoveries and disappearances that a node tells of. For one address they are a small
-- automaton (`Life`), and each operation of the node takes the automata of all addresses some
-- steps further, unless it moves an observer to the storage nodes.
import Mathlib.Data.List.Chain
import Memo.Dictionaries
import Memo.KelipsFiles
import Memo.KelipsTables

open dictionaries runs
open Relation (ReflTransGen)

namespace memo.overlay.kelips

/-! ## The life of an address -/

/-- `true` for a discovery. The first one is a discovery, and each differs from the one before. -/
def Alternates (told : List Bool) : Prop := (false :: told).IsChain (· ≠ ·)

/-- What a node has of an address, in the table of its group and in that of the observers, with
the flag of the contact, and what it told of it as of a storage node. -/
structure Life where
  contact : Option Bool
  observer : Option Bool
  told : List Bool

inductive Life.Step : Life → Life → Prop
  | met (o : Option Bool) (l : List Bool) : Step ⟨none, o, l⟩ ⟨some false, o, l⟩
  | observed (c : Option Bool) (l : List Bool) : Step ⟨c, none, l⟩ ⟨c, some true, l⟩
  | discovered (c o : Option Bool) (l : List Bool) (h : c ≠ some true) :
      Step ⟨c, o, l⟩ ⟨some true, o, l ++ [true]⟩
  | forgotten (o : Option Bool) (l : List Bool) : Step ⟨some false, o, l⟩ ⟨none, o, l⟩
  | disappeared (o : Option Bool) (l : List Bool) :
      Step ⟨some true, o, l⟩ ⟨none, o, l ++ [false]⟩
  | unobserved (c o : Option Bool) (l : List Bool) : Step ⟨c, o, l⟩ ⟨c, none, l⟩

/-- The last notification was a discovery while the contact is discovered. -/
structure Life.Sound (x : Life) : Prop where
  alternates : Alternates x.told
  told : x.told.getLast? = some true ↔ x.contact = some true
  observer : x.observer ≠ some false

theorem Alternates.push {l : List Bool} {b : Bool} (h : Alternates l)
    (hb : l.getLast? = some true ↔ b = false) : Alternates (l ++ [b]) := by
  unfold Alternates at *
  rw [← List.cons_append, List.isChain_append]
  refine ⟨h, List.isChain_singleton b, fun x hx y hy => ?_⟩
  rw [List.head?_cons, Option.mem_some_iff] at hy
  subst hy
  rw [List.getLast?_cons, Option.mem_some_iff] at hx
  subst hx
  cases hl : l.getLast? with
  | none => cases b <;> simp_all
  | some x => cases b <;> cases x <;> simp_all

theorem Life.Sound.step {x y : Life} (h : x.Sound) (hstep : x.Step y) : y.Sound := by
  obtain ⟨halternates, htold, hobserver⟩ := h
  cases hstep with
  | met o l => exact ⟨halternates, by simpa using htold, hobserver⟩
  | observed c l => exact ⟨halternates, htold, by simp⟩
  | discovered c o l hc =>
    refine ⟨halternates.push ?_, by simp, hobserver⟩
    exact ⟨fun hl => absurd (htold.mp hl) hc, nofun⟩
  | forgotten o l => exact ⟨halternates, by simpa using htold, hobserver⟩
  | disappeared o l =>
    refine ⟨halternates.push ?_, by simp, hobserver⟩
    exact ⟨fun _ => rfl, fun _ => htold.mpr rfl⟩
  | unobserved c o l => exact ⟨halternates, htold, by simp⟩

theorem Life.Sound.steps {x y : Life} (h : x.Sound) (hsteps : ReflTransGen Life.Step x y) :
    y.Sound := by
  induction hsteps with
  | refl => exact h
  | tail _ hstep ih => exact ih.step hstep

namespace Node

variable {A E : Type} {k : Nat} [DecidableEq A] {n n' n'' : Node A E k}
variable {table : Option (Fin k)} {a b : A} {c : Contact A E} {now : Time}

/-- What a signal says of an address as of a storage node. -/
def Signal.told (a : A) : Signal A → Option Bool
  | .discovery b false => if b = a then some true else none
  | .disappearance b false => if b = a then some false else none
  | _ => none

def told (n : Node A E k) (a : A) : List Bool := n.signals.filterMap (Signal.told a)

def life (n : Node A E k) (a : A) : Life where
  contact := (n.find (some (n.group_of a)) a).map (·.discovered)
  observer := (n.find none a).map (·.discovered)
  told := n.told a

theorem told_emit (n : Node A E k) (signal : Signal A) (a : A) :
    (n.emit signal).told a = n.told a ++ (Signal.told a signal).toList := by
  unfold told emit
  rw [List.filterMap_append]
  cases h : Signal.told a signal <;> simp [h]

/-! ## Steps of the lives -/

/-- Each address is some steps further. -/
structure Lives (n n' : Node A E k) : Prop where
  mapped : n'.Mapped
  lives : ∀ a, ReflTransGen Life.Step (n.life a) (n'.life a)
  self : n'._self = n._self
  observer : n'._observer = n._observer
  config : n'._config = n._config

theorem Lives.refl (h : n.Mapped) : Lives n n := ⟨h, fun _ => .refl, rfl, rfl, rfl⟩

theorem Lives.trans (h : Lives n n') (h' : Lives n' n'') : Lives n n'' :=
  ⟨h'.mapped, fun a => (h.lives a).trans (h'.lives a), h'.self.trans h.self,
    h'.observer.trans h.observer, h'.config.trans h.config⟩

theorem Lives.foldl {X : Type} {f : Node A E k → X → Node A E k}
    (hf : ∀ n x, n.Mapped → Lives n (f n x)) (l : List X) (h : n.Mapped) :
    Lives n (l.foldl f n) := by
  induction l generalizing n with
  | nil => exact Lives.refl h
  | cons x l ih => exact (hf n x h).trans (ih (hf n x h).mapped)

theorem life_same (hcontacts : n'.contacts = n.contacts) (hsignals : n'.signals = n.signals)
    (hconfig : n'._config = n._config) (a : A) : n'.life a = n.life a := by
  unfold life find told group_of
  rw [hcontacts, hsignals, hconfig]

theorem Lives.same (h : n.Mapped) (hcontacts : n'.contacts = n.contacts)
    (hsignals : n'.signals = n.signals) (hself : n'._self = n._self)
    (hobserver : n'._observer = n._observer) (hconfig : n'._config = n._config) :
    Lives n n' := by
  refine ⟨⟨fun table => ?_, fun g c hc => ?_⟩, fun a => ?_, hself, hobserver, hconfig⟩
  · rw [hcontacts]
    exact h.once table
  · rw [hcontacts] at hc
    unfold group_of
    rw [hconfig]
    exact h.grouped g c hc
  · exact life_same hcontacts hsignals hconfig a ▸ .refl

variable {f : Contact A E → Contact A E} {endpoint : E} {observer : Bool}

theorem life_update (hf : ∀ c, (f c).address = c.address)
    (hd : ∀ c, n.find table a = some c → (f c).discovered = c.discovered) :
    (n.update table a f).life b = n.life b := by
  have hfind : ∀ other,
      ((n.update table a f).find other b).map (·.discovered) =
        (n.find other b).map (·.discovered) := by
    intro other
    rw [find_update hf]
    split
    · rename_i heq
      rw [heq.1, heq.2]
      cases hc : n.find table a with
      | none => rfl
      | some c => exact congrArg some (hd c hc)
    · rfl
  exact congrArg₂ (fun c o => Life.mk c o _) (hfind _) (hfind _)

theorem Lives.update (h : n.Mapped) (hf : ∀ c, (f c).address = c.address)
    (hd : ∀ c, n.find table a = some c → (f c).discovered = c.discovered) :
    Lives n (n.update table a f) :=
  ⟨h.update hf, fun _ => life_update hf hd ▸ .refl, rfl, rfl, rfl⟩

theorem Lives.notify_observers (h : n.Mapped) (contacts : List (A × List (TimedEndpoint E))) :
    Lives n (n.notify_observers contacts) := Lives.same h rfl rfl rfl rfl rfl

theorem life_add (hnone : n.find table c.address = none)
    (htable : table = none ∨ table = some (n.group_of c.address)) :
    (n.add table c).life b =
      if b = c.address then
        if table = none then { n.life b with observer := some c.discovered }
        else { n.life b with contact := some c.discovered }
      else n.life b := by
  have hgroup : (n.add table c).group_of b = n.group_of b := rfl
  have htold : (n.add table c).told b = n.told b := rfl
  unfold life
  rw [hgroup, htold, find_add hnone, find_add hnone]
  by_cases hb : b = c.address
  · subst hb
    rcases htable with rfl | rfl
    · simp
    · simp
  · simp [hb]

theorem life_emit (n : Node A E k) (signal : Signal A) :
    (n.emit signal).life b =
      { n.life b with told := n.told b ++ (Signal.told b signal).toList } := by
  unfold life
  rw [told_emit]
  rfl

omit [DecidableEq A] in
theorem Mapped.emit (h : n.Mapped) (signal : Signal A) : (n.emit signal).Mapped :=
  ⟨h.once, h.grouped⟩

theorem Lives.met (h : n.Mapped) (hnone : n.find (some (n.group_of c.address)) c.address = none)
    (hd : c.discovered = false) : Lives n (n.add (some (n.group_of c.address)) c) := by
  refine ⟨h.add hnone fun g hg => Option.some.inj hg, fun b => ?_, rfl, rfl, rfl⟩
  rw [life_add hnone (Or.inr rfl)]
  split
  · rename_i hb
    subst hb
    have hcontact : (n.life c.address).contact = none := by
      unfold life
      rw [hnone]
      rfl
    rw [if_neg (Option.some_ne_none _), hd]
    generalize n.life c.address = x at hcontact
    obtain ⟨contact, o, l⟩ := x
    subst hcontact
    exact .single (.met o l)
  · exact .refl

theorem Lives.observed (h : n.Mapped) (hnone : n.find none c.address = none)
    (hd : c.discovered = true) :
    Lives n ((n.add none c).emit (.discovery c.address true)) := by
  refine ⟨(h.add hnone nofun).emit _, fun b => ?_, rfl, rfl, rfl⟩
  have hemit :
      ((n.add none c).emit (.discovery c.address true)).life b = (n.add none c).life b := by
    rw [life_emit]
    exact congrArg (Life.mk _ _) (List.append_nil _)
  rw [hemit, life_add hnone (Or.inl rfl)]
  split
  · rename_i hb
    subst hb
    have hobserver : (n.life c.address).observer = none := by
      unfold life
      rw [hnone]
      rfl
    rw [if_pos rfl, hd]
    generalize n.life c.address = x at hobserver
    obtain ⟨contact, o, l⟩ := x
    subst hobserver
    exact .single (.observed contact l)
  · exact .refl

/-- How the lives change when a storage node is discovered. -/
def Discovers (a : A) (n n' : Node A E k) : Prop :=
  ∀ b, n'.life b =
    if b = a then ⟨some true, (n.life b).observer, n.told b ++ [true]⟩ else n.life b

theorem Discovers.emit {m : Node A E k}
    (h : ∀ b, m.life b = if b = a then { n.life b with contact := some true } else n.life b) :
    Discovers a n (m.emit (.discovery a false)) := by
  intro b
  have htold : m.told b = n.told b := by
    have hb := congrArg Life.told (h b)
    split at hb
    · exact hb
    · exact hb
  rw [life_emit, h b, htold]
  split
  · rename_i hb
    subst hb
    simp [Signal.told]
  · rename_i hb
    have hnone : Signal.told b (.discovery a false) = none := if_neg (Ne.symm hb)
    rw [hnone, Option.toList_none, List.append_nil]
    rfl

theorem Lives.discovers (h : Discovers a n n') (hc : (n.life a).contact ≠ some true)
    (hmapped : n'.Mapped) (hself : n'._self = n._self) (hobserver : n'._observer = n._observer)
    (hconfig : n'._config = n._config) : Lives n n' := by
  refine ⟨hmapped, fun b => ?_, hself, hobserver, hconfig⟩
  rw [h b]
  split
  · rename_i hb
    subst hb
    exact .single (.discovered _ _ _ hc)
  · exact .refl

theorem discovers_add (h : n.Mapped) (hnone : n.find (some (n.group_of a)) a = none)
    (endpoints : List (TimedEndpoint E)) :
    let m := (n.add (some (n.group_of a)) { endpoints, address := a, discovered := true }).emit
      (.discovery a false)
    Discovers a n m ∧ Lives n m := by
  intro m
  have hdiscovers : Discovers a n m := by
    apply Discovers.emit
    intro b
    have hadd := life_add (c := { endpoints, address := a, discovered := true }) (b := b) hnone
      (Or.inr rfl)
    rw [if_neg (Option.some_ne_none _)] at hadd
    exact hadd
  have hcontact : (n.life a).contact ≠ some true := by
    unfold life
    rw [hnone]
    exact nofun
  have hmapped :
      (n.add (some (n.group_of a)) { endpoints, address := a, discovered := true }).Mapped :=
    h.add hnone fun g hg => Option.some.inj hg
  exact ⟨hdiscovers, Lives.discovers hdiscovers hcontact (hmapped.emit _) rfl rfl rfl⟩

theorem lives_flag (h : n.Mapped) (hc : n.find (some (n.group_of a)) a = some c)
    (hd : c.discovered = false) (hf : ∀ c, (f c).address = c.address)
    (hset : ∀ c, (f c).discovered = true) :
    Lives n ((n.update (some (n.group_of a)) a f).emit (.discovery a false)) := by
  have hcontact : (n.life a).contact ≠ some true := by
    unfold life
    rw [hc, Option.map_some, hd]
    exact fun heq => absurd (Option.some.inj heq) (by decide)
  refine Lives.discovers (Discovers.emit fun b => ?_) hcontact ((h.update hf).emit _) rfl rfl rfl
  have hgroup : (n.update (some (n.group_of a)) a f).group_of b = n.group_of b := rfl
  have htold : (n.update (some (n.group_of a)) a f).told b = n.told b := rfl
  have hobserver : (n.update (some (n.group_of a)) a f).find none b = n.find none b := by
    rw [find_update hf, if_neg fun h => Option.some_ne_none _ h.1.symm]
  unfold life
  rw [hgroup, htold, hobserver, find_update hf]
  by_cases hb : b = a
  · subst hb
    rw [if_pos ⟨rfl, rfl⟩, if_pos rfl, hc, Option.map_some, Option.map_some, hset]
  · rw [if_neg fun h => hb h.2, if_neg hb]

/-! ## Contacts that are made -/

/-- An observer, that a packet of a storage node moves to the storage nodes. -/
def Misplaced (n : Node A E k) (a : A) : Prop :=
  n.find (some (n.group_of a)) a = none ∧ (n.find none a).isSome

theorem misplaced_stays (h : observer = false → ¬n.Misplaced a) :
    ∃ table, n.misplaced a observer = (n, table) ∧
      (n.find table a = none → table = n.target observer a) := by
  unfold misplaced
  dsimp only
  cases hfind : n.find (n.target observer a) a with
  | some c => exact ⟨_, rfl, fun _ => rfl⟩
  | none =>
    dsimp only
    cases hother : n.find (n.target (!observer) a) a with
    | none => exact ⟨_, rfl, fun _ => rfl⟩
    | some c =>
      cases observer with
      | true =>
        exact ⟨_, rfl, fun hnone => absurd (hother.symm.trans hnone) (Option.some_ne_none c)⟩
      | false => exact absurd ⟨hfind, Option.isSome_iff_exists.mpr ⟨c, hother⟩⟩ (h rfl)

theorem Lives.get_or_make [DecidableEq E] {make : Bool} {endpoints : List E} (h : n.Mapped)
    (hplaced : observer = false → ¬n.Misplaced a) :
    Lives n (n.get_or_make now a observer endpoints make).1 := by
  obtain ⟨table, hmisplaced, htarget⟩ := misplaced_stays hplaced
  unfold Node.get_or_make
  rw [hmisplaced]
  dsimp only
  split
  · split
    · rename_i hnone
      cases htarget hnone
      cases observer with
      | true => exact Lives.observed (c := ⟨_, _, _, _, _, _, _, _, _⟩) h hnone rfl
      | false => exact Lives.met (c := ⟨_, _, _, _, _, _, _, _, _⟩) h hnone rfl
    · rename_i c hfind
      split
      · have hupdate := Lives.update (f := fun d => { d with
            endpoints := endpoints_seen now c.endpoints endpoints, validated_endpoint := none })
          h (fun _ => rfl) fun d (_ : n.find table a = some d) => rfl
        exact hupdate.trans (Lives.notify_observers hupdate.mapped _)
      · exact Lives.update h (fun _ => rfl) fun _ _ => rfl
  · exact Lives.refl h

theorem Lives.onContactSeen [DecidableEq E] (h : n.Mapped)
    (hplaced : observer = false → a ≠ n._self → ¬n.Misplaced a) :
    Lives n (n.onContactSeen now a endpoint observer) := by
  unfold Node.onContactSeen
  split
  · exact Lives.refl h
  · rename_i hself
    have hmade : Lives n
        (n.get_or_make now a observer [endpoint] (observer || n.room (n.group_of a))).1 :=
      Lives.get_or_make h fun hobserver => hplaced hobserver hself
    split
    · rename_i heq
      rw [heq] at hmade
      exact hmade.trans (Lives.update hmade.mapped (fun _ => rfl) fun _ _ => rfl)
    · rename_i heq
      rw [heq] at hmade
      exact hmade

/-! ## Gossip -/

theorem Lives.gossip_sender [DecidableEq E] (h : n.Mapped) (hplaced : ¬n.Misplaced a) :
    Lives n (n.gossip_sender now a endpoint) := by
  have hmade : Lives n (if (n.find (some (n.group_of a)) a).isSome then n
      else (n.get_or_make now a false [endpoint] true).1) := by
    split
    · exact Lives.refl h
    · exact Lives.get_or_make h fun _ => hplaced
  unfold Node.gossip_sender
  dsimp only
  generalize (if (n.find (some (n.group_of a)) a).isSome then n
      else (n.get_or_make now a false [endpoint] true).1) = m at hmade ⊢
  have hgroup : n.group_of a = m.group_of a := by
    unfold group_of
    rw [hmade.config]
  split
  · rename_i c hfind
    split
    · exact hmade
    · rename_i hd
      rw [Bool.not_eq_true] at hd
      rw [hgroup] at hfind ⊢
      exact hmade.trans (lives_flag (f := fun c => { c with discovered := true }) hmade.mapped
        hfind hd (fun _ => rfl) fun _ => rfl)
  · exact hmade

theorem gossip_contact_lives [DecidableEq E] (h : n.Mapped) (contact : A × List (TimedEndpoint E)) :
    Lives n (n.gossip_contact now contact) ∧
      ∀ b, (n.life b).contact = some true →
        (n.gossip_contact now contact).life b = n.life b := by
  obtain ⟨a, endpoints⟩ := contact
  unfold gossip_contact
  dsimp only
  split_ifs with hself hempty hknown hroom
  · exact ⟨Lives.refl h, fun _ _ => rfl⟩
  · exact ⟨Lives.refl h, fun _ _ => rfl⟩
  · exact ⟨Lives.update h (fun _ => rfl) fun _ _ => rfl,
      fun b _ => life_update (fun _ => rfl) fun _ _ => rfl⟩
  · have hnone : n.find (some (n.group_of a)) a = none := by simpa using hknown
    obtain ⟨hdiscovers, hlives⟩ := discovers_add h hnone
      (endpoints_cleanup endpoints (now - n._config.contact_timeout))
    refine ⟨hlives, fun b hb => (hdiscovers b).trans (if_neg ?_)⟩
    rintro rfl
    have hcontact : (n.life b).contact = none := by
      unfold life
      rw [hnone]
      rfl
    exact absurd (hcontact.symm.trans hb) (Option.some_ne_none true).symm
  · exact ⟨Lives.refl h, fun _ _ => rfl⟩

theorem gossip_contacts_lives [DecidableEq E] (h : n.Mapped)
    (contacts : List (A × List (TimedEndpoint E))) :
    Lives n (contacts.foldl (gossip_contact now) n) ∧
      ∀ b, (n.life b).contact = some true →
        (contacts.foldl (gossip_contact now) n).life b = n.life b := by
  induction contacts generalizing n with
  | nil => exact ⟨Lives.refl h, fun _ _ => rfl⟩
  | cons contact contacts ih =>
    obtain ⟨hlives, hkept⟩ : Lives n (n.gossip_contact now contact) ∧ _ :=
      gossip_contact_lives h contact
    obtain ⟨hrest, hkept'⟩ := ih hlives.mapped
    refine ⟨hlives.trans hrest, fun b hb => ?_⟩
    have hone := hkept b hb
    exact (hkept' b (by rw [hone]; exact hb)).trans hone

theorem gossip_files_lives (h : n.Mapped) (files : List (A × Time × A)) :
    Lives n (files.foldl gossip_file n) ∧
      ∀ b, (files.foldl gossip_file n).life b = n.life b := by
  induction files generalizing n with
  | nil => exact ⟨Lives.refl h, fun _ => rfl⟩
  | cons f files ih =>
    have hone : Lives n (n.gossip_file f) ∧ ∀ b, (n.gossip_file f).life b = n.life b := by
      unfold gossip_file
      dsimp only
      split
      · exact ⟨Lives.same h rfl rfl rfl rfl rfl, fun _ => rfl⟩
      · exact ⟨Lives.same h rfl rfl rfl rfl rfl, fun _ => rfl⟩
    obtain ⟨hrest, hkept⟩ := ih hone.1.mapped
    exact ⟨hone.1.trans hrest, fun b => (hkept b).trans (hone.2 b)⟩

theorem Lives.onGossip [DecidableEq E] {p : Gossip A E} (h : n.Mapped)
    (hplaced : n._observer = true → ¬n.Misplaced p.sender) :
    Lives n (n.onGossip now endpoint p) := by
  have hsender : Lives n
      (if n._observer then n.gossip_sender now p.sender endpoint else n) := by
    split
    · rename_i hobserver
      exact Lives.gossip_sender h (hplaced hobserver)
    · exact Lives.refl h
  unfold Node.onGossip
  dsimp only
  generalize (if n._observer then n.gossip_sender now p.sender endpoint else n) = m at hsender ⊢
  have hcontacts : Lives n (p.contacts.foldl (gossip_contact now) m) :=
    hsender.trans (gossip_contacts_lives hsender.mapped p.contacts).1
  split
  · exact hcontacts.trans (gossip_files_lives hcontacts.mapped p.files).1
  · exact hcontacts

/-! ## The state of another node -/

theorem Lives.update_contact [DecidableEq E] {contact : A × List E} (h : n.Mapped) :
    Lives n (n.update_contact now contact) := by
  obtain ⟨a, endpoints⟩ := contact
  unfold Node.update_contact
  dsimp only
  split
  · exact Lives.refl h
  · split
    · rename_i hnone
      split
      · have hadd := (discovers_add h hnone (endpoints.map fun e => (e, now))).2
        exact hadd.trans (Lives.notify_observers hadd.mapped _)
      · exact Lives.refl h
    · rename_i c hfind
      split
      · rename_i hd
        refine Lives.update h (fun _ => rfl) fun d hfound => ?_
        rw [hfind, Option.some.injEq] at hfound
        rw [← hfound, hd]
      · rename_i hd
        rw [Bool.not_eq_true] at hd
        have hflag := lives_flag (f := fun d => { d with
            endpoints := endpoints_seen now c.endpoints endpoints, discovered := true })
          h hfind hd (fun _ => rfl) fun _ => rfl
        exact hflag.trans (Lives.notify_observers hflag.mapped _)

theorem Lives.process_update [DecidableEq E] {contacts : List (A × List E)} {files : List (A × A)}
    (h : n.Mapped) : Lives n (n.process_update now contacts files) := by
  have hcontacts : Lives n (contacts.foldl (Node.update_contact now) n) :=
    Lives.foldl (fun _ _ => Lives.update_contact) contacts h
  refine hcontacts.trans (Lives.foldl (fun m f hm => ?_) files hcontacts.mapped)
  unfold update_file
  dsimp only
  split
  · exact Lives.same hm rfl rfl rfl rfl rfl
  · exact Lives.refl hm

/-! ## Cleanup -/

omit [DecidableEq A] in
theorem emit_gone (gone : List (Contact A E)) (n : Node A E k) :
    gone.foldl (fun n c => n.emit (.disappearance c.address false)) n =
      { n with signals := n.signals ++ gone.map fun c => .disappearance c.address false } := by
  induction gone generalizing n with
  | nil =>
    rw [List.map_nil, List.append_nil]
    rfl
  | cons c gone ih =>
    rw [List.foldl_cons, ih, List.map_cons, List.append_cons]
    rfl

theorem told_gone (gone : List (Contact A E)) (h : (gone.map (·.address)).Nodup) (a : A) :
    (gone.map fun c => Signal.disappearance c.address false).filterMap (Signal.told a) =
      ((gone.find? fun c => c.address = a).map fun _ => false).toList := by
  induction gone with
  | nil => rfl
  | cons c gone ih =>
    rw [List.map_cons, List.nodup_cons] at h
    rw [List.map_cons, List.filterMap_cons, ih h.2]
    by_cases hc : c.address = a
    · have hnone : gone.find? (fun c => c.address = a) = none := by
        rw [List.find?_eq_none]
        intro d hd
        simp only [decide_eq_true_eq]
        rintro rfl
        exact h.1 (hc ▸ List.mem_map_of_mem (f := Contact.address) hd)
      rw [hnone, List.find?_cons_of_pos (by simpa using hc)]
      simp [Signal.told, hc]
    · rw [List.find?_cons_of_neg (by simpa using hc)]
      simp [Signal.told, hc]

/-- A contact without its old endpoints. -/
def cleaned (deadline : Time) (c : Contact A E) : Contact A E :=
  { c with endpoints := endpoints_cleanup c.endpoints deadline }

theorem find_cleaned (h : n.Mapped) (deadline : Time) (p : Contact A E → Bool) (a : A) :
    (((n.contacts table).map (cleaned deadline)).filter p).find? (fun c => c.address = a) =
      ((n.find table a).map (cleaned deadline)).filter p := by
  have hkeys : ((n.contacts table).map (cleaned deadline)).map (·.address) =
      (n.contacts table).map (·.address) := by
    rw [List.map_map]
    rfl
  have hfind := find?_filter_of_nodup (fun c : Contact A E => c.address)
    (hkeys ▸ h.once table : (((n.contacts table).map (cleaned deadline)).map (·.address)).Nodup) p a
  refine hfind.trans ?_
  rw [List.find?_map]
  rfl

omit [DecidableEq A] in
theorem Mapped.kept (h : n.Mapped) (deadline : Time) (table : Option (Fin k))
    (p : Contact A E → Bool) :
    (n.set table (((n.contacts table).map (cleaned deadline)).filter p)).Mapped := by
  apply h.sublist
  have hsub : ((((n.contacts table).map (cleaned deadline)).filter p).map (·.address)).Sublist
      (((n.contacts table).map (cleaned deadline)).map (·.address)) := List.filter_sublist.map _
  rw [List.map_map] at hsub
  exact hsub

theorem Lives.cleanup_observers (deadline : Time) (h : n.Mapped) :
    Lives n (n.cleanup_table deadline none) := by
  let p := fun c : Contact A E => decide (c.endpoints ≠ [])
  have hset : n.cleanup_table deadline none =
      n.set none (((n.contacts none).map (cleaned deadline)).filter p) := by
    unfold cleanup_table cleanup_contacts
    rw [List.partition_eq_filter_filter]
    rfl
  rw [hset]
  refine ⟨h.kept deadline none p, fun a => ?_, rfl, rfl, rfl⟩
  have hlife : (n.set none (((n.contacts none).map (cleaned deadline)).filter p)).life a =
      { n.life a with
        observer := (((n.find none a).map (cleaned deadline)).filter p).map (·.discovered) } := by
    rw [← find_cleaned h]
    unfold life find
    rw [contacts_set_self, contacts_set_ne _ _ (Option.some_ne_none _)]
    rfl
  rw [hlife]
  cases hfind : n.find none a with
  | none =>
    have hnone : (n.life a).observer = none := by
      unfold life
      rw [hfind]
      rfl
    rw [Option.map_none, Option.filter_none, Option.map_none, ← hnone]
  | some c =>
    have hsome : (n.life a).observer = some c.discovered := by
      unfold life
      rw [hfind]
      rfl
    rw [Option.map_some, Option.filter_some]
    split
    · have hd : (cleaned deadline c).discovered = c.discovered := rfl
      rw [Option.map_some, hd, ← hsome]
    · exact .single (.unobserved _ _ _)

omit [DecidableEq A] in
theorem cleanup_group_eq (deadline : Time) (n : Node A E k) (g : Fin k) :
    n.cleanup_table deadline (some g) =
      { n.set (some g) (((n.contacts (some g)).map (cleaned deadline)).filter
            fun c => c.endpoints ≠ []) with
        signals := n.signals ++ (((n.contacts (some g)).map (cleaned deadline)).filter
            fun c => c.discovered && c.endpoints = []).map
          fun c => .disappearance c.address false } := by
  have hgone : (fun c : Contact A E => c.discovered && (not ∘ fun c => c.endpoints ≠ []) c) =
      fun c => c.discovered && c.endpoints = [] := by
    funext c
    simp
  unfold cleanup_table cleanup_contacts
  rw [List.partition_eq_filter_filter]
  dsimp only
  rw [emit_gone, List.filter_filter, hgone]
  rfl

theorem life_cleanup_group (deadline : Time) (h : n.Mapped) (g : Fin k) (a : A) :
    let found := (n.find (some g) a).map (cleaned deadline)
    (n.cleanup_table deadline (some g)).life a =
      ⟨if n.group_of a = g then (found.filter fun c => c.endpoints ≠ []).map (·.discovered)
        else (n.life a).contact,
        (n.life a).observer,
        n.told a ++ ((found.filter fun c => c.discovered && c.endpoints = []).map
          fun _ => false).toList⟩ := by
  intro found
  have honce : ((((n.contacts (some g)).map (cleaned deadline)).filter
      fun c => c.discovered && c.endpoints = []).map (·.address)).Nodup := by
    have hkept := (h.kept deadline (some g) fun c => c.discovered && c.endpoints = []).once (some g)
    rw [contacts_set_self] at hkept
    exact hkept
  have htold : (n.cleanup_table deadline (some g)).told a =
      n.told a ++
        ((found.filter fun c => c.discovered && c.endpoints = []).map fun _ => false).toList := by
    rw [cleanup_group_eq]
    unfold told
    rw [List.filterMap_append, told_gone _ honce, find_cleaned h]
  have hother : ∀ other, other ≠ some g →
      (n.cleanup_table deadline (some g)).find other a = n.find other a := by
    intro other hne
    rw [cleanup_group_eq]
    unfold find
    dsimp only
    rw [contacts_set_ne n _ hne]
  have hself : (n.cleanup_table deadline (some g)).find (some g) a =
      found.filter fun c => c.endpoints ≠ [] := by
    unfold found
    rw [cleanup_group_eq, ← find_cleaned h]
    unfold find
    dsimp only
    rw [contacts_set_self]
  have hgroup : (n.cleanup_table deadline (some g)).group_of a = n.group_of a := by
    rw [cleanup_group_eq]
    rfl
  unfold life
  rw [htold, hgroup, hother none (Option.some_ne_none g).symm]
  split
  · rename_i hg
    rw [hg, hself]
  · rename_i hg
    rw [hother _ fun heq => hg (Option.some.inj heq)]

theorem Lives.cleanup_group (deadline : Time) (h : n.Mapped) (g : Fin k) :
    Lives n (n.cleanup_table deadline (some g)) := by
  have hmapped : (n.cleanup_table deadline (some g)).Mapped := by
    rw [cleanup_group_eq]
    have hkept := h.kept deadline (some g) fun c => c.endpoints ≠ []
    exact ⟨hkept.once, hkept.grouped⟩
  refine ⟨hmapped, fun a => ?_, ?_, ?_, ?_⟩
  · rw [life_cleanup_group deadline h g a]
    split
    · rename_i hg
      subst hg
      have hcontact : (n.life a).contact =
          (n.find (some (n.group_of a)) a).map (·.discovered) := rfl
      generalize hx : n.life a = x at hcontact
      obtain ⟨contact, o, l⟩ := x
      have hl : n.told a = l := congrArg Life.told hx
      dsimp only at hcontact
      rw [hl, hcontact]
      cases hfind : n.find (some (n.group_of a)) a with
      | none => simpa using ReflTransGen.refl
      | some c =>
        by_cases he : (cleaned deadline c).endpoints = []
        · cases hd : c.discovered with
          | true =>
            have hd' : (cleaned deadline c).discovered = true := hd
            simpa [Option.filter_some, he, hd, hd'] using
              ReflTransGen.single (Life.Step.disappeared o l)
          | false =>
            have hd' : (cleaned deadline c).discovered = false := hd
            simpa [Option.filter_some, he, hd, hd'] using
              ReflTransGen.single (Life.Step.forgotten o l)
        · have hd' : (cleaned deadline c).discovered = c.discovered := rfl
          simpa [Option.filter_some, he, hd'] using ReflTransGen.refl
    · rename_i hg
      have hnone : n.find (some g) a = none := by
        rw [find_none_iff]
        rintro c hc rfl
        exact hg (h.grouped g c hc)
      rw [hnone, Option.map_none, Option.filter_none, Option.map_none, Option.toList_none,
        List.append_nil]
      exact .refl
  all_goals
    rw [cleanup_group_eq]
    rfl

theorem Lives.cleanup (h : n.Mapped) : Lives n (n.cleanup now) := by
  unfold Node.cleanup
  dsimp only
  have hfiles : ∀ files, Lives n { n with files } :=
    fun _ => Lives.same h rfl rfl rfl rfl rfl
  refine (hfiles _).trans (Lives.foldl (fun m table hm => ?_) _ (hfiles _).mapped)
  cases table with
  | none => exact Lives.cleanup_observers _ hm
  | some g => exact Lives.cleanup_group _ hm g

theorem Lives.gossipEmitter {pick : Nat → List A → List A} {picked : List (A × A)}
    (h : n.Mapped) : Lives n (n.gossipEmitter pick picked now) := by
  have hcontacts : Lives n (n.pickContacts pick now).2 := by
    apply pickContacts_induction (I := fun s => Lives n s.2) pick now n (Lives.refl h)
    intro s a hs
    unfold insertContact
    dsimp only
    split
    · exact hs.trans (Lives.update hs.mapped (fun _ => rfl) fun _ _ => rfl)
    · exact hs
  unfold Node.gossipEmitter
  generalize n.pickContacts pick now = s at hcontacts ⊢
  exact hcontacts.trans (Lives.same hcontacts.mapped rfl rfl rfl rfl rfl)

/-! ## An observer that is moved -/

/-- The contact is discovered, and the last signal is not its discovery. -/
structure Untold (a : A) (n : Node A E k) : Prop where
  mapped : n.Mapped
  contact : (n.life a).contact = some true
  told : (n.told a).getLast? ≠ some true

theorem Untold.same (h : n.Untold a) (hmapped : n'.Mapped) (hlife : n'.life a = n.life a) :
    n'.Untold a := by
  refine ⟨hmapped, by rw [hlife]; exact h.contact, ?_⟩
  have htold : n'.told a = n.told a := congrArg Life.told hlife
  rw [htold]
  exact h.told

theorem Untold.update (h : n.Untold a) (table : Option (Fin k)) (b : A)
    (hf : ∀ c, (f c).address = c.address) (hd : ∀ c, (f c).discovered = c.discovered) :
    (n.update table b f).Untold a :=
  h.same (h.mapped.update hf) (life_update hf fun c _ => hd c)

theorem Misplaced.get_or_make [DecidableEq E] {endpoints : List E} {make : Bool}
    (hm : n.Misplaced a) (h : n.Mapped) (hsound : (n.life a).Sound) :
    (n.get_or_make now a false endpoints make).1.Untold a := by
  obtain ⟨hnone, hsome⟩ := hm
  obtain ⟨c, hc⟩ := Option.isSome_iff_exists.mp hsome
  have hca : c.address = a := (find_mem hc).2
  have hd : c.discovered = true := by
    have hobserver := hsound.observer
    unfold life at hobserver
    rw [hc] at hobserver
    simpa using hobserver
  have hmisplaced : n.misplaced a false =
      ((n.add (some (n.group_of a)) c).erase none a, some (n.group_of a)) := by
    have htarget : n.target false a = some (n.group_of a) := rfl
    have hother : n.target (!false) a = none := rfl
    unfold misplaced
    dsimp only
    rw [htarget, hother, hnone, hc]
    rfl
  have hadd : (n.add (some (n.group_of a)) c).find (some (n.group_of a)) a = some c := by
    rw [find_add (by rw [hca]; exact hnone), if_pos ⟨rfl, hca.symm⟩]
  have hfind : ((n.add (some (n.group_of a)) c).erase none a).find (some (n.group_of a)) a =
      some c := by
    rw [find_erase, if_neg fun h => Option.some_ne_none _ h.1]
    exact hadd
  have huntold : ((n.add (some (n.group_of a)) c).erase none a).Untold a := by
    refine ⟨(h.add (by rw [hca]; exact hnone) fun g hg => ?_).erase, ?_, ?_⟩
    · rw [hca]
      exact Option.some.inj hg
    · have hgroup : ((n.add (some (n.group_of a)) c).erase none a).group_of a = n.group_of a := rfl
      unfold life
      rw [hgroup, hfind, Option.map_some, hd]
    · have hcontact : (n.life a).contact ≠ some true := by
        unfold life
        rw [hnone]
        exact nofun
      exact fun htold => hcontact (hsound.told.mp htold)
  unfold Node.get_or_make
  rw [hmisplaced]
  dsimp only
  split
  · rw [hfind]
    dsimp only
    split
    · have hupdate := huntold.update (some (n.group_of a)) a
        (f := fun d => { d with
          endpoints := endpoints_seen now c.endpoints endpoints, validated_endpoint := none })
        (fun _ => rfl) fun _ => rfl
      exact hupdate.same ⟨hupdate.mapped.once, hupdate.mapped.grouped⟩ rfl
    · exact huntold.update _ _ (fun _ => rfl) fun _ => rfl
  · exact huntold

theorem Misplaced.onContactSeen [DecidableEq E] (hm : n.Misplaced a) (hself : a ≠ n._self)
    (h : n.Mapped) (hsound : (n.life a).Sound) :
    (n.onContactSeen now a endpoint false).Untold a := by
  have hmade : (n.get_or_make now a false [endpoint] (false || n.room (n.group_of a))).1.Untold a :=
    hm.get_or_make h hsound
  unfold Node.onContactSeen
  rw [if_neg hself]
  split
  · rename_i heq
    rw [heq] at hmade
    exact hmade.update _ _ (fun _ => rfl) fun _ => rfl
  · rename_i heq
    rw [heq] at hmade
    exact hmade

theorem Misplaced.gossip_sender [DecidableEq E] (hm : n.Misplaced a) (h : n.Mapped)
    (hsound : (n.life a).Sound) : (n.gossip_sender now a endpoint).Untold a := by
  have hmade : (n.get_or_make now a false [endpoint] true).1.Untold a := hm.get_or_make h hsound
  have hconfig := (SameFiles.get_or_make now a false [endpoint] true n).config
  unfold Node.gossip_sender
  dsimp only
  rw [hm.1]
  generalize (n.get_or_make now a false [endpoint] true).1 = m at hmade hconfig ⊢
  have hgroup : n.group_of a = m.group_of a := by
    unfold group_of
    rw [hconfig]
  have hcontact : (m.find (some (n.group_of a)) a).map (·.discovered) = some true := by
    rw [hgroup]
    exact hmade.contact
  rw [Option.isSome_none, if_neg Bool.false_ne_true]
  split
  · rename_i c hfind
    rw [hfind, Option.map_some, Option.some.injEq] at hcontact
    rw [if_pos hcontact]
    exact hmade
  · exact hmade

theorem Untold.onGossip [DecidableEq E] {p : Gossip A E} (hobserver : n._observer = true)
    (h : (n.gossip_sender now p.sender endpoint).Untold p.sender) :
    (n.onGossip now endpoint p).Untold p.sender := by
  unfold Node.onGossip
  dsimp only
  rw [if_pos hobserver]
  generalize n.gossip_sender now p.sender endpoint = m at h ⊢
  obtain ⟨hlives, hkept⟩ : Lives m (p.contacts.foldl (gossip_contact now) m) ∧ _ :=
    gossip_contacts_lives h.mapped p.contacts
  have hcontacts : (p.contacts.foldl (gossip_contact now) m).Untold p.sender :=
    h.same hlives.mapped (hkept _ h.contact)
  split
  · obtain ⟨hfiles, hsame⟩ := gossip_files_lives hcontacts.mapped p.files
    exact hcontacts.same hfiles.mapped (hsame _)
  · exact hcontacts

/-! ## Runs -/

/-- The signals of each address as of a storage node alternate, from a discovery on, and the last
one of a contact that is discovered is a discovery. -/
structure Notifies (n : Node A E k) : Prop where
  alternate : ∀ a, Alternates (n.told a)
  discovered : ∀ g, ∀ c ∈ n.contacts (some g), c.discovered = true →
    (n.told c.address).getLast? = some true

/-- The tables are maps, and all lives are sound. -/
structure Tells (n : Node A E k) : Prop where
  mapped : n.Mapped
  sound : ∀ a, (n.life a).Sound

theorem Tells.lives (h : n.Tells) (hlives : Lives n n') : n'.Tells :=
  ⟨hlives.mapped, fun a => (h.sound a).steps (hlives.lives a)⟩

theorem Tells.notifies (h : n.Tells) : n.Notifies := by
  refine ⟨fun a => (h.sound a).alternates, fun g c hc hd => ?_⟩
  apply (h.sound c.address).told.mpr
  have hgroup : n.group_of c.address = g := h.mapped.grouped g c hc
  unfold life
  rw [hgroup, h.mapped.mem_find hc, Option.map_some, hd]

theorem Untold.not_notifies (h : n.Untold a) : ¬n.Notifies := by
  intro hnotifies
  have hcontact := h.contact
  unfold life at hcontact
  obtain ⟨c, hc, hd⟩ := Option.map_eq_some_iff.mp hcontact
  obtain ⟨hmem, rfl⟩ := find_mem hc
  exact h.told (hnotifies.discovered _ c hmem hd)

/-- No observer is moved to the storage nodes. -/
def Settled (n : Node A E k) : Time × Act A E → Prop
  | (_, .seen a _ false) => a ≠ n._self → ¬n.Misplaced a
  | (_, .gossip _ p) => n._observer = true → ¬n.Misplaced p.sender
  | (_, .send_bootstrap a _) => ¬n.Misplaced a
  | _ => True

theorem Lives.step [DecidableEq E] (h : n.Mapped) (act : Time × Act A E)
    (hsettled : n.Settled act) :
    Lives n (n.step act) := by
  obtain ⟨now, act⟩ := act
  cases act with
  | seen a endpoint observer =>
    refine Lives.onContactSeen h fun hobserver => ?_
    subst hobserver
    exact hsettled
  | gossip endpoint p => exact Lives.onGossip h hsettled
  | origin a endpoints => exact Lives.get_or_make h nofun
  | send_bootstrap a endpoints => exact Lives.get_or_make h fun _ => hsettled
  | process_update contacts files => exact Lives.process_update h
  | lookup_result file home =>
    change Lives n (n.lookup_result now file home)
    unfold lookup_result
    split
    · exact Lives.same h rfl rfl rfl rfl rfl
    · exact Lives.refl h
  | cleanup => exact Lives.cleanup h
  | gossipEmitter pick picked => exact Lives.gossipEmitter h
  | store a =>
    have hstore : ∀ m : Node A E k, (m.store now a).contacts = m.contacts ∧
        (m.store now a).signals = m.signals ∧ (m.store now a)._observer = m._observer := by
      intro m
      unfold Node.store
      dsimp only
      split <;> split <;> exact ⟨rfl, rfl, rfl⟩
    have hadds := store_adds now a ({ n with stored := insert a n.stored } : Node A E k)
    obtain ⟨hcontacts, hsignals, hobserver⟩ :=
      hstore ({ n with stored := insert a n.stored } : Node A E k)
    exact Lives.same h hcontacts hsignals hadds.self hobserver hadds.config
  | store_silently a => exact Lives.same h rfl rfl rfl rfl rfl
  | remove a =>
    change Lives n (if a ∈ n.stored then _ else n)
    split
    · exact Lives.same h rfl rfl rfl rfl rfl
    · exact Lives.refl h

theorem Tells.lost [DecidableEq E] (h : n.Tells) (act : Time × Act A E) (hlose : ¬n.Settled act) :
    ¬(n.step act).Notifies := by
  obtain ⟨now, act⟩ := act
  cases act with
  | seen a endpoint observer =>
    cases observer with
    | true => exact absurd trivial hlose
    | false =>
      unfold Settled at hlose
      rw [Classical.not_imp, not_not] at hlose
      exact (hlose.2.onContactSeen hlose.1 h.mapped (h.sound a)).not_notifies
  | gossip endpoint p =>
    unfold Settled at hlose
    rw [Classical.not_imp, not_not] at hlose
    exact (Untold.onGossip hlose.1
      (hlose.2.gossip_sender h.mapped (h.sound p.sender))).not_notifies
  | send_bootstrap a endpoints =>
    unfold Settled at hlose
    rw [not_not] at hlose
    exact (hlose.get_or_make h.mapped (h.sound a)).not_notifies
  | _ => exact absurd trivial hlose

theorem Tells.started {config : Configuration A k} {self : A} {stored : List A} :
    (started self observer config now stored : Node A E k).Tells := by
  refine ⟨⟨fun _ => List.nodup_nil, nofun⟩, fun a => ⟨List.isChain_singleton _, ?_, nofun⟩⟩
  exact ⟨nofun, nofun⟩

/-- The notifications alternate, all along a run, if and only if no step moves an observer to the
storage nodes. -/
theorem notifies_iff [DecidableEq E] {config : Configuration A k} {self : A} {observer : Bool}
    {stored : List A} (acts : List (Time × Act A E)) :
    (∀ done, done <+: acts →
      (done.foldl step (started self observer config now stored)).Notifies) ↔
      ∀ done act, done ++ [act] <+: acts →
        (done.foldl step (started self observer config now stored)).Settled act :=
  foldl_always_iff Tells.started (fun _ h => h.notifies)
    (fun _ act h hsettled => h.lives (Lives.step h.mapped act hsettled))
    fun _ act h hlose => h.lost act hlose

/-- A node that asks for a file is not known to be a storage node until it is seen as one. -/
theorem origin_is_not_discovered :
    ¬([(1, .origin 5 [4]), (2, .seen 5 4 false)].foldl step
      (started 0 false lonely 0 [] : Node Nat Nat 1)).Notifies := by
  intro h
  have hlast := h.discovered 0 ⟨some (4, 2), [(4, 2)], 5, 0, 0, 0, 0, true, 0⟩
    (by decide +kernel) rfl
  revert hlast
  decide +kernel

end Node

end memo.overlay.kelips
