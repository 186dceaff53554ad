-- What a node advertises and what it stores. Its own files never grow old, so the ones that
-- it has must be those of its storage.
import Memo.Kelips
import Memo.Runs

open runs

namespace memo.overlay.kelips.Node

variable {A E : Type} {k : Nat} {n n' n'' : Node A E k}
variable {now : Time} {a : A}

/-! ## What does not concern the files -/

/-- The files, and what decides what is one's own. -/
structure SameFiles (n n' : Node A E k) : Prop where
  files : n'.files = n.files
  stored : n'.stored = n.stored
  self : n'._self = n._self
  config : n'._config = n._config

theorem SameFiles.refl (n : Node A E k) : SameFiles n n := ⟨rfl, rfl, rfl, rfl⟩

theorem SameFiles.trans (h : SameFiles n n') (h' : SameFiles n' n'') : SameFiles n n'' :=
  ⟨h'.files.trans h.files, h'.stored.trans h.stored, h'.self.trans h.self,
    h'.config.trans h.config⟩

theorem SameFiles.foldl {X : Type} {f : Node A E k → X → Node A E k}
    (hf : ∀ n x, SameFiles n (f n x)) (l : List X) (n : Node A E k) :
    SameFiles n (l.foldl f n) := by
  induction l generalizing n with
  | nil => exact SameFiles.refl n
  | cons x l ih => exact (hf n x).trans (ih (f n x))

theorem SameFiles.set (n : Node A E k) (table : Option (Fin k)) (l : List (Contact A E)) :
    SameFiles n (n.set table l) := ⟨rfl, rfl, rfl, rfl⟩

theorem SameFiles.emit (n : Node A E k) (signal : Signal A) : SameFiles n (n.emit signal) :=
  ⟨rfl, rfl, rfl, rfl⟩

theorem SameFiles.notify_observers (n : Node A E k)
    (contacts : List (A × List (TimedEndpoint E))) :
    SameFiles n (n.notify_observers contacts) := ⟨rfl, rfl, rfl, rfl⟩

theorem SameFiles.misplaced [DecidableEq A] (n : Node A E k) (a : A) (observer : Bool) :
    SameFiles n (n.misplaced a observer).1 := by
  unfold Node.misplaced
  dsimp only
  split
  · exact SameFiles.refl n
  · split
    · split
      · exact SameFiles.refl n
      · exact (SameFiles.set n _ _).trans (SameFiles.set _ _ _)
    · exact SameFiles.refl n

theorem SameFiles.get_or_make [DecidableEq A] [DecidableEq E] (now : Time) (a : A)
    (observer : Bool) (endpoints : List E) (make : Bool) (n : Node A E k) :
    SameFiles n (n.get_or_make now a observer endpoints make).1 := by
  have hmisplaced := SameFiles.misplaced n a observer
  unfold Node.get_or_make
  dsimp only
  split
  · split
    · apply hmisplaced.trans
      dsimp only
      split
      · exact (SameFiles.set _ _ _).trans (SameFiles.emit _ _)
      · exact SameFiles.set _ _ _
    · apply hmisplaced.trans
      split
      · exact (SameFiles.set _ _ _).trans (SameFiles.notify_observers _ _)
      · exact SameFiles.set _ _ _
  · exact hmisplaced

theorem SameFiles.onContactSeen [DecidableEq A] [DecidableEq E] (now : Time) (a : A) (endpoint : E)
    (observer : Bool) (n : Node A E k) : SameFiles n (n.onContactSeen now a endpoint observer) := by
  have hmade := SameFiles.get_or_make now a observer [endpoint]
    (observer || n.room (n.group_of a)) n
  unfold Node.onContactSeen
  split
  · exact SameFiles.refl n
  · split
    · rename_i heq
      rw [heq] at hmade
      exact hmade.trans (SameFiles.set _ _ _)
    · rename_i heq
      rw [heq] at hmade
      exact hmade

theorem SameFiles.gossip_sender [DecidableEq A] [DecidableEq E] (now : Time) (a : A) (endpoint : E)
    (n : Node A E k) :
    SameFiles n (n.gossip_sender now a endpoint) := by
  have hmade : SameFiles n (if (n.find (some (n.group_of a)) a).isSome then n
      else (n.get_or_make now a false [endpoint] true).1) := by
    split
    · exact SameFiles.refl n
    · exact SameFiles.get_or_make now a false [endpoint] true n
  unfold Node.gossip_sender
  dsimp only
  split
  · split
    · exact hmade
    · exact hmade.trans ((SameFiles.set _ _ _).trans (SameFiles.emit _ _))
  · exact hmade

theorem SameFiles.gossip_contact [DecidableEq A] [DecidableEq E] (now : Time) (n : Node A E k)
    (contact : A × List (TimedEndpoint E)) : SameFiles n (n.gossip_contact now contact) := by
  unfold Node.gossip_contact
  dsimp only
  split_ifs
  · exact SameFiles.refl n
  · exact SameFiles.refl n
  · exact SameFiles.set _ _ _
  · exact (SameFiles.set _ _ _).trans (SameFiles.emit _ _)
  · exact SameFiles.refl n

theorem SameFiles.update_contact [DecidableEq A] [DecidableEq E] (now : Time) (n : Node A E k)
    (contact : A × List E) :
    SameFiles n (n.update_contact now contact) := by
  unfold Node.update_contact
  dsimp only
  split
  · exact SameFiles.refl n
  · split
    · split
      · exact ((SameFiles.set _ _ _).trans (SameFiles.emit _ _)).trans
          (SameFiles.notify_observers _ _)
      · exact SameFiles.refl n
    · split
      · exact SameFiles.set _ _ _
      · exact ((SameFiles.set _ _ _).trans (SameFiles.emit _ _)).trans
          (SameFiles.notify_observers _ _)

theorem SameFiles.cleanup_table (deadline : Time) (n : Node A E k) (table : Option (Fin k)) :
    SameFiles n (n.cleanup_table deadline table) := by
  unfold Node.cleanup_table
  dsimp only
  split
  · exact (SameFiles.set _ _ _).trans (SameFiles.foldl (fun n c => SameFiles.emit n _) _ _)
  · exact SameFiles.set _ _ _

theorem SameFiles.pickContacts [DecidableEq A] (pick : Nat → List A → List A) (now : Time)
    (n : Node A E k) :
    SameFiles n (n.pickContacts pick now).2 := by
  apply pickContacts_induction (I := fun s => SameFiles n s.2) pick now n (SameFiles.refl n)
  intro s a hs
  unfold insertContact
  dsimp only
  split
  · exact hs.trans (SameFiles.set _ _ _)
  · exact hs

/-! ## What is advertised -/

/-- The address and the home of each file. -/
def keys (n : Node A E k) : List (A × A) := n.files.map fun f => (f.address, f.home_node)

/-- The files of the node are those of its storage, and no file is there twice. -/
structure Advertises (n : Node A E k) : Prop where
  own : ∀ a, (a, n._self) ∈ n.keys ↔ a ∈ n.stored
  once : n.keys.Nodup

/-- A file is added unless it is there. -/
structure Adds (home : A × A) (n n' : Node A E k) : Prop where
  mem_iff : ∀ x, x ∈ n'.keys ↔ x ∈ n.keys ∨ x = home
  once : n.keys.Nodup → n'.keys.Nodup
  stored : n'.stored = n.stored
  self : n'._self = n._self
  config : n'._config = n._config

theorem SameFiles.keys (h : SameFiles n n') : n'.keys = n.keys := by
  unfold Node.keys
  rw [h.files]

theorem any_file [DecidableEq A] {home : A} :
    (n.files.any fun f => f.address = a ∧ f.home_node = home) = true ↔ (a, home) ∈ n.keys := by
  unfold keys
  simp only [List.any_eq_true, decide_eq_true_eq, List.mem_map, Prod.mk.injEq]

theorem Adds.push {f : File A} {home : A × A} (hf : (f.address, f.home_node) = home)
    (h : home ∉ n.keys) : Adds home n { n with files := n.files ++ [f] } := by
  have hkeys : keys { n with files := n.files ++ [f] } = n.keys ++ [home] := by
    rw [← hf]
    exact List.map_append
  refine ⟨fun x => ?_, fun hn => ?_, rfl, rfl, rfl⟩
  · rw [hkeys, List.mem_append, List.mem_singleton]
  · rw [hkeys]
    exact List.nodup_append.mpr ⟨hn, List.nodup_singleton _, fun x hx y hy hxy =>
      h (List.mem_singleton.mp hy ▸ hxy ▸ hx)⟩

theorem keys_refreshed {f : File A → File A} {l : List (File A)}
    (hf : ∀ x, (f x).address = x.address ∧ (f x).home_node = x.home_node) :
    (l.map f).map (fun f => (f.address, f.home_node)) =
      l.map fun f => (f.address, f.home_node) := by
  rw [List.map_map]
  apply List.map_congr_left
  intro x _
  exact Prod.ext (hf x).1 (hf x).2

theorem Adds.present {home : A × A} (h : home ∈ n.keys) (hkeys : n'.keys = n.keys)
    (hstored : n'.stored = n.stored) (hself : n'._self = n._self)
    (hconfig : n'._config = n._config) : Adds home n n' := by
  refine ⟨fun x => ?_, fun hn => hkeys ▸ hn, hstored, hself, hconfig⟩
  rw [hkeys]
  exact (or_iff_left_of_imp fun hx => hx ▸ h).symm

theorem Advertises.adds {home : A × A} (h : n.Advertises) (hadds : Adds home n n')
    (hown : home.2 = n._self → home.1 ∈ n.stored) : n'.Advertises := by
  refine ⟨fun a => ?_, hadds.once h.once⟩
  rw [hadds.mem_iff, hadds.self, hadds.stored, h.own]
  apply or_iff_left_of_imp
  rintro rfl
  exact hown rfl

theorem Advertises.of_keys (h : n.Advertises) (hkeys : n'.keys = n.keys)
    (hself : n'._self = n._self) (hstored : n'.stored = n.stored) : n'.Advertises := by
  refine ⟨fun a => ?_, hkeys ▸ h.once⟩
  rw [hkeys, hself, hstored]
  exact h.own a

theorem Advertises.same (h : n.Advertises) (hsame : SameFiles n n') : n'.Advertises :=
  h.of_keys hsame.keys hsame.self hsame.stored

/-! ## The handlers -/

variable [DecidableEq A]

theorem gossip_file_adds (n : Node A E k) (f : A × Time × A) :
    Adds (f.1, f.2.2) n (n.gossip_file f) := by
  unfold gossip_file
  dsimp only
  split
  · rename_i hin
    refine Adds.present (any_file.mp hin) (keys_refreshed fun x => ?_) rfl rfl rfl
    split <;> exact ⟨rfl, rfl⟩
  · rename_i hout
    exact Adds.push rfl fun hin => hout (any_file.mpr hin)

theorem lookup_result_adds (now : Time) (file home : A) (n : Node A E k) :
    n.lookup_result now file home = n ∨
      n.group_of file = n._group ∧ Adds (file, home) n (n.lookup_result now file home) := by
  unfold lookup_result
  split
  · rename_i hcond
    exact Or.inr ⟨hcond.1, Adds.push rfl fun hin => hcond.2 (any_file.mpr hin)⟩
  · exact Or.inl rfl

theorem update_file_adds (now : Time) (n : Node A E k) (f : A × A) :
    n.update_file now f = n ∨ f.2 ≠ n._self ∧ Adds f n (n.update_file now f) := by
  unfold update_file
  dsimp only
  split
  · rename_i hcond
    exact Or.inr ⟨hcond.2.1, Adds.push rfl fun hin => hcond.2.2 (any_file.mpr hin)⟩
  · exact Or.inl rfl

theorem gossip_files_adds (l : List (A × Time × A)) (n : Node A E k) :
    (∀ x, x ∈ (l.foldl gossip_file n).keys ↔ x ∈ n.keys ∨ ∃ f ∈ l, x = (f.1, f.2.2)) ∧
      (n.keys.Nodup → (l.foldl gossip_file n).keys.Nodup) ∧
      (l.foldl gossip_file n).stored = n.stored ∧ (l.foldl gossip_file n)._self = n._self := by
  induction l generalizing n with
  | nil => exact ⟨fun x => by simp, id, rfl, rfl⟩
  | cons f l ih =>
    have hadds := gossip_file_adds n f
    obtain ⟨hmem, hnodup, hstored, hself⟩ := ih (n.gossip_file f)
    rw [List.foldl_cons]
    refine ⟨fun x => ?_, hnodup ∘ hadds.once, hstored.trans hadds.stored, hself.trans hadds.self⟩
    rw [hmem, hadds.mem_iff]
    simp only [List.exists_mem_cons_iff, or_assoc]

theorem Advertises.process_update [DecidableEq E] {contacts : List (A × List E)}
    {files : List (A × A)} (h : n.Advertises) :
    (n.process_update now contacts files).Advertises := by
  unfold Node.process_update
  have hcontacts := h.same (SameFiles.foldl (SameFiles.update_contact now) contacts n)
  refine List.foldlRecOn (motive := Advertises) _ _ hcontacts fun m hm f _ => ?_
  rcases update_file_adds now m f with hsame | ⟨hother, hadds⟩
  · rw [hsame]
    exact hm
  · exact hm.adds hadds fun hself => absurd hself hother

theorem Advertises.cleanup (h : n.Advertises) : (n.cleanup now).Advertises := by
  unfold Node.cleanup
  apply Advertises.same _ (SameFiles.foldl (SameFiles.cleanup_table _) _ _)
  refine ⟨fun a => ?_, ?_⟩
  · rw [← h.own a]
    unfold keys
    simp only [List.mem_map, List.mem_filter, decide_eq_true_eq, Prod.mk.injEq]
    constructor
    · rintro ⟨f, ⟨hf, -⟩, hkey⟩
      exact ⟨f, hf, hkey⟩
    · rintro ⟨f, hf, hkey⟩
      exact ⟨f, ⟨hf, Or.inl hkey.2⟩, hkey⟩
  · exact h.once.sublist (List.filter_sublist.map _)

theorem Advertises.pickFiles {picked : List (A × A)} (h : n.Advertises) :
    (n.pickFiles picked now).2.Advertises := by
  refine h.of_keys ?_ rfl rfl
  refine (keys_refreshed fun x => ?_).trans (keys_refreshed fun x => ?_)
  · split <;> exact ⟨rfl, rfl⟩
  · split <;> exact ⟨rfl, rfl⟩

theorem Advertises.gossipEmitter {pick : Nat → List A → List A} {picked : List (A × A)}
    (h : n.Advertises) : (n.gossipEmitter pick picked now).Advertises := by
  have hcontacts := h.same (SameFiles.pickContacts pick now n)
  unfold Node.gossipEmitter
  generalize n.pickContacts pick now = s at hcontacts
  have hfiles : (s.2.pickFiles picked now).2.Advertises := hcontacts.pickFiles
  exact hfiles.of_keys rfl rfl rfl

theorem store_adds (now : Time) (a : A) (n : Node A E k) :
    Adds (a, n._self) n (n.store now a) := by
  have hfile : Adds (a, n._self) n
      (if n.files.any fun f => f.address = a ∧ f.home_node = n._self then n
        else { n with files := n.files ++ [⟨a, n._self, now, 0, 0⟩] }) := by
    split
    · rename_i hin
      exact Adds.present (any_file.mp hin) rfl rfl rfl rfl
    · rename_i hout
      exact Adds.push rfl fun hin => hout (any_file.mpr hin)
  unfold Node.store
  dsimp only
  split
  · exact { hfile with }
  · exact hfile

theorem Advertises.store (h : n.Advertises) :
    (({ n with stored := insert a n.stored } : Node A E k).store now a).Advertises := by
  have hadds := store_adds now a ({ n with stored := insert a n.stored } : Node A E k)
  refine ⟨fun b => ?_, hadds.once h.once⟩
  rw [hadds.mem_iff, hadds.self, hadds.stored, Finset.mem_insert, Prod.mk.injEq]
  change (b, n._self) ∈ n.keys ∨ b = a ∧ n._self = n._self ↔ _
  rw [h.own b, and_iff_left rfl, or_comm]

theorem keys_erase (l : List (File A)) (home : A) :
    (l.eraseP fun f => f.address = a ∧ f.home_node = home).map
        (fun f => (f.address, f.home_node)) =
      (l.map fun f => (f.address, f.home_node)).erase (a, home) := by
  induction l with
  | nil => rfl
  | cons f l ih =>
    by_cases hf : f.address = a ∧ f.home_node = home
    · have hkey : (f.address, f.home_node) = (a, home) := Prod.ext hf.1 hf.2
      rw [List.eraseP_cons_of_pos (by simpa using hf), List.map_cons, hkey, List.erase_cons_head]
    · have hkey : (f.address, f.home_node) ≠ (a, home) := by
        intro heq
        rw [Prod.mk.injEq] at heq
        exact hf heq
      rw [List.eraseP_cons_of_neg (by simpa using hf), List.map_cons, ih, List.map_cons,
        List.erase_cons_tail (by simpa using hkey)]

theorem Advertises.remove (h : n.Advertises) :
    (({ n with stored := n.stored.erase a } : Node A E k).remove a).Advertises := by
  have hkeys : (({ n with stored := n.stored.erase a } : Node A E k).remove a).keys =
      n.keys.erase (a, n._self) := keys_erase n.files n._self
  refine ⟨fun b => ?_, ?_⟩
  · rw [hkeys, h.once.mem_erase_iff]
    change (b, n._self) ≠ (a, n._self) ∧ (b, n._self) ∈ n.keys ↔ b ∈ n.stored.erase a
    rw [h.own b, Finset.mem_erase, ne_eq, Prod.mk.injEq, and_iff_left rfl]
  · rw [hkeys]
    exact h.once.erase _

/-! ## Runs -/

variable [DecidableEq E]

/-- No file of the node that its storage does not have comes back from the group, and the storage
is not given what tells no one. -/
def Fresh (n : Node A E k) : Time × Act A E → Prop
  | (_, .gossip _ p) => n.group_of p.sender = n._group →
      ∀ f ∈ p.files, f.2.2 = n._self → f.1 ∈ n.stored
  | (_, .lookup_result file home) => n.group_of file = n._group → home = n._self →
      file ∈ n.stored
  | (_, .store_silently a) => a ∈ n.stored
  | _ => True

theorem onGossip_files (now : Time) (endpoint : E) (p : Gossip A E) (n : Node A E k) :
    ∃ m, SameFiles n m ∧ n.onGossip now endpoint p =
      if n.group_of p.sender = n._group then p.files.foldl gossip_file m else m := by
  have hsender :
      SameFiles n (if n._observer then n.gossip_sender now p.sender endpoint else n) := by
    split
    · exact SameFiles.gossip_sender now p.sender endpoint n
    · exact SameFiles.refl n
  have hsame := hsender.trans (SameFiles.foldl (SameFiles.gossip_contact now) p.contacts _)
  refine ⟨_, hsame, ?_⟩
  have hgroup : ∀ m : Node A E k, SameFiles n m → m._group = n._group := by
    intro m hm
    unfold _group group_of
    rw [hm.self, hm.config]
  unfold Node.onGossip
  dsimp only
  rw [hgroup _ hsame]

theorem Advertises.step (h : n.Advertises) (act : Time × Act A E) (hfresh : n.Fresh act) :
    (n.step act).Advertises := by
  obtain ⟨now, act⟩ := act
  cases act with
  | seen a endpoint observer => exact h.same (SameFiles.onContactSeen now a endpoint observer n)
  | gossip endpoint p =>
    obtain ⟨m, hsame, heq⟩ := onGossip_files now endpoint p n
    have hm := h.same hsame
    unfold Node.step
    dsimp only
    rw [heq]
    split
    · rename_i hgroup
      obtain ⟨hmem, hnodup, hstored, hself⟩ := gossip_files_adds p.files m
      refine ⟨fun a => ?_, hnodup hm.once⟩
      rw [hmem, hself, hstored, hm.own a]
      apply or_iff_left_of_imp
      rintro ⟨f, hf, heq⟩
      rw [Prod.mk.injEq] at heq
      rw [heq.1, hsame.stored]
      exact hfresh hgroup f hf (heq.2.symm.trans hsame.self)
    · exact hm
  | origin a endpoints => exact h.same (SameFiles.get_or_make now a true endpoints true n)
  | send_bootstrap a endpoints => exact h.same (SameFiles.get_or_make now a false endpoints true n)
  | process_update contacts files => exact h.process_update
  | lookup_result file home =>
    unfold Node.step
    dsimp only
    rcases lookup_result_adds now file home n with hsame | ⟨hgroup, hadds⟩
    · rw [hsame]
      exact h
    · exact h.adds hadds fun hself => hfresh hgroup hself
  | cleanup => exact h.cleanup
  | gossipEmitter pick picked => exact h.gossipEmitter
  | store a => exact h.store
  | store_silently a =>
    have hstored : insert a n.stored = n.stored := Finset.insert_eq_of_mem hfresh
    exact h.of_keys rfl rfl hstored
  | remove a =>
    unfold Node.step
    dsimp only
    split
    · exact h.remove
    · exact h

theorem Advertises.lost (h : n.Advertises) (act : Time × Act A E) (hlose : ¬n.Fresh act) :
    ¬(n.step act).Advertises := by
  obtain ⟨now, act⟩ := act
  intro hnext
  apply hlose
  cases act with
  | gossip endpoint p =>
    intro hgroup f hf hself
    obtain ⟨m, hsame, heq⟩ := onGossip_files now endpoint p n
    obtain ⟨hmem, -, hstored, hself'⟩ := gossip_files_adds p.files m
    have hstep : n.step (now, .gossip endpoint p) = p.files.foldl gossip_file m :=
      heq.trans (if_pos hgroup)
    have hin : (f.1, n._self) ∈ (n.step (now, .gossip endpoint p)).keys := by
      rw [hstep, hmem]
      exact Or.inr ⟨f, hf, by rw [hself]⟩
    have hown := hnext.own f.1
    rw [hstep, hself', hstored, hsame.self, hsame.stored, ← hstep] at hown
    exact hown.mp hin
  | lookup_result file home =>
    intro hgroup hself
    have hown := hnext.own file
    unfold Node.step at hown
    dsimp only at hown
    rcases lookup_result_adds now file home n with hsame | ⟨-, hadds⟩
    · by_cases hin : (file, home) ∈ n.keys
      · rw [hself] at hin
        exact (h.own file).mp hin
      · have hadded : Adds (file, home) n (n.lookup_result now file home) := by
          unfold lookup_result
          rw [if_pos ⟨hgroup, fun hany => hin (any_file.mp hany)⟩]
          exact Adds.push rfl hin
        rw [hadded.mem_iff, hadded.self, hadded.stored] at hown
        exact hown.mp (Or.inr (by rw [hself]))
    · rw [hadds.mem_iff, hadds.self, hadds.stored] at hown
      exact hown.mp (Or.inr (by rw [hself]))
  | store_silently a =>
    have hown : (a, n._self) ∈ n.keys ↔ a ∈ insert a n.stored := hnext.own a
    exact (h.own a).mp (hown.mpr (Finset.mem_insert_self a _))
  | _ => trivial

omit [DecidableEq E] in
theorem Advertises.started {config : Configuration A k} {self : A} {observer : Bool}
    {stored : List A} (h : stored.Nodup) :
    (started self observer config now stored : Node A E k).Advertises := by
  have hkeys : (Node.started self observer config now stored : Node A E k).keys =
      stored.map fun a => (a, self) := by
    unfold Node.started Node.keys reload_state
    rw [List.nil_append, List.map_map]
    rfl
  refine ⟨fun a => ?_, ?_⟩
  · rw [hkeys]
    change (a, self) ∈ _ ↔ a ∈ stored.toFinset
    rw [List.mem_toFinset, List.mem_map]
    constructor
    · rintro ⟨b, hb, heq⟩
      rw [Prod.mk.injEq] at heq
      exact heq.1 ▸ hb
    · exact fun ha => ⟨a, ha, rfl⟩
  · rw [hkeys]
    exact h.map fun a b heq => (Prod.mk.inj heq).1

/-- A node advertises what it stores, all along a run, if and only if no step brings back a file
of the node that it does not store, or stores what tells no one. -/
theorem advertises_iff {config : Configuration A k} {self : A} {observer : Bool}
    {stored : List A} (h : stored.Nodup) (acts : List (Time × Act A E)) :
    (∀ done, done <+: acts →
      (done.foldl step (started self observer config now stored)).Advertises) ↔
      ∀ done act, done ++ [act] <+: acts →
        (done.foldl step (started self observer config now stored)).Fresh act :=
  foldl_always_iff (Advertises.started h) (fun _ h => h) (fun _ act h hfresh => h.step act hfresh)
    fun _ act h hlose => h.lost act hlose

/-- A node of a network of one group. -/
def lonely : Configuration Nat 1 := { group_of := fun _ => 0 }

/-- A peer tells of a block that the node stores and of one of its own, which is looked up. -/
theorem reloaded_is_advertised : [7].Nodup ∧
    ∀ done, done <+: ([(1, .store 8), (2, .gossip 4 ⟨5, false, [], [(8, 1, 0), (9, 1, 5)]⟩),
        (3, .lookup_result 9 5), (4, .remove 7)] : List (Time × Act Nat Nat)) →
      (done.foldl step (started 0 false lonely 0 [7] : Node Nat Nat 1)).Advertises := by
  refine ⟨by decide, (advertises_iff (by decide) _).mpr fun done act hp => ?_⟩
  rcases done with _ | ⟨a, _ | ⟨b, _ | ⟨c, _ | ⟨d, done⟩⟩⟩⟩ <;>
    simp only [List.nil_append, List.cons_append, List.cons_prefix_cons, List.prefix_nil,
      List.append_eq_nil_iff, List.cons_ne_self, and_false, List.nil_prefix, and_true] at hp
  · subst hp
    trivial
  · obtain ⟨rfl, rfl⟩ := hp
    intro _ f hf hself
    rcases List.mem_pair.mp hf with rfl | rfl
    · decide +kernel
    · cases hself
  · obtain ⟨rfl, rfl, rfl⟩ := hp
    exact fun _ hself => absurd hself (by decide +kernel)
  · obtain ⟨rfl, rfl, rfl, rfl⟩ := hp
    trivial

/-- The block is removed, and the advertisement comes back from a peer that lags behind. -/
theorem removed_comes_back :
    ¬([(1, .store 7), (2, .remove 7), (3, .gossip 4 ⟨5, false, [], [(7, 1, 0)]⟩)].foldl step
      (started 0 false lonely 0 [] : Node Nat Nat 1)).Advertises := by
  intro h
  exact absurd ((h.own 7).mp (by decide +kernel)) (by decide +kernel)

end memo.overlay.kelips.Node
