-- How the peers of a node learn which blocks it stores. The node queues an event for
-- each block that it stores or removes, and a thread sends the events to the peers
-- by batches. A peer that connects asks for all the entries once. Nodes speak
-- version 0.8.0 or later here.
import Memo.Changes
import Memo.Ops
import Memo.Runs

open ops runs changes

namespace memo.overlay.kouncil

/-! ## The node -/

/-- What storing and removing throw. -/
inductive StoreError (A : Type) where
  | missing_block (a : A)
  | enforce (condition : String)
deriving DecidableEq

/-- The addresses in the storage, the entries of the node in its own book, and the events that
were not sent. -/
structure Node (A : Type) where
  stored : Finset A
  _address_book : Finset A
  _new_entries : List (A × Bool) := []
deriving DecidableEq

/-- One connected peer. `asked`: it waits for the entries of the node. -/
inductive Fetch (A : Type) where
  | asked
  | replied (entries : Finset A)
  | done
deriving DecidableEq

/-- A connection to a peer: the calls of `kouncil_change_entries` on their way, the state of the
first fetch, and the entries that the peer holds for the node. -/
structure Link (A : Type) where
  calls : List (List (A × Bool)) := []
  fetch : Fetch A := .asked
  entries : Finset A := ∅
deriving DecidableEq

structure World (A : Type) where
  node : Node A
  link : Option (Link A) := none
deriving DecidableEq

variable {A : Type} [DecidableEq A]

/-- `_register_local`. -/
def _register_local (stored : Finset A) : World A :=
  { node := { stored := stored, _address_book := stored } }

def on_store (a : A) (n : Node A) : Node A :=
  { n with
    _address_book := insert a n._address_book
    _new_entries := n._new_entries ++ [(a, true)] }

def on_remove (a : A) : Op (Node A) (StoreError A) Unit := do
  let n ← Op.get
  if a ∈ n._address_book then
    Op.modify fun n =>
      { n with
        _address_book := n._address_book.erase a
        _new_entries := n._new_entries ++ [(a, false)] }
  else
    Op.throw (.enforce "erase(entry) == 1u")

/-- A block is set in the storage, whether it was there or not. -/
def store (a : A) (n : Node A) : Node A := on_store a { n with stored := insert a n.stored }

def remove (a : A) : Op (Node A) (StoreError A) Unit := do
  let n ← Op.get
  if a ∈ n.stored then
    Op.modify fun n => { n with stored := n.stored.erase a }
    on_remove a
  else
    Op.throw (.missing_block a)

/-! ## The peer -/

/-- `kouncil_change_entries`. -/
def kouncil_change_entries (entries : List (A × Bool)) (l : Link A) : Link A :=
  { l with entries := replay entries l.entries }

/-- `_fetch_entries`, once the reply is there. -/
def _fetch_entries (entries : Finset A) (l : Link A) : Link A :=
  { l with fetch := .done, entries := l.entries ∪ entries }

/-! ## What may happen -/

inductive Action (A : Type) where
  | store (a : A)
  | remove (a : A)
  /-- The thread takes some events, at least one, and calls the peers that are connected. -/
  | _broadcast (more : Nat)
  | connect
  | disconnect
  /-- The node answers the fetch. -/
  | kouncil_fetch_entries
  /-- The peer goes on with the answer. -/
  | _fetch_entries
  /-- The peer handles a call. -/
  | kouncil_change_entries

/-- What happens on the connection. -/
def Link.step (n : Node A) (l : Link A) : Action A → Option (Link A)
  | .kouncil_fetch_entries =>
    match l.fetch with
    | .asked => some { l with fetch := .replied n._address_book }
    | _ => none
  | ._fetch_entries =>
    match l.fetch with
    | .replied entries => some (_fetch_entries entries l)
    | _ => none
  | .kouncil_change_entries =>
    match l.calls with
    | [] => none
    | call :: calls => some (kouncil_change_entries call { l with calls := calls })
  | _ => none

/-- The thread takes the events that it finds. -/
def World.broadcast (more : Nat) (w : World A) : World A :=
  let events := coalesce (w.node._new_entries.take (more + 1))
  { node := { w.node with _new_entries := w.node._new_entries.drop (more + 1) }
    link := w.link.map fun l => { l with calls := l.calls ++ [events] } }

def step (w : World A) : Action A → Option (World A)
  | .store a => some { w with node := store a w.node }
  | .remove a => some { w with node := (remove a w.node).2 }
  | ._broadcast more =>
    if more < w.node._new_entries.length then some (w.broadcast more) else none
  | .connect => if w.link.isNone then some { w with link := some {} } else none
  | .disconnect => if w.link.isSome then some { w with link := none } else none
  | a => (w.link.bind (·.step w.node a)).map fun l => { w with link := some l }

/-- The events that the peer has not seen. -/
def Link.pending (n : Node A) (l : Link A) : List (A × Bool) :=
  l.calls.flatten ++ n._new_entries

/-- All was delivered to the peer. -/
def Link.Delivered (n : Node A) (l : Link A) : Prop :=
  l.fetch = .done ∧ l.calls = [] ∧ n._new_entries = []

/-! ## What must not happen -/

/-- Each block of a batch has one event there, or ends with the one that it starts with, or has a
later event. -/
def KeepsLast (events rest : List (A × Bool)) : Prop :=
  ∀ e ∈ events, first e.1 events = last e.1 events ∨ last e.1 rest ≠ none

/-- What the peer fetched is still stored, or the peer has yet to see the removal. -/
def Link.Fresh (n : Node A) (l : Link A) : Prop :=
  match l.fetch with
  | .replied entries => ∀ a ∈ entries, a ∈ n.stored ∨ last a (l.pending n) ≠ none
  | _ => True

/-- The condition on a step that concerns a connected peer. -/
def Link.Meets (n : Node A) (l : Link A) : Action A → Prop
  | ._broadcast more =>
    KeepsLast (n._new_entries.take (more + 1)) (n._new_entries.drop (more + 1))
  | ._fetch_entries => l.Fresh n
  | _ => True

def Meets (w : World A) (a : Action A) : Prop := ∀ l, w.link = some l → l.Meets w.node a

instance (events rest : List (A × Bool)) : Decidable (KeepsLast events rest) :=
  inferInstanceAs (Decidable (∀ e ∈ events, _ ∨ _))

instance (n : Node A) (l : Link A) : Decidable (l.Fresh n) :=
  match h : l.fetch with
  | .replied entries =>
    decidable_of_iff (∀ a ∈ entries, a ∈ n.stored ∨ last a (l.pending n) ≠ none)
      (by unfold Link.Fresh; rw [h])
  | .asked => isTrue (by unfold Link.Fresh; rw [h]; trivial)
  | .done => isTrue (by unfold Link.Fresh; rw [h]; trivial)

instance (n : Node A) (l : Link A) : (a : Action A) → Decidable (l.Meets n a)
  | ._broadcast _ => inferInstanceAs (Decidable (KeepsLast _ _))
  | ._fetch_entries => inferInstanceAs (Decidable (l.Fresh n))
  | .store _ | .remove _ | .connect | .disconnect | .kouncil_fetch_entries
  | .kouncil_change_entries => isTrue trivial

instance (w : World A) (a : Action A) : Decidable (Meets w a) :=
  match h : w.link with
  | none => isTrue fun l hl => absurd (h.symm.trans hl) (Option.some_ne_none l).symm
  | some l =>
    decidable_of_iff (l.Meets w.node a)
      ⟨fun hm _ hl => Option.some.inj (h.symm.trans hl) ▸ hm, fun hm => hm l h⟩

/-! ## What holds at each step -/

/-- What the peer knows of a block that is stored. -/
def Link.Knows (a : A) (l : Link A) : Prop :=
  match l.fetch with
  | .asked => True
  | .replied entries => a ∈ l.entries ∨ a ∈ entries
  | .done => a ∈ l.entries

variable {events : List (A × Bool)} {l : Link A} {w : World A} {n : Node A} {a : Action A}

omit [DecidableEq A] in
theorem Link.Knows.of_mem {a : A} (h : a ∈ l.entries) : l.Knows a := by
  unfold Knows
  cases l.fetch with
  | asked => trivial
  | replied entries => exact Or.inl h
  | done => exact h

omit [DecidableEq A] in
theorem Link.Knows.mono {a : A} {l' : Link A} (h : l.Knows a) (hfetch : l'.fetch = l.fetch)
    (hentries : a ∈ l.entries → a ∈ l'.entries) : l'.Knows a := by
  unfold Knows at *
  rw [hfetch]
  cases hl : l.fetch with
  | asked => trivial
  | replied entries =>
    rw [hl] at h
    exact h.imp_left hentries
  | done =>
    rw [hl] at h
    exact hentries h

/-- The last of some events says whether the block is stored. -/
def Tell (events : List (A × Bool)) (stored : Finset A) : Prop :=
  ∀ a f, last a events = some f → (f = true ↔ a ∈ stored)

/-- A peer is right about the blocks without an event that it has not seen. -/
structure Link.Current (n : Node A) (l : Link A) : Prop where
  tell : Tell (l.pending n) n.stored
  stored : ∀ a, last a (l.pending n) = none → a ∈ l.entries → a ∈ n.stored
  known : ∀ a, last a (l.pending n) = none → a ∈ n.stored → l.Knows a

structure Current (w : World A) : Prop where
  book : w.node._address_book = w.node.stored
  tell : Tell w.node._new_entries w.node.stored
  link : ∀ l, w.link = some l → l.Current w.node

theorem Tell.snoc {stored : Finset A} (h : Tell events stored) (a : A) :
    Tell (events ++ [(a, true)]) (insert a stored) ∧
      Tell (events ++ [(a, false)]) (stored.erase a) := by
  constructor
  all_goals
    intro b f hf
    rw [last_snoc] at hf
    by_cases hb : a = b
    · simp only [hb, if_true, Option.some.injEq] at hf
      simp [hb, ← hf]
    · simp only [if_neg hb] at hf
      rw [h b f hf]
      simp [Ne.symm hb]

omit [DecidableEq A] in
theorem Link.pending_event {n' : Node A} {e : A × Bool}
    (hevents : n'._new_entries = n._new_entries ++ [e]) :
    l.pending n' = l.pending n ++ [e] := by
  unfold pending
  rw [hevents, List.append_assoc]

theorem Link.Current.event (h : l.Current n) {n' : Node A} {e : A × Bool}
    (hevents : n'._new_entries = n._new_entries ++ [e])
    (hstored : ∀ b, b ≠ e.1 → (b ∈ n'.stored ↔ b ∈ n.stored))
    (htell : Tell (l.pending n') n'.stored) : l.Current n' := by
  have hnone : ∀ b, last b (l.pending n') = none → b ≠ e.1 ∧ last b (l.pending n) = none := by
    intro b hb
    rw [pending_event hevents, last_snoc] at hb
    by_cases hbe : e.1 = b
    · simp [hbe] at hb
    · rw [if_neg hbe] at hb
      exact ⟨Ne.symm hbe, hb⟩
  constructor
  · exact htell
  · intro b hb hmem
    exact (hstored b (hnone b hb).1).mpr (h.stored b (hnone b hb).2 hmem)
  · intro b hb hmem
    exact h.known b (hnone b hb).2 ((hstored b (hnone b hb).1).mp hmem)

theorem Current.store (h : Current w) (a : A) :
    Current { w with node := store a w.node } := by
  constructor
  · change insert a w.node._address_book = insert a w.node.stored
    rw [h.book]
  · exact (h.tell.snoc a).1
  · intro l hl
    have hevents : (kouncil.store a w.node)._new_entries = w.node._new_entries ++ [(a, true)] := rfl
    apply (h.link l hl).event hevents
    · intro b hb
      exact ⟨fun hmem => Finset.mem_of_mem_insert_of_ne hmem hb, Finset.mem_insert_of_mem⟩
    · rw [Link.pending_event hevents]
      exact ((h.link l hl).tell.snoc a).1

theorem remove_cases (h : n._address_book = n.stored) (a : A) :
    (a ∉ n.stored ∧ remove a n = (.error (.missing_block a), n)) ∨
      remove a n = (.ok (), ⟨n.stored.erase a, n._address_book.erase a,
        n._new_entries ++ [(a, false)]⟩) := by
  by_cases ha : a ∈ n.stored
  · right
    unfold remove on_remove
    rw [Op.bind_of_ok (Op.get_apply n), if_pos ha, Op.bind_of_ok (Op.modify_apply _ n),
      Op.bind_of_ok (Op.get_apply _), if_pos (h ▸ ha)]
    rfl
  · left
    unfold remove
    rw [Op.bind_of_ok (Op.get_apply n), if_neg ha]
    exact ⟨ha, rfl⟩

theorem Current.remove (h : Current w) (a : A) :
    Current { w with node := (remove a w.node).2 } := by
  rcases remove_cases h.book a with ⟨-, hsame⟩ | herase
  · rw [hsame]
    exact h
  · rw [herase]
    constructor
    · change w.node._address_book.erase a = w.node.stored.erase a
      rw [h.book]
    · exact (h.tell.snoc a).2
    · intro l hl
      apply (h.link l hl).event rfl
      · intro b hb
        exact ⟨Finset.mem_of_mem_erase, Finset.mem_erase_of_ne_of_mem hb⟩
      · rw [Link.pending_event rfl]
        exact ((h.link l hl).tell.snoc a).2

theorem Tell.of_append {rest : List (A × Bool)} {stored : Finset A}
    (h : Tell (events ++ rest) stored) : Tell rest stored := by
  intro a f hf
  apply h a f
  rw [last_append, hf]
  rfl

theorem KeepsLast.coalesce {rest : List (A × Bool)} (h : KeepsLast events rest)
    (calls : List (A × Bool)) (a : A) :
    last a (calls ++ coalesce events ++ rest) = last a (calls ++ (events ++ rest)) := by
  rw [← List.append_assoc, last_append, last_append, last_append, last_append, last_coalesce]
  by_cases hrest : last a rest = none
  · have hsame : first a events = last a events := by
      by_cases hnone : last a events = none
      · rw [hnone, first_none_iff, hnone]
      · rw [last_none] at hnone
        push Not at hnone
        obtain ⟨e, hmem, rfl⟩ := hnone
        exact (h e hmem).resolve_right fun hlate => hlate hrest
    rw [hsame]
  · obtain ⟨f, hf⟩ := Option.ne_none_iff_exists'.mp hrest
    rw [hf]
    rfl

theorem Current.broadcast (h : Current w) {more : Nat} (hm : Meets w (._broadcast more)) :
    Current (w.broadcast more) := by
  have hsplit := List.take_append_drop (more + 1) w.node._new_entries
  constructor
  · exact h.book
  · have htell := h.tell
    rw [← hsplit] at htell
    exact htell.of_append
  · intro l' hl'
    simp only [World.broadcast, Option.map_eq_some_iff] at hl'
    obtain ⟨l, hl, rfl⟩ := hl'
    have hlast : ∀ a, last a (Link.pending (w.broadcast more).node { l with calls := l.calls ++
        [coalesce (w.node._new_entries.take (more + 1))] }) = last a (l.pending w.node) := by
      intro a
      simp only [Link.pending, World.broadcast, List.flatten_append, List.flatten_singleton]
      rw [KeepsLast.coalesce (hm l hl), hsplit]
    have hc := h.link l hl
    constructor
    · intro a f hf
      rw [hlast a] at hf
      exact hc.tell a f hf
    · intro a hnone
      rw [hlast a] at hnone
      exact hc.stored a hnone
    · intro a hnone
      rw [hlast a] at hnone
      exact hc.known a hnone

theorem Current.connect (h : Current w) :
    Current { w with link := some {} } := by
  refine ⟨h.book, h.tell, ?_⟩
  intro l hl
  simp only [Option.some.injEq] at hl
  subst hl
  refine ⟨h.tell, ?_, fun _ _ _ => trivial⟩
  intro a _ hmem
  exact absurd hmem (Finset.notMem_empty a)

theorem Current.disconnect (h : Current w) : Current { w with link := none } := by
  refine ⟨h.book, h.tell, ?_⟩
  intro l hl
  cases hl

theorem Link.Current.answer (h : l.Current n) (hbook : n._address_book = n.stored) :
    Link.Current n { l with fetch := .replied n._address_book } := by
  refine ⟨h.tell, h.stored, ?_⟩
  intro a _ hmem
  exact Or.inr (hbook ▸ hmem)

theorem Link.Current.fetched (h : l.Current n) {entries : Finset A}
    (hl : l.fetch = .replied entries) (hfresh : l.Fresh n) :
    (_fetch_entries entries l).Current n := by
  unfold Fresh at hfresh
  rw [hl] at hfresh
  refine ⟨h.tell, ?_, ?_⟩
  · intro a hnone hmem
    rcases Finset.mem_union.mp hmem with hin | hin
    · exact h.stored a hnone hin
    · exact (hfresh a hin).resolve_right fun hlate => hlate hnone
  · intro a hnone hmem
    have hknows := h.known a hnone hmem
    unfold Knows at hknows
    rw [hl] at hknows
    exact Finset.mem_union.mpr hknows

theorem Link.Current.change (h : l.Current n) {call : List (A × Bool)}
    {calls : List (List (A × Bool))} (hl : l.calls = call :: calls) :
    (kouncil_change_entries call { l with calls := calls }).Current n := by
  have hpending : ∀ a, last a (l.pending n) =
      (last a (Link.pending n { l with calls := calls })).or (last a call) := by
    intro a
    unfold pending
    rw [hl, List.flatten_cons, List.append_assoc, last_append]
  -- an event that the peer has just seen was the last one
  have hseen : ∀ a f, last a (Link.pending n { l with calls := calls }) = none →
      last a call = some f → (f = true ↔ a ∈ n.stored) := by
    intro a f hnone hf
    apply h.tell a f
    rw [hpending, hnone, hf]
    rfl
  have hunseen : ∀ a, last a (Link.pending n { l with calls := calls }) = none →
      last a call = none → last a (l.pending n) = none := by
    intro a hnone hcall
    rw [hpending, hnone, hcall]
    rfl
  constructor
  · intro a f hf
    apply h.tell a f
    have hlate : last a (Link.pending n { l with calls := calls }) = some f := hf
    rw [hpending, hlate]
    rfl
  · intro a hnone hmem
    rcases mem_replay.mp hmem with htrue | ⟨hcall, hin⟩
    · exact (hseen a true hnone htrue).mp rfl
    · exact h.stored a (hunseen a hnone hcall) hin
  · intro a hnone hmem
    by_cases hcall : last a call = none
    · refine (h.known a (hunseen a hnone hcall) hmem).mono ?_ ?_
      · rfl
      · exact fun hin => mem_replay.mpr (Or.inr ⟨hcall, hin⟩)
    · obtain ⟨f, hf⟩ := Option.ne_none_iff_exists'.mp hcall
      have htrue : f = true := (hseen a f hnone hf).mpr hmem
      exact Link.Knows.of_mem (mem_replay.mpr (Or.inl (htrue ▸ hf)))

theorem Link.Current.step {l' : Link A} (h : l.Current n) (hbook : n._address_book = n.stored)
    (hm : l.Meets n a) (hs : l.step n a = some l') : l'.Current n := by
  unfold Link.step at hs
  cases a with
  | kouncil_fetch_entries =>
    cases hl : l.fetch with
    | asked =>
      simp only [hl, Option.some.injEq] at hs
      exact hs ▸ h.answer hbook
    | replied entries => simp [hl] at hs
    | done => simp [hl] at hs
  | _fetch_entries =>
    cases hl : l.fetch with
    | replied entries =>
      simp only [hl, Option.some.injEq] at hs
      exact hs ▸ h.fetched hl hm
    | asked => simp [hl] at hs
    | done => simp [hl] at hs
  | kouncil_change_entries =>
    cases hl : l.calls with
    | nil => simp [hl] at hs
    | cons call calls =>
      simp only [hl, Option.some.injEq] at hs
      exact hs ▸ h.change hl
  | _ => cases hs

theorem Current.link_step {w' : World A} (h : Current w) (hm : Meets w a)
    (hs : (w.link.bind (·.step w.node a)).map (fun l => { w with link := some l }) = some w') :
    Current w' := by
  rw [Option.map_eq_some_iff] at hs
  obtain ⟨l', hl', rfl⟩ := hs
  obtain ⟨l, hl, hstep⟩ := Option.bind_eq_some_iff.mp hl'
  refine ⟨h.book, h.tell, ?_⟩
  intro l'' hl''
  simp only [Option.some.injEq] at hl''
  subst hl''
  exact (h.link l hl).step h.book (hm l hl) hstep

theorem Current.step {w' : World A} (h : Current w) (hm : Meets w a) (hs : step w a = some w') :
    Current w' := by
  cases a with
  | store a =>
    cases hs
    exact h.store a
  | remove a =>
    cases hs
    exact h.remove a
  | _broadcast more =>
    simp only [kouncil.step, Option.ite_none_right_eq_some, Option.some.injEq] at hs
    exact hs.2 ▸ h.broadcast hm
  | connect =>
    simp only [kouncil.step, Option.ite_none_right_eq_some, Option.some.injEq] at hs
    exact hs.2 ▸ h.connect
  | disconnect =>
    simp only [kouncil.step, Option.ite_none_right_eq_some, Option.some.injEq] at hs
    exact hs.2 ▸ h.disconnect
  | kouncil_fetch_entries => exact h.link_step hm hs
  | _fetch_entries => exact h.link_step hm hs
  | kouncil_change_entries => exact h.link_step hm hs

theorem _register_local_current (stored : Finset A) : Current (_register_local stored) := by
  refine ⟨rfl, ?_, ?_⟩
  · intro a f hf
    cases hf
  · intro l hl
    cases hl

/-! ## The entries of a peer -/

/-- In a run where no batch ends the events of a block otherwise than it starts them, and where no
fetched entry is put back after its removal was seen, a peer that has everything holds the entries
of the stored blocks. -/
theorem entries_are_the_stored_blocks_while_the_last_event_counts {stored : Finset A}
    {as : List (Action A)} {w : World A} (h : Run step Meets (_register_local stored) as w)
    {l : Link A} (hl : w.link = some l) (hdelivered : l.Delivered w.node) :
    l.entries = w.node.stored := by
  have hcurrent : Current w :=
    h.invariant (_register_local_current stored) fun _ _ _ hc hm hs => hc.step hm hs
  obtain ⟨hfetch, hcalls, hqueue⟩ := hdelivered
  have hnone : ∀ a, last a (l.pending w.node) = none := by
    intro a
    unfold Link.pending
    rw [hcalls, hqueue]
    rfl
  have hpeer := hcurrent.link l hl
  ext a
  constructor
  · exact hpeer.stored a (hnone a)
  · intro hmem
    have hknows := hpeer.known a (hnone a) hmem
    unfold Link.Knows at hknows
    rw [hfetch] at hknows
    exact hknows

/-- A peer connects while a block is stored, and another one is removed later. -/
theorem a_peer_follows_a_store_and_a_removal :
    ∃ w : World Nat, ∃ l, w.link = some l ∧ l.entries = w.node.stored ∧ w.node.stored = {2} := by
  have hrun : exec step Meets (_register_local {1}) [.connect, .store 2, .kouncil_fetch_entries,
      ._broadcast 0, .kouncil_change_entries, ._fetch_entries, .remove 1, ._broadcast 0,
      .kouncil_change_entries] = some ⟨⟨{2}, {2}, []⟩, some ⟨[], .done, {2}⟩⟩ := by
    decide
  exact ⟨_, _, rfl, entries_are_the_stored_blocks_while_the_last_event_counts (Run.of_exec hrun) rfl
    ⟨rfl, rfl, rfl⟩, rfl⟩

/-- A block is stored and removed before the thread runs: the batch says that it is stored. -/
theorem a_batch_announces_a_removed_block :
    ¬∀ (stored : Finset Nat) (as : List (Action Nat)) (w : World Nat) (l : Link Nat),
      Run step anyStep (_register_local stored) as w → w.link = some l → l.Delivered w.node →
        l.entries = w.node.stored := by
  intro h
  have hrun : exec step anyStep (_register_local {1}) [.connect, .kouncil_fetch_entries,
      ._fetch_entries, .store 2, .remove 2, ._broadcast 1, .kouncil_change_entries] =
        some ⟨⟨{1}, {1}, []⟩, some ⟨[], .done, {2, 1}⟩⟩ := by
    decide
  have heq := h _ _ _ _ (Run.of_exec hrun) rfl ⟨rfl, rfl, rfl⟩
  revert heq
  decide

end memo.overlay.kouncil
