-- The checks of the blocks that a node keeps. A block comes in by `store`, by
-- `accept` or by `propagate`. It was checked, is under its own address, and was
-- accepted by the block that it replaced, as long as the calls pass the address
-- of the block, `propagate` passes a block that is valid, and what was read
-- before a check is still there after it.
import Memo.PeerTasks
import Memo.Reconcile

open athena.paxos runs

namespace memo

variable {B A R : Type}

/-! ## What the node keeps -/

/-- The block is on the node: an immutable block, or a block of an acceptor that is stored, in
the cache, or in use. -/
def Present [LinearOrder A] (s : Peer B A R) (a : A) (b : B) : Prop :=
  s.node.peer.storage a = some (.block b) ∨
  (∃ d, s.node.peer.storage a = some (.paxos d) ∧ b ∈ blocks d) ∨
  ∃ o e, (s.node.peer.cached a = some o ∨ ∃ task ∈ s.tasks, ∃ c, task.uses = some (a, o, c)) ∧
    s.node.heap[o]? = some e ∧ b ∈ blocks e.2

/-- Each block on the node passed its check and is under its own address, and each block that took
the place of another one was accepted by it. -/
structure Validated [LinearOrder A] (model : Model B A R) (s : Peer B A R) : Prop where
  valid : ∀ a b, Present s a b → model.validate b = .success ∧ model.address b = a
  replaced : ∀ put ∈ s.node.log, ∀ c, put.replaced = some c →
    model.validate_next c put.block = .success

/-- After a wait the node holds what it held before: the acceptor serves the block that checked
the new one, no immutable block is in the place of the acceptor, and what is stored in the place
of an immutable block is what was read. -/
def Unchanged [Inhabited A] (model : Model B A R) (node : Node B A) : Task B A R → Prop
  | .comparing _ _ _ _ o previous =>
    ∀ e, node.heap[o]? = some e → current_block e.2 = some previous
  | .saving a _ _ _ => ∀ b, node.peer.storage a ≠ some (.block b)
  | .writing b _ previous =>
    (node.peer.storage (model.address b)).bind LocalPeer.last_block = previous
  | _ => True

/-- What the code leaves to its callers, and to luck: `accept` is called with the address of the
block, `propagate` with a block that is valid, and after a wait the node holds what it held when
the block was checked. -/
def Checked [Inhabited A] (model : Model B A R) (s : Peer B A R) : Action B A R → Prop
  | .call (.accept _ a _ (.value b)) => model.address b = a
  | .call (.propagate _ b _) => model.validate b = .success
  | .call _ => True
  | .resume t _ => ∀ task, s.tasks[t]? = some task → Unchanged model s.node task

instance [DecidableEq B] [Inhabited A] (model : Model B A R) (node : Node B A) :
    (task : Task B A R) → Decidable (Unchanged model node task)
  | .comparing _ _ _ _ o previous =>
    inferInstanceAs (Decidable (∀ e ∈ node.heap[o]?, current_block e.2 = some previous))
  | .saving a _ _ _ =>
    match h : node.peer.storage a with
    | some (.block b) => isFalse fun hn => hn b h
    | some (.paxos d) => isTrue fun b hb => by rw [h] at hb; cases hb
    | none => isTrue fun b hb => by rw [h] at hb; cases hb
  | .writing b _ previous =>
    inferInstanceAs (Decidable
      ((node.peer.storage (model.address b)).bind LocalPeer.last_block = previous))
  | .validating _ => isTrue trivial
  | .fetching _ _ => isTrue trivial
  | .expanding _ _ _ => isTrue trivial
  | .electing _ _ _ _ _ => isTrue trivial
  | .gathering _ _ => isTrue trivial
  | .allowing _ _ _ => isTrue trivial
  | .erasing _ => isTrue trivial
  | .reading _ _ => isTrue trivial
  | .replacing _ _ _ => isTrue trivial
  | .done => isTrue trivial

instance [DecidableEq B] [LinearOrder A] [Inhabited A] (model : Model B A R) (s : Peer B A R) :
    (act : Action B A R) → Decidable (Checked model s act)
  | .call (.accept _ a _ (.value b)) => inferInstanceAs (Decidable (model.address b = a))
  | .call (.propagate _ b _) => inferInstanceAs (Decidable (model.validate b = .success))
  | .resume t _ =>
    inferInstanceAs (Decidable (∀ task ∈ s.tasks[t]?, Unchanged model s.node task))
  | .call (.accept _ _ _ (.quorum _)) => isTrue trivial
  | .call (.load _) => isTrue trivial
  | .call (.propose _ _ _ _) => isTrue trivial
  | .call (.confirm _ _ _) => isTrue trivial
  | .call (.get _ _) => isTrue trivial
  | .call (.evict _ _) => isTrue trivial
  | .call (.store _ _) => isTrue trivial
  | .call (.remove _ _) => isTrue trivial
  | .call (.reconcile _) => isTrue trivial
  | .call (.inspect _) => isTrue trivial

/-! ## The blocks of an acceptor -/

/-- The blocks of the acceptor are valid, and the one to confirm follows the committed one. -/
structure Sound (model : Model B A R) (a : A) (d : Server B A) : Prop where
  valid : ∀ b ∈ blocks d, model.validate b = .success ∧ model.address b = a
  follows : ∀ b c, unconfirmed d = some b → d.value = some c →
    model.validate_next c b = .success

variable {model : Model B A R} {a : A} {d d' : Server B A}

/-- The block that is accepted and confirmed. -/
def confirmed_block (st : VersionState B A) : Option B :=
  match st with
  | ⟨_, some ⟨_, .value b, true⟩⟩ => some b
  | _ => none

theorem current_block_of_state [Inhabited A] {st : VersionState B A} (hs : d.state = some st) :
    current_block d = (confirmed_block st).or d.value := by
  have hcommitted : ∃ p, d.committed_value = d.value.map fun v => ⟨p, .value v, true⟩ := by
    unfold Server.committed_value Server.current_proposal
    cases hv : d.value with
    | none => exact ⟨st.proposal, rfl⟩
    | some v =>
      simp only [hs]
      split_ifs
      · exact ⟨_, rfl⟩
      · exact ⟨_, rfl⟩
      · simp_all
  obtain ⟨label, hlabel⟩ := hcommitted
  obtain ⟨p, acc⟩ := st
  simp only [current_block, LocalPeer.last_block, Server.current_value, hs, hlabel]
  rcases acc with _ | ⟨ap, v, confirmed⟩
  · cases d.value <;> rfl
  · cases v with
    | quorum q => cases d.value <;> rfl
    | value b =>
      cases confirmed with
      | true => rfl
      | false => cases d.value <;> rfl

theorem current_block_of_unconfirmed [Inhabited A] {st : VersionState B A} (hs : d.state = some st)
    (hc : st.confirmed = false) : current_block d = d.value := by
  have hnone : confirmed_block st = none := by
    unfold confirmed_block
    split
    · cases hc
    · rfl
  rw [current_block_of_state hs, hnone, Option.none_or]

variable {c : Call B A R} {counted : Nat → Bool} {s : Peer B A R} {b : B}

theorem current_block_unconfirmed [Inhabited A] (h : unconfirmed d = some b) :
    current_block d = d.value := by
  unfold unconfirmed at h
  split at h
  · rename_i hs
    exact current_block_of_unconfirmed hs rfl
  · cases h

theorem mem_blocks_of_value (h : d.value = some b) : b ∈ blocks d := by
  simp [blocks, h]

theorem Sound.of_blocks (h : Sound model a d) (hb : ∀ b ∈ blocks d', b ∈ blocks d)
    (hu : unconfirmed d' = none) : Sound model a d' := by
  refine ⟨fun b hm => h.valid b (hb b hm), ?_⟩
  intro b c hb'
  rw [hu] at hb'
  cases hb'

theorem Sound.new {id : A} {q : Finset A} {value : Option B} {version : elle.Version}
    (hv : ∀ b, value = some b → model.validate b = .success ∧ model.address b = a) :
    Sound model a (Server.new id q value version) := by
  refine ⟨?_, ?_⟩
  · intro b hb
    simp only [blocks, Server.new, List.append_nil, Option.mem_toList] at hb
    exact hv b hb
  · intro b c hu
    cases hu

theorem Sound.propose [LinearOrder A] [Inhabited A] (h : Sound model a d) (q : Finset A)
    (p : Proposal A) :
    Sound model a (d.propose q p).2 := by
  refine Server.propose_rule (P := fun _ d' => Sound model a d') ?_
  intro res d' hd
  cases hd with
  | failed e => exact h
  | newer hs hv => exact h
  | first hs => exact h.of_blocks (fun b hb => mem_blocks_of_value (by simpa [blocks] using hb)) rfl
  | next hs hv hc =>
    rename_i sp acc
    refine h.of_blocks ?_ rfl
    intro b hb
    obtain ⟨ap, v, confirmed⟩ := acc
    cases v <;> simp_all [blocks, Server.commit]
  | skip hs hv hp hc =>
    exact h.of_blocks (fun b hb => mem_blocks_of_value (by simpa [blocks] using hb)) rfl
  | raise hs hlt hv =>
    rename_i st
    obtain ⟨sp, acc⟩ := st
    have hb : blocks ({ d with state := some ⟨p, acc⟩ } : Server B A) = blocks d := by
      unfold blocks
      rw [hs]
      rcases acc with _ | ⟨ap, v, confirmed⟩
      · rfl
      · cases v <;> rfl
    have hu : unconfirmed ({ d with state := some ⟨p, acc⟩ } : Server B A) = unconfirmed d := by
      unfold unconfirmed
      rw [hs]
      rcases acc with _ | ⟨ap, v, confirmed⟩
      · rfl
      · cases v <;> cases confirmed <;> rfl
    exact ⟨by rw [hb]; exact h.valid, by rw [hu]; exact h.follows⟩
  | refused hs hle => exact h

theorem Sound.accept_quorum [LinearOrder A] [Inhabited A] (h : Sound model a d) (peers : Finset A)
    (p : Proposal A) (q : Finset A) : Sound model a (d.accept peers p (.quorum q)).2 := by
  refine Server.accept_rule (P := fun _ d' => Sound model a d') ?_
  intro res d' hd
  cases hd with
  | failed e => exact h
  | obsolete hs hlt => exact h
  | accepted hs hp =>
    exact h.of_blocks (fun b hb => mem_blocks_of_value (by simpa [blocks] using hb)) rfl

theorem Sound.accept_block [LinearOrder A] [Inhabited A] (h : Sound model a d) (peers : Finset A)
    (p : Proposal A) (hv : model.validate b = .success ∧ model.address b = a)
    (hf : ∀ c, current_block d = some c → model.validate_next c b = .success) :
    Sound model a (d.accept peers p (.value b)).2 := by
  refine Server.accept_rule (P := fun _ d' => Sound model a d') ?_
  intro res d' hd
  cases hd with
  | failed e => exact h
  | obsolete hs hlt => exact h
  | accepted hs hp =>
    rename_i st
    refine ⟨?_, ?_⟩
    · intro b' hb'
      simp only [blocks, List.mem_append, Option.mem_toList, List.mem_singleton] at hb'
      rcases hb' with hb' | rfl
      · exact h.valid b' (mem_blocks_of_value hb')
      · exact hv
    · intro b' c hu hc
      -- nothing was confirmed yet, so the committed block is the one that is served
      unfold unconfirmed at hu
      simp only at hu
      split at hu
      · rename_i heq
        simp only [Option.some.injEq, VersionState.mk.injEq, Accepted.mk.injEq,
          Value.value.injEq] at heq hu
        obtain ⟨-, -, rfl, hconf⟩ := heq
        subst hu
        exact hf c ((current_block_of_unconfirmed hs hconf).trans hc)
      · cases hu

theorem Sound.confirm [LinearOrder A] [Inhabited A] (h : Sound model a d) (q : Finset A)
    (p : Proposal A) :
    Sound model a (d.confirm q p).2 := by
  refine Server.confirm_rule (P := fun _ d' => Sound model a d') ?_
  intro res d' hd
  cases hd with
  | failed e => exact h
  | obsolete hs hv => exact h
  | already hs hle hv ha => exact h
  | confirmed hs hle hv ha =>
    rename_i sp acc
    obtain ⟨ap, v, confirmed⟩ := acc
    apply h.of_blocks
    · intro b hb
      cases v <;> simp_all [blocks]
    · cases v <;> rfl

theorem Sound.elect [LinearOrder A] [Inhabited A] (h : Sound model a d) (q : Finset A)
    (p : Proposal A) :
    Sound model a (LocalPeer.elect d q p).2 := by
  unfold LocalPeer.elect
  have hp := h.propose q p
  cases hd : d.propose q p with
  | mk res d₁ =>
    rw [hd] at hp
    cases res with
    | error e => exact hp
    | ok r =>
      have ha := hp.accept_quorum q p q
      simp only
      cases hd₁ : d₁.accept q p (.quorum q) with
      | mk res d₂ =>
        rw [hd₁] at ha
        cases res with
        | error e => exact ha
        | ok r => exact ha.confirm q p

/-! ## The node from one wait to the next -/

/-- What is stored for the address. -/
def SoundData (model : Model B A R) (a : A) : BlockOrPaxos B A → Prop
  | .block b => model.validate b = .success ∧ model.address b = a
  | .paxos d => Sound model a d

/-- All that the node keeps is sound, and so were all the replacements. -/
structure Good (model : Model B A R) (node : Node B A) : Prop where
  stored : ∀ a x, node.peer.storage a = some x → SoundData model a x
  heap : ∀ e ∈ node.heap, Sound model e.1 e.2
  entries : ∀ e ∈ node.peer.addresses, ∃ d, node.heap[e.2]? = some (e.1, d)
  replaced : ∀ put ∈ node.log, ∀ c, put.replaced = some c →
    model.validate_next c put.block = .success

/-- The call may go on with the block that it brings to the address. -/
def Admitted (model : Model B A R) (a : A) : Call B A R → Prop
  | .accept _ _ _ (.value b) => model.validate b = .success ∧ model.address b = a
  | .propagate _ b _ => model.validate b = .success ∧ model.address b = a
  | _ => True

/-- What was checked before the wait. -/
def Prepared (model : Model B A R) : Task B A R → Prop
  | .validating (.accept _ a _ (.value b)) => model.address b = a
  | .fetching a c => Admitted model a c
  | .comparing _ a _ b _ _ => model.validate b = .success ∧ model.address b = a
  | .saving a _ data _ => Sound model a data
  | .reading b _ => model.validate b = .success
  | .replacing b _ _ => model.validate b = .success
  | .writing b _ previous => model.validate b = .success ∧
      ∀ c, previous = some c → model.validate_next c b = .success
  | _ => True

/-- A call in progress: what it checked, and the acceptor that it refers to. -/
structure Ready (model : Model B A R) (node : Node B A) (task : Task B A R) : Prop where
  prepared : Prepared model task
  refers : ∀ a o c, task.uses = some (a, o, c) → ∃ d, node.heap[o]? = some (a, d)

/-- The acceptors keep their places, and the addresses they are for. -/
def Grows (node node' : Node B A) : Prop :=
  ∀ (o : Nat) (a : A) (d : Server B A), node.heap[o]? = some (a, d) →
    ∃ d', node'.heap[o]? = some (a, d')

/-- What a part of a call leaves. -/
structure Yields (model : Model B A R) (node : Node B A) (r : Node B A × Task B A R) : Prop where
  good : Good model r.1
  ready : Ready model r.1 r.2
  grows : Grows node r.1

variable {node node' : Node B A} {o : Nat}

theorem Grows.refl : Grows node node := fun _ _ d h => ⟨d, h⟩

theorem Grows.trans {node'' : Node B A} (h : Grows node node') (h' : Grows node' node'') :
    Grows node node'' := by
  intro o a d hd
  obtain ⟨d', hd'⟩ := h o a d hd
  exact h' o a d' hd'

theorem Ready.grows {task : Task B A R} (h : Ready model node task) (he : Grows node node') :
    Ready model node' task := by
  refine ⟨h.prepared, ?_⟩
  intro a o c hu
  obtain ⟨d, hd⟩ := h.refers a o c hu
  exact he o a d hd

theorem Good.waits (h : Good model node) (task : Task B A R) (hp : Prepared model task)
    (hu : task.uses = none) : Yields model node (node, task) :=
  ⟨h, ⟨hp, fun a o c hu' => by simp [hu] at hu'⟩, Grows.refl⟩

theorem Good.ends (h : Good model node) : Yields model node (node, (.done : Task B A R)) :=
  h.waits .done trivial rfl

theorem Good.waits_using {c : Bool} (h : Good model node) (task : Task B A R)
    (hp : Prepared model task) (hu : task.uses = some (a, o, c))
    (hd : ∃ d, node.heap[o]? = some (a, d)) : Yields model node (node, task) := by
  refine ⟨h, ⟨hp, ?_⟩, Grows.refl⟩
  intro a' o' c' hu'
  simp only [hu, Option.some.injEq, Prod.mk.injEq] at hu'
  obtain ⟨rfl, rfl, -⟩ := hu'
  exact hd

theorem Yields.of_grows {r : Node B A × Task B A R} (h : Yields model node' r)
    (he : Grows node node') : Yields model node r :=
  ⟨h.good, h.ready, he.trans h.grows⟩

theorem Good.sound (h : Good model node) (hd : node.heap[o]? = some (a, d)) : Sound model a d :=
  h.heap (a, d) (List.mem_of_getElem? hd)

theorem write_getElem? (hd : node.heap[o]? = some (a, d)) (d' : Server B A) :
    (node.write a o d').heap[o]? = some (a, d') := by
  obtain ⟨ho, -⟩ := List.getElem?_eq_some_iff.mp hd
  exact List.getElem?_set_self ho

theorem grows_write (hd : node.heap[o]? = some (a, d)) (d' : Server B A) :
    Grows node (node.write a o d') := by
  intro o' a' x hx
  by_cases ho : o = o'
  · subst ho
    rw [hd, Option.some.injEq, Prod.mk.injEq] at hx
    rw [← hx.1]
    exact ⟨d', write_getElem? hd d'⟩
  · exact ⟨x, by rw [Node.write, List.getElem?_set_ne ho]; exact hx⟩

theorem Good.write (h : Good model node) (hd : node.heap[o]? = some (a, d))
    (hs : Sound model a d') : Good model (node.write a o d') := by
  refine ⟨h.stored, ?_, ?_, h.replaced⟩
  · intro e he
    rcases List.mem_or_eq_of_mem_set he with he | rfl
    · exact h.heap e he
    · exact hs
  · intro e he
    obtain ⟨x, hx⟩ := h.entries e he
    exact grows_write hd d' e.2 e.1 x hx

theorem Good.put {replaced : Option B} (h : Good model node)
    (hr : ∀ c, replaced = some c → model.validate_next c b = .success) :
    Good model (node.put a b replaced) := by
  refine { h with replaced := ?_ }
  intro put hput c hc
  rcases List.mem_append.mp hput with hput | hput
  · exact h.replaced put hput c hc
  · rw [List.mem_singleton.mp hput] at hc ⊢
    exact hr c hc

theorem Good.of_addresses {peer : LocalPeer B A Nat} (h : Good model node)
    (hs : peer.storage = node.peer.storage) (ha : peer.addresses ⊆ node.peer.addresses) :
    Good model { node with peer := peer } := by
  refine ⟨?_, h.heap, fun e he => h.entries e (ha he), h.replaced⟩
  rw [hs]
  exact h.stored

theorem Good.drop [LinearOrder A] (h : Good model node) : Good model (node.drop a) :=
  h.of_addresses rfl (List.filter_subset_self _)

theorem Good.save {α : Type} {confirm : Option Bool} {result : Except (Error A) α × Server B A}
    (h : Good model node) (hd : node.heap[o]? = some (a, d)) (hs : Sound model a result.2) :
    Yields model node (node.save a o confirm result) := by
  unfold Node.save
  have hw := h.write hd hs
  have he := grows_write hd result.2
  split
  · have hp : ∀ confirm, Prepared model (.saving a o _ confirm : Task B A R) := fun _ => hs
    cases confirm with
    | none => exact (hw.waits_using _ (hp none) rfl ⟨_, write_getElem? hd _⟩).of_grows he
    | some had_value =>
      exact (hw.waits_using _ (hp (some had_value)) rfl ⟨_, write_getElem? hd _⟩).of_grows he
  · exact Yields.of_grows hw.ends he

variable [LinearOrder A] [Inhabited A]

theorem Good.accept_block {peers : Finset A} {p : Proposal A} (h : Good model node)
    (hd : node.heap[o]? = some (a, d)) (hv : model.validate b = .success ∧ model.address b = a)
    (hf : ∀ c, current_block d = some c → model.validate_next c b = .success) :
    Yields model node (node.accept peers a p (.value b) o d) := by
  have hs := (h.sound hd).accept_block peers p hv hf
  unfold Node.accept
  simp only
  split_ifs
  · exact ((h.put hf).save hd hs).of_grows Grows.refl
  · exact h.save hd hs

theorem Good.confirm {peers : Finset A} {p : Proposal A} (h : Good model node)
    (hd : node.heap[o]? = some (a, d)) : Yields model node (node.confirm peers a p o d) := by
  have hs := (h.sound hd).confirm peers p
  unfold Node.confirm
  simp only
  split
  · rename_i b hu _
    refine Yields.of_grows (Good.save (h.put ?_) hd hs) Grows.refl
    intro c hc
    rw [current_block_unconfirmed hu] at hc
    exact (h.sound hd).follows b c hu hc
  · exact h.save hd hs

theorem Good.loaded (h : Good model node) (hd : ∃ d, node.heap[o]? = some (a, d))
    (hc : Admitted model a c) : Yields model node (node.loaded a o c) := by
  obtain ⟨d, hd⟩ := hd
  have hs := h.sound hd
  unfold Node.loaded
  rw [hd]
  cases c with
  | propose peers a' p insert => exact h.save hd (hs.propose peers p)
  | accept peers a' p value =>
    cases value with
    | quorum q => exact h.save hd (hs.accept_quorum peers p q)
    | value b =>
      simp only
      split
      · rename_i b' previous heq hb
        cases heq
        exact h.waits_using (.comparing peers a p b o previous) hc rfl ⟨d, hd⟩
      · rename_i hnone
        apply h.accept_block hd hc
        intro c hcur
        exact (hnone b c rfl hcur).elim
  | confirm peers a' p => exact h.confirm hd
  | propagate q b p => exact h.save hd (hs.elect q p)
  | evict lost_id blocks => exact h.waits_using (.electing lost_id blocks a o _) trivial rfl ⟨d, hd⟩
  | reconcile a' => exact h.waits_using (.gathering a o) trivial rfl ⟨d, hd⟩
  | remove a' rs =>
    simp only
    split
    · exact h.waits (.allowing a _ rs) trivial rfl
    · exact h.waits (.erasing a) trivial rfl
  | inspect a' =>
    simp only
    split
    · exact h.ends
    · split_ifs
      · exact Yields.of_grows h.drop.ends Grows.refl
      · exact h.ends
  | _ => exact h.ends

omit [Inhabited A] in
theorem Good.index {immutable : Bool} {quorum : Finset A} (h : Good model node) :
    Good model (node.index a immutable quorum) :=
  h.of_addresses rfl (List.Subset.refl _)

theorem Good.load (h : Good model node) (hc : Admitted model a c) :
    Yields model node (node.load a c) := by
  unfold Node.load
  split
  · rename_i o ho
    have hm := LocalPeer.mem_of_cached ho
    have hu : Good model { node with peer := node.peer.use a o } := by
      refine { h with entries := ?_ }
      intro e he
      simp only [LocalPeer.use, List.mem_append, List.mem_filter, List.mem_singleton] at he
      rcases he with he | rfl
      · exact h.entries e he.1
      · exact h.entries (a, o) hm
    exact Yields.of_grows (hu.loaded (h.entries (a, o) hm) hc) Grows.refl
  · exact h.waits (.fetching a c) hc rfl

theorem Good.evict_next {lost_id : A} {blocks : List A} (h : Good model node) :
    Yields model node (node.evict_next lost_id blocks) := by
  cases blocks with
  | nil => exact h.ends
  | cons a blocks => exact h.load (c := .evict lost_id blocks) trivial

theorem Good.loaded_block (h : Good model node) :
    Yields model node (node.loaded_block model a b c) := by
  cases c with
  | confirm peers a' p => exact Yields.of_grows h.index.ends Grows.refl
  | evict lost_id blocks =>
    simp only [Node.loaded_block]
    split
    · exact h.ends
    · split_ifs
      · exact Yields.of_grows h.index.evict_next Grows.refl
      · exact h.evict_next
  | remove a' rs => exact h.waits (.allowing a b rs) trivial rfl
  | _ => exact h.ends

omit [Inhabited A] in
theorem Good.load_decision (counted : Nat → Bool) (h : Good model node) (hs : Sound model a d) :
    Good model (node._load_decision counted a d).1 ∧
      Grows node (node._load_decision counted a d).1 ∧
      ∃ d', (node._load_decision counted a d).1.heap[(node._load_decision counted a d).2]? =
        some (a, d') := by
  have hcached : (LocalPeer._cache a false d.current_quorum node.peer).cached a =
      node.peer.cached a := rfl
  unfold Node._load_decision
  simp only [hcached]
  cases hc : node.peer.cached a with
  | some o =>
    refine ⟨h.of_addresses rfl (LocalPeer.unload_suffix _).subset, Grows.refl, ?_⟩
    exact h.entries (a, o) (LocalPeer.mem_of_cached hc)
  | none =>
    have hgrows : ∀ (o : Nat) (e : A × Server B A), node.heap[o]? = some e →
        (node.heap ++ [(a, d)])[o]? = some e := by
      intro o e he
      rw [List.getElem?_append_left (List.getElem?_eq_some_iff.mp he).1]
      exact he
    have hnew : (node.heap ++ [(a, d)])[node.heap.length]? = some (a, d) := by simp
    refine ⟨⟨h.stored, ?_, ?_, h.replaced⟩, fun o a' x hx => ⟨x, hgrows o _ hx⟩, d, hnew⟩
    · intro e he
      rcases List.mem_append.mp he with he | he
      · exact h.heap e he
      · rw [List.mem_singleton.mp he]
        exact hs
    · intro e he
      rcases List.mem_append.mp ((LocalPeer.unload_suffix _).subset he) with he | he
      · obtain ⟨x, hx⟩ := h.entries e he
        exact ⟨x, hgrows _ _ hx⟩
      · rw [List.mem_singleton.mp he]
        exact ⟨d, hnew⟩

theorem Good.missing (h : Good model node) (hc : Admitted model a c) :
    Yields model node (node.missing counted a c) := by
  cases c with
  | propose peers a' p insert =>
    cases insert with
    | false => exact h.ends
    | true =>
      have hs : Sound model a (Server.new node.peer.id peers none node.peer.version) :=
        Sound.new fun b hb => by cases hb
      obtain ⟨hg, hgrows, hd⟩ := h.load_decision counted hs
      exact Yields.of_grows (hg.loaded (c := .propose peers a' p true) hd trivial) hgrows
  | propagate q b p =>
    have hs : Sound model a (Server.new node.peer.id q (some b) node.peer.version) := by
      apply Sound.new
      intro b' hb
      cases hb
      exact hc
    obtain ⟨hg, hgrows, hd⟩ := h.load_decision counted hs
    simp only [Node.missing]
    split_ifs
    · exact Yields.of_grows (Good.loaded (hg.put fun _ hr => by cases hr) hd hc) hgrows
    · exact Yields.of_grows (hg.loaded hd hc) hgrows
  | reconcile a' => exact h.waits (.erasing a) trivial rfl
  | _ => exact h.ends

theorem Good.fetched (h : Good model node) (hc : Admitted model a c) :
    Yields model node (node.fetched model counted a c) := by
  unfold Node.fetched
  cases hs : node.peer.storage a with
  | none => exact h.missing hc
  | some x =>
    cases x with
    | block b =>
      simp only
      split_ifs
      · exact h.waits (.expanding a b c) trivial rfl
      · exact h.loaded_block
    | paxos d =>
      obtain ⟨hg, hgrows, hd⟩ := h.load_decision counted (h.stored a _ hs)
      exact Yields.of_grows (hg.loaded hd hc) hgrows

theorem Good.start (h : Good model node)
    (haccept : ∀ peers a p b, c = .accept peers a p (.value b) → model.address b = a)
    (hpropagate : ∀ q b p, c = .propagate q b p → model.validate b = .success) :
    Yields model node (node.start model c) := by
  cases c with
  | load a => exact h.load trivial
  | propose peers a p insert => exact h.load trivial
  | accept peers a p value =>
    cases value with
    | value b => exact h.waits _ (haccept peers a p b rfl) rfl
    | quorum q => exact h.load trivial
  | confirm peers a p => exact h.load trivial
  | get peers a => exact h.load trivial
  | propagate q b p =>
    simp only [Node.start]
    split_ifs
    · exact h.ends
    · exact h.load (by exact ⟨hpropagate q b p rfl, rfl⟩)
  | evict lost_id blocks => exact h.evict_next
  | store b mode => exact h.waits (.validating (.store b mode)) trivial rfl
  | remove a rs => exact h.load trivial
  | reconcile a =>
    simp only [Node.start]
    split_ifs
    · exact h.load trivial
    · exact h.ends
  | inspect a => exact h.load trivial

omit [Inhabited A] in
theorem Good.set_acceptor {data : Server B A} (h : Good model node) (hs : Sound model a data)
    (hb : ∀ b, node.peer.storage a ≠ some (.block b)) : Good model (node.set_acceptor a data) := by
  refine ⟨?_, h.heap, h.entries, ?_⟩
  · intro a' x hx
    by_cases ha : a' = a
    · subst ha
      simp only [Node.set_acceptor, Function.update_self, Option.some.injEq] at hx
      subst hx
      exact hs
    · simp only [Node.set_acceptor, Function.update_of_ne ha] at hx
      exact h.stored a' x hx
  · intro put hput
    have hlog : (node.set_acceptor a data).log = node.log := by
      simp only [Node.set_acceptor, List.append_nil]
    rw [hlog] at hput
    exact h.replaced put hput

theorem Good.set_block {mode : StoreMode} (h : Good model node) (hv : model.validate b = .success)
    (hf : ∀ c, (node.peer.storage (model.address b)).bind LocalPeer.last_block = some c →
      model.validate_next c b = .success) : Good model (node.set_block model b mode) := by
  have hset : Good model { node.put (model.address b) b
        ((node.peer.storage (model.address b)).bind LocalPeer.last_block) with
      peer := { node.peer with
        storage := Function.update node.peer.storage (model.address b) (some (.block b)) } } := by
    have hput := h.put (a := model.address b) hf
    refine ⟨?_, h.heap, h.entries, hput.replaced⟩
    intro a' x hx
    by_cases ha : a' = model.address b
    · subst ha
      simp only [Function.update_self, Option.some.injEq] at hx
      subst hx
      exact ⟨hv, rfl⟩
    · simp only [Function.update_of_ne ha] at hx
      exact h.stored a' x hx
  unfold Node.set_block
  simp only
  split
  · exact hset
  · exact hset
  · exact h

omit [Inhabited A] in
theorem Good.erase (h : Good model node) :
    Good model { node with peer := LocalPeer.erase a node.peer } := by
  refine ⟨?_, h.heap, fun e he => h.entries e (List.mem_filter.mp he).1, h.replaced⟩
  intro a' x hx
  by_cases ha : a' = a
  · subst ha
    simp [LocalPeer.erase] at hx
  · simp only [LocalPeer.erase, Function.update_of_ne ha] at hx
    exact h.stored a' x hx

theorem Good.resume {task : Task B A R} {news : News A} {r : Node B A × Task B A R}
    (h : Good model node) (ht : Ready model node task) (hc : Unchanged model node task)
    (hr : node.resume model counted task news = some r) :
    Yields model node r := by
  cases Node.resume_cases hr with
  | ended task => exact h.ends
  | admitted hv => exact h.load (by exact ⟨hv, ht.prepared⟩)
  | valid hv => exact h.waits (.reading _ _) hv rfl
  | fetched => exact h.fetched ht.prepared
  | expanded q => exact Yields.of_grows h.index.loaded_block Grows.refl
  | compared hn hd =>
    rename_i peers a p b o previous e
    obtain ⟨d, hd'⟩ := ht.refers a o true rfl
    rw [hd, Option.some.injEq] at hd'
    subst hd'
    apply h.accept_block hd ht.prepared
    intro c hcur
    -- the block that is served is still the one that was asked
    rw [hc (a, d) hd, Option.some.injEq] at hcur
    rw [← hcur]
    exact hn
  | saved =>
    exact Yields.of_grows (h.set_acceptor ht.prepared hc).ends Grows.refl
  | stays q =>
    exact Yields.of_grows (h.set_acceptor ht.prepared hc).index.ends
      Grows.refl
  | leaves =>
    have hset := h.set_acceptor ht.prepared hc
    exact Yields.of_grows (hset.waits (.erasing _) trivial rfl) Grows.refl
  | elected => exact h.evict_next
  | again q' => exact h.waits_using (.electing _ _ _ _ q') trivial rfl (ht.refers _ _ false rfl)
  | lost => exact h.waits (.erasing _) trivial rfl
  | allowed => exact h.waits (.erasing _) trivial rfl
  | erased hs => exact Yields.of_grows h.erase.ends Grows.refl
  | nothing => exact h.waits (.writing _ _ none) ⟨ht.prepared, fun _ hn => by cases hn⟩ rfl
  | previous c => exact h.waits (.replacing _ _ c) ht.prepared rfl
  | replaced hn =>
    refine h.waits (.writing _ _ (some _)) ⟨ht.prepared, fun c hp => ?_⟩ rfl
    cases hp
    exact hn
  | written =>
    rename_i b mode previous
    obtain ⟨hv, hnext⟩ := ht.prepared
    have hset : Good model (node.set_block model b mode) := by
      refine h.set_block hv fun c hcur => hnext c ?_
      rw [← hcur]
      exact hc.symm
    apply Yields.of_grows hset.ends
    intro o' a' x hx
    refine ⟨x, ?_⟩
    unfold Node.set_block
    simp only
    split <;> exact hx

/-! ## Whole runs -/

/-- All that the node keeps is sound, and so are the calls in progress. -/
structure AllGood (model : Model B A R) (s : Peer B A R) : Prop where
  good : Good model s.node
  ready : ∀ task ∈ s.tasks, Ready model s.node task

theorem step_all_good {s' : Peer B A R} {act : Action B A R} (h : AllGood model s)
    (hc : Checked model s act) (hs : s.step model act = some s') : AllGood model s' := by
  cases act with
  | call c =>
    simp only [Peer.step] at hs
    split_ifs at hs
    cases hs
    have hy : Yields model s.node (s.node.start model c) := by
      apply h.good.start
      · rintro peers a p b rfl
        exact hc
      · rintro q b p rfl
        exact hc
    refine ⟨hy.good, fun task ht => ?_⟩
    rcases List.mem_append.mp ht with ht | ht
    · exact (h.ready task ht).grows hy.grows
    · rw [List.mem_singleton.mp ht]
      exact hy.ready
  | resume t news =>
    simp only [Peer.step] at hs
    cases ht : s.tasks[t]? with
    | none => simp [ht] at hs
    | some task =>
      simp only [ht] at hs
      obtain ⟨r, hr, rfl⟩ := Option.map_eq_some_iff.mp hs
      have hy : Yields model s.node r :=
        h.good.resume (h.ready task (List.mem_of_getElem? ht)) (hc task ht) hr
      refine ⟨hy.good, fun task' ht' => ?_⟩
      rcases List.mem_or_eq_of_mem_set ht' with ht' | rfl
      · exact (h.ready task' ht').grows hy.grows
      · exact hy.ready

omit [Inhabited A] in
theorem AllGood.validated (h : AllGood model s) : Validated model s := by
  refine ⟨?_, h.good.replaced⟩
  rintro a b (hb | ⟨d, hd, hb⟩ | ⟨o, e, hu, he, hb⟩)
  · exact h.good.stored a _ hb
  · exact Sound.valid (h.good.stored a _ hd) b hb
  · have hd : ∃ d, s.node.heap[o]? = some (a, d) := by
      rcases hu with hu | ⟨task, ht, c, hu⟩
      · exact h.good.entries (a, o) (LocalPeer.mem_of_cached hu)
      · exact (h.ready task ht).refers a o c hu
    obtain ⟨d, hd⟩ := hd
    rw [he, Option.some.injEq] at hd
    subst hd
    exact (h.good.sound he).valid b hb

/-- A node that starts: no acceptor is loaded and no call is in progress, and what is stored was
checked. -/
structure Clean (model : Model B A R) (s : Peer B A R) : Prop where
  tasks : s.tasks = []
  heap : s.node.heap = []
  addresses : s.node.peer.addresses = []
  log : s.node.log = []
  stored : ∀ a x, s.node.peer.storage a = some x → SoundData model a x

omit [LinearOrder A] [Inhabited A] in
theorem Clean.all_good (h : Clean model s) : AllGood model s := by
  refine ⟨⟨h.stored, ?_, ?_, ?_⟩, ?_⟩
  · simp [h.heap]
  · simp [h.addresses]
  · simp [h.log]
  · simp [h.tasks]

/-- In each state of a run whose steps are checked, each block on the node is valid, under its own
address, and was accepted by the block that it replaced. -/
theorem blocks_are_validated_while_steps_are_checked (model : Model B A R) (s s' : Peer B A R)
    (acts : List (Action B A R)) (h : Clean model s)
    (hrun : Run (Peer.step model) (Checked model) s acts s') : Validated model s' := by
  have hgood : AllGood model s' :=
    hrun.invariant h.all_good fun _ _ _ hi hc hs => step_all_good hi hc hs
  exact hgood.validated

/-- Blocks that are numbers: the address, and then a version. The version 9 is forged, and a block
accepts the later ones. -/
def versioned : Model Nat Nat Unit where
  address b := b / 10
  immutable b := b / 10 < 5
  mutable_block a := 5 ≤ a
  validate b := if b % 10 = 9 then .failure "forged" else .success
  validate_next c b := if c < b then .success else .conflict "older"
  validate_remove _ _ := .success

/-- A node without any block. -/
def empty : Peer Nat Nat Unit where
  node :=
    { peer :=
        { id := 1
          version := ⟨0, 4, 0⟩
          factor := 3
          rebalance_auto_expand := true
          max_addresses_size := 100
          storage := fun _ => none
          addresses := []
          quorums := fun _ => none
          node_blocks := ∅ }
      heap := []
      log := [] }
  tasks := []

/-- The blocks of the acceptor that is stored. -/
def stored_blocks (s : Peer Nat Nat Unit) (a : Nat) : List Nat :=
  match s.node.peer.storage a with
  | some (.paxos d) => blocks d
  | _ => []

/-- A block is propagated, and the next one is accepted after it. -/
theorem a_second_version_is_validated :
    ∃ s, Run (Peer.step versioned) (Checked versioned) empty
        [.call (.propagate {1, 2} 51 ⟨1, 0, 1⟩), .resume 0 .proceed, .resume 0 .proceed,
          .call (.propose {1, 2} 5 ⟨2, 0, 2⟩ false), .resume 1 .proceed,
          .call (.accept {1, 2} 5 ⟨2, 0, 2⟩ (.value 52)), .resume 2 .proceed, .resume 2 .proceed,
          .resume 2 .proceed] s ∧
      stored_blocks s 5 = [51, 52] ∧ Validated versioned s := by
  have hexec : (exec (Peer.step versioned) (Checked versioned) empty
      [.call (.propagate {1, 2} 51 ⟨1, 0, 1⟩), .resume 0 .proceed, .resume 0 .proceed,
        .call (.propose {1, 2} 5 ⟨2, 0, 2⟩ false), .resume 1 .proceed,
        .call (.accept {1, 2} 5 ⟨2, 0, 2⟩ (.value 52)), .resume 2 .proceed, .resume 2 .proceed,
        .resume 2 .proceed]).map (stored_blocks · 5) = some [51, 52] := by decide +kernel
  obtain ⟨s, hrun, hblocks⟩ := Run.of_exec_map hexec
  exact ⟨s, hrun, hblocks, blocks_are_validated_while_steps_are_checked versioned empty s _
    ⟨rfl, rfl, rfl, rfl, fun _ _ h => by cases h⟩ hrun⟩

/-- A forged block is propagated, and the node keeps it. -/
theorem a_propagated_block_is_not_validated :
    Clean versioned empty ∧
    ∃ s, Run (Peer.step versioned) anyStep empty
        [.call (.propagate {1, 2} 59 ⟨1, 0, 1⟩), .resume 0 .proceed, .resume 0 .proceed] s ∧
      stored_blocks s 5 = [59] ∧ versioned.validate 59 = .failure "forged" ∧
      ¬ Validated versioned s := by
  have hexec : (exec (Peer.step versioned) anyStep empty
      [.call (.propagate {1, 2} 59 ⟨1, 0, 1⟩), .resume 0 .proceed, .resume 0 .proceed]).map
      (stored_blocks · 5) = some [59] := by decide +kernel
  obtain ⟨s, hrun, hblocks⟩ := Run.of_exec_map hexec
  refine ⟨⟨rfl, rfl, rfl, rfl, fun _ _ h => by cases h⟩, s, hrun, hblocks, rfl, fun hv => ?_⟩
  have hp : Present s 5 59 := by
    refine Or.inr (Or.inl ?_)
    unfold stored_blocks at hblocks
    split at hblocks
    · rename_i d hd
      exact ⟨d, hd, by simp [hblocks]⟩
    · cases hblocks
  exact absurd (hv.valid 5 59 hp).1 (by decide)

end memo
