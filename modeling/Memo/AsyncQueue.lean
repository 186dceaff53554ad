-- The indices of the queue: those of the operations, those that wait in memory and the first one
-- on disk stay aligned as long as a squash leaves no hole behind the first one on disk, and the
-- loop does not run out of indices in between.
import Memo.AsyncSeals

open stores runs

namespace memo.consensus

variable {A B D R S : Type}

/-! ## Operations by their index -/

theorem emplace_last {op : Op A B R S} {ops : List (Op A B R S)}
    (h : ∀ o ∈ ops, o.index < op.index) : emplace op ops = ops ++ [op] := by
  induction ops with
  | nil => rfl
  | cons o ops ih =>
    have ho := h o (by simp)
    have hrest : ∀ o ∈ ops, o.index < op.index := fun o ho => h o (by simp [ho])
    rw [emplace, if_neg (by omega), if_neg (by omega), ih hrest]
    rfl

namespace Async

variable {env : Blocks A B D R S} {s s' : Async A B R S} {op cop : Op A B R S}

/-! ## What a squash finds -/

variable {ops : List (Op A B R S)} {t : Table Int (File A B R S)} {i : Int}

theorem search_mem {r : R} {last : Option (Op A B R S × Squash)} {found : Op A B R S × Squash}
    (h : search env r ops last = some found) :
    found.1 ∈ ops ∧ found.1.resolver ≠ [] ∨ last = some found := by
  induction ops generalizing last with
  | nil => exact Or.inr h
  | cons o ops ih =>
    have hrest : ∀ {last}, search env r ops last = some found →
        found.1 ∈ o :: ops ∧ found.1.resolver ≠ [] ∨ last = some found := by
      intro last h
      rcases ih h with ⟨hmem, hne⟩ | hlast
      · exact Or.inl ⟨by simp [hmem], hne⟩
      · exact Or.inr hlast
    rw [search] at h
    split at h
    · exact hrest h
    · rename_i hne
      have hself : ∀ {order}, some (o, order) = some found →
          found.1 ∈ o :: ops ∧ found.1.resolver ≠ [] := by
        intro order heq
        rw [← Option.some.inj heq]
        exact ⟨by simp, hne⟩
      split at h
      · exact Or.inr h
      · exact hrest h
      · exact Or.inl (hself h)
      · exact Or.inl (hself h)
      · exact (hrest h).elim Or.inl fun hlast => Or.inl (hself hlast)
      · exact (hrest h).elim Or.inl fun hlast => Or.inl (hself hlast)

theorem squash_spec [DecidableEq A] {order : Squash} (h : squash env s op = some (cop, order)) :
    ∃ current rest, s._operations = current :: rest ∧ cop ∈ s._operations ∧
      cop.index ≠ current.index ∧ cop.address = op.address ∧ cop.resolver ≠ [] := by
  unfold squash at h
  split at h
  · cases h
  split_ifs at h
  rcases search_mem h with ⟨hmem, hne⟩ | hlast
  · unfold candidates at hmem
    split at hmem
    · cases hmem
    · rename_i current rest hops
      simp only [List.mem_reverse, List.mem_filter, decide_eq_true_eq] at hmem
      exact ⟨current, rest, hops, hmem.1, hmem.2.2, hmem.2.1, hne⟩
  · cases hlast

theorem squash_none [DecidableEq A] (h : op.resolver = []) : squash env s op = none := by
  unfold squash
  rw [h]

theorem queue_cases (h : queue env op s = some s') :
    (∃ f, s._first_disk_index = some f ∧ s' = s.emplace_op env { op with block := none }) ∨
      (s._first_disk_index = none ∧ s.Full ∧ s._journal_dir.isSome ∧
        s' = { s with _first_disk_index := some op.index }.emplace_op env
          { op with block := none }) ∨
      (s._first_disk_index = none ∧ ¬s.Full ∧
        s' = (s.put_index op.index).emplace_op env op) := by
  unfold queue at h
  split at h
  · rename_i f hf
    exact Or.inl ⟨f, hf, (Option.some.inj h).symm⟩
  · rename_i hf
    split_ifs at h with hfull hj
    · exact Or.inr (Or.inl ⟨hf, hfull, hj, (Option.some.inj h).symm⟩)
    · exact Or.inr (Or.inr ⟨hf, hfull, (Option.some.inj h).symm⟩)

theorem queue_journaled (env : Blocks A B D R S) (op : Op A B R S) (h : s._journal_dir.isSome) :
    (queue env op s).isSome := by
  unfold queue
  split
  · rfl
  · rw [if_pos h]
    split_ifs <;> rfl

/-- What a push does first, once nothing is left to squash: the operation gets an index and goes to
the journal. -/
def written (op : Op A B R S) (s : Async A B R S) : Async A B R S :=
  fs (saved { op with index := s._next_index + 1 }) { s with _next_index := s._next_index + 1 }

theorem enqueue_cases (h : enqueue env op s = some s') :
    (s.waiting.isSome ∧ s.flushing = false ∧
      s' = { written op s with
        _reentered_ops := s._reentered_ops ++ [{ op with index := s._next_index + 1 }] }) ∨
      (s.waiting = none ∧
        queue env { op with index := s._next_index + 1 } (written op s) = some s') ∨
      (s.waiting = none ∧
        queue env { op with index := s._next_index + 1 } (written op s) = none ∧
          s' = { written op s with waiting := some { op with index := s._next_index + 1 } }) := by
  unfold enqueue at h
  dsimp only at h
  split at h
  · rename_i w hw
    have hw' : s.waiting = some w := hw
    split_ifs at h with hflushing
    have hflushing' : ¬s.flushing = true := hflushing
    exact Or.inl ⟨by rw [hw']; rfl, by simpa using hflushing', (Option.some.inj h).symm⟩
  · rename_i hw
    cases hq : queue env { op with index := s._next_index + 1 } (written op s) with
    | some s'' =>
      refine Or.inr (Or.inl ⟨hw, ?_⟩)
      rw [← h]
      congr 1
      exact (congrArg (Option.getD · _) hq).symm
    | none =>
      refine Or.inr (Or.inr ⟨hw, rfl, ?_⟩)
      rw [← Option.some.inj h]
      exact congrArg (Option.getD · _) hq

theorem push_cases [DecidableEq A] (h : _push_op env op s = some s') :
    squash env s op = none ∧ enqueue env op s = some s' ∨
      (∃ cop order, squash env s op = some (cop, order) ∧ order.first = true ∧
        s' = overwrite env cop op s) ∨
      ∃ cop order, squash env s op = some (cop, order) ∧ order.first = false ∧
        enqueue env (merged_last env cop op) (s.erase cop) = some s' := by
  unfold _push_op at h
  split at h
  · rename_i hnone
    exact Or.inl ⟨hnone, h⟩
  · rename_i cop order hsome
    split_ifs at h with hfirst
    · exact Or.inr (Or.inl ⟨cop, order, hsome, hfirst, (Option.some.inj h).symm⟩)
    · exact Or.inr (Or.inr ⟨cop, order, hsome, by simpa using hfirst, h⟩)

/-! ## What a file holds after a change -/

theorem find_saved (t : Table Int (File A B R S)) (op : Op A B R S) :
    find ((saved op).foldl Fs.run t) = Function.update (find t) op.index (some (some op)) := by
  simp [saved, Fs.run, find_put]

theorem find_removed (t : Table Int (File A B R S)) (index : Int) :
    find ([Fs.remove index].foldl Fs.run t) = Function.update (find t) index none := by
  simp [Fs.run, find_put]

/-! ## Indices -/

/-- The indices of the operations. -/
def indices (s : Async A B R S) : List Int := s._operations.map Op.index

/-- The index of the operation that the loop processes. -/
def busy (s : Async A B R S) : Option Int :=
  match s.loop with
  | .calling op | .sleeping op => some op.index
  | _ => none

/-- Each operation is in the journal. -/
def Readable (s : Async A B R S) : Prop :=
  ∃ t, s._journal_dir = some t ∧ ∀ i ∈ s.indices, ∃ op, find t i = some (some op)

/-- How the indices in memory, those that wait for the loop and the first one on disk stand. -/
structure Aligned (s : Async A B R S) : Prop where
  readable : s.Readable
  alone : s.waiting = none
  ascending : s.indices.Pairwise (· < ·)
  numbered : ∀ i ∈ s.indices, i ≤ s._next_index
  queued : s._queue.Pairwise (· < ·)
  queued_numbered : ∀ i ∈ s._queue, i ≤ s._next_index
  reached : ∀ i ∈ s.indices, i ∈ s._queue ∨ s.busy = some i ∨
    ∃ f, s._first_disk_index = some f ∧ f ≤ i
  designates : ∀ f, s._first_disk_index = some f → f ∈ s.indices ∧ ∀ i ∈ s._queue, i < f
  head : ∀ i, s.busy = some i → s.indices.head? = some i ∧ (∀ j ∈ s._queue, i < j) ∧
    ∀ f, s._first_disk_index = some f → i < f
  awake : s._first_disk_index.isSome → s._queue = [] → s.loop ≠ .getting
  running : s.loop ≠ .aborted
  in_order : (s.done.map Op.index).Pairwise (· < ·)
  past : ∀ i ∈ s.done.map Op.index, i ≤ s._next_index ∧ ∀ j ∈ s.indices, i < j

theorem Readable.fs_saved (h : s.Readable)
    (hops : ∀ i ∈ ops.map Op.index, i ∈ s.indices ∨ i = op.index) :
    Readable (fs (saved op) { s with _operations := ops }) := by
  obtain ⟨t, ht, hread⟩ := h
  refine ⟨(saved op).foldl Fs.run t, by simp [fs, ht], fun i hi => ?_⟩
  rw [find_saved]
  by_cases hop : i = op.index
  · exact ⟨op, by rw [hop, Function.update_self]⟩
  · rw [Function.update_of_ne hop]
    exact hread i ((hops i hi).resolve_right hop)

theorem overwrite_indices : (overwrite env cop op s).indices = s.indices := by
  simp only [indices, overwrite, fs, List.map_map]
  apply List.map_congr_left
  intro o _
  by_cases ho : o.index = cop.index <;> simp [merged_first, ho]

theorem Aligned.overwrite (h : Aligned s) : Aligned (overwrite env cop op s) := by
  have hindices : (Async.overwrite env cop op s).indices = s.indices := overwrite_indices
  constructor
  · apply h.readable.fs_saved
    intro i hi
    left
    rw [← hindices]
    exact hi
  · exact h.alone
  · rw [hindices]
    exact h.ascending
  · rw [hindices]
    exact h.numbered
  · exact h.queued
  · exact h.queued_numbered
  · rw [hindices]
    exact h.reached
  · rw [hindices]
    exact h.designates
  · rw [hindices]
    exact h.head
  · exact h.awake
  · exact h.running
  · exact h.in_order
  · rw [hindices]
    exact h.past

/-- What a squash at the last position does to the first index on disk. -/
def Leaves (s : Async A B R S) (index : Int) : Prop :=
  s._first_disk_index = some index → (∃ i ∈ s.indices, index < i) → index + 1 ∈ s.indices

theorem erase_indices : (s.erase cop).indices = s.indices.filter fun i => i ≠ cop.index := by
  simp only [indices, erase, fs, List.filter_map]
  rfl

theorem Aligned.last_index (h : Aligned s) (hi : i ∈ s.indices) :
    i ≤ (s._operations.getLast?.map Op.index).getD 0 := by
  have hascending := h.ascending
  unfold indices at hi hascending
  rcases List.eq_nil_or_concat s._operations with hnil | ⟨ops, last, hops⟩
  · simp [hnil] at hi
  · rw [hops] at hi hascending ⊢
    simp only [List.concat_eq_append, List.map_append, List.pairwise_append] at hi hascending ⊢
    simp only [List.map_cons, List.map_nil, List.mem_append, List.mem_singleton] at hi hascending
    rcases hi with hi | rfl
    · have hlt := hascending.2.2 i hi _ rfl
      simp
      omega
    · simp

theorem erase_first (h : Aligned s) (hcop : cop.index ∈ s.indices)
    (hleaves : s.Leaves cop.index) {f : Int} (hf : (s.erase cop)._first_disk_index = some f) :
    f ∈ (s.erase cop).indices ∧ ∃ f₀, s._first_disk_index = some f₀ ∧ f₀ ≤ f := by
  rw [erase_indices]
  simp only [erase, fs] at hf
  split_ifs at hf with hcop' hlast
  · -- the first one on disk goes, and the next index takes its place
    have hf' : cop.index + 1 = f := Option.some.inj hf
    have hnext : cop.index + 1 ∈ s.indices := by
      apply hleaves hcop'
      rcases List.eq_nil_or_concat s._operations with hnil | ⟨ops, last, hops⟩
      · simp [indices, hnil] at hcop
      · simp only [hops, List.concat_eq_append, List.getLast?_concat, Option.map_some,
          Option.getD_some] at hlast
        exact ⟨last.index, by simp [indices, hops], by omega⟩
    refine ⟨?_, cop.index, hcop', by omega⟩
    simp only [List.mem_filter, decide_eq_true_eq, ← hf']
    exact ⟨hnext, by omega⟩
  · refine ⟨?_, f, hf, le_refl f⟩
    simp only [List.mem_filter, decide_eq_true_eq]
    refine ⟨(h.designates f hf).1, ?_⟩
    rintro rfl
    exact hcop' hf

theorem Aligned.erase (h : Aligned s) {current : Op A B R S} {rest : List (Op A B R S)}
    (hops : s._operations = current :: rest) (hcop : cop ∈ s._operations)
    (hcurrent : cop.index ≠ current.index) (hleaves : s.Leaves cop.index) :
    Aligned (s.erase cop) := by
  have hindices : (s.erase cop).indices = _ := erase_indices
  have hmem : ∀ i, i ∈ (s.erase cop).indices ↔ i ∈ s.indices ∧ i ≠ cop.index := by
    intro i
    rw [hindices]
    simp
  have hcop' : cop.index ∈ s.indices := List.mem_map_of_mem hcop
  have hfirst := fun f hf => erase_first h hcop' hleaves (f := f) hf
  constructor
  · obtain ⟨t, ht, hread⟩ := h.readable
    refine ⟨[Fs.remove cop.index].foldl Fs.run t, by simp [Async.erase, fs, ht], fun i hi => ?_⟩
    obtain ⟨hi, hne⟩ := (hmem i).mp hi
    rw [find_removed, Function.update_of_ne hne]
    exact hread i hi
  · exact h.alone
  · rw [hindices]
    exact h.ascending.filter _
  · exact fun i hi => h.numbered i ((hmem i).mp hi).1
  · exact h.queued
  · exact h.queued_numbered
  · intro i hi
    obtain ⟨hi', hne⟩ := (hmem i).mp hi
    rcases h.reached i hi' with hq | hb | ⟨f₀, hf₀, hle⟩
    · exact Or.inl hq
    · exact Or.inr (Or.inl hb)
    · right
      right
      by_cases hc : s._first_disk_index = some cop.index
      · -- an operation after the one that goes
        obtain rfl : cop.index = f₀ := Option.some.inj (hc.symm.trans hf₀)
        have hlast := h.last_index hi'
        refine ⟨cop.index + 1, ?_, by omega⟩
        simp only [Async.erase, fs, if_pos hc]
        rw [if_neg (by omega)]
      · refine ⟨f₀, ?_, hle⟩
        simp only [Async.erase, fs, if_neg hc]
        exact hf₀
  · intro f hf
    obtain ⟨hf', f₀, hf₀, hle⟩ := hfirst f hf
    exact ⟨hf', fun i hi => ((h.designates f₀ hf₀).2 i hi).trans_le hle⟩
  · intro i hi
    obtain ⟨hhead, hqueue, hdisk⟩ := h.head i hi
    refine ⟨?_, hqueue, fun f hf => ?_⟩
    · rw [hindices, indices, hops, List.map_cons, List.filter_cons_of_pos (by simpa using
        hcurrent.symm)]
      rw [indices, hops] at hhead
      exact hhead
    · obtain ⟨-, f₀, hf₀, hle⟩ := hfirst f hf
      exact (hdisk f₀ hf₀).trans_le hle
  · intro hf
    obtain ⟨f, hf⟩ := Option.isSome_iff_exists.mp hf
    obtain ⟨-, f₀, hf₀, -⟩ := hfirst f hf
    exact h.awake (Option.isSome_iff_exists.mpr ⟨f₀, hf₀⟩)
  · exact h.running
  · exact h.in_order
  · exact fun i hi => ⟨(h.past i hi).1, fun j hj => (h.past i hi).2 j ((hmem j).mp hj).1⟩

/-- The loop waits for an index, and there is no room for one. -/
def Stalled (s : Async A B R S) : Prop := s.loop = .getting ∧ s._queue = [] ∧ s.Full

/-- An operation with an index above all the others comes in, in memory and in the journal. It is
queued, or left to the journal from the first index on disk on. -/
structure Enqueued (s s' : Async A B R S) (new : Int) : Prop where
  above : ∀ i ∈ s.indices ++ s._queue ++ s.done.map Op.index, i < new
  indices : s'.indices = s.indices ++ [new]
  next : s._next_index ≤ s'._next_index ∧ new ≤ s'._next_index
  readable : s'.Readable
  waiting : s'.waiting = none
  loop : s'.loop = s.loop
  done : s'.done = s.done
  place : s'._queue = s._queue ++ [new] ∧ s._first_disk_index = none ∧
      s'._first_disk_index = none ∨
    s'._queue = s._queue ∧ ∃ f, s'._first_disk_index = some f ∧
      (s._first_disk_index = some f ∨ s._first_disk_index = none ∧ s.Full ∧ f = new)

theorem emplace_indices (h : ∀ i ∈ ops.map Op.index, i < op.index) :
    (emplace op ops).map Op.index = ops.map Op.index ++ [op.index] := by
  rw [emplace_last fun o ho => h o.index (List.mem_map_of_mem ho), List.map_append]
  rfl

theorem enqueued (h : Aligned s) (hs : enqueue env op s = some s') :
    Enqueued s s' (s._next_index + 1) := by
  obtain ⟨t, ht, hread⟩ := h.readable
  have hj : (written op s)._journal_dir.isSome := by simp [written, fs, ht]
  have hqueue : queue env { op with index := s._next_index + 1 } (written op s) = some s' := by
    rcases enqueue_cases hs with ⟨hw, -⟩ | ⟨-, hq⟩ | ⟨-, hnone, -⟩
    · rw [h.alone] at hw
      cases hw
    · exact hq
    · have hsome := queue_journaled env { op with index := s._next_index + 1 } hj
      rw [hnone] at hsome
      cases hsome
  have hbelow : ∀ i ∈ s.indices, i < s._next_index + 1 := fun i hi => by
    have hle := h.numbered i hi
    omega
  have habove : ∀ i ∈ s.indices ++ s._queue ++ s.done.map Op.index, i < s._next_index + 1 := by
    intro i hi
    rw [List.mem_append, List.mem_append] at hi
    rcases hi with (hi | hi) | hi
    · exact hbelow i hi
    · have hle := h.queued_numbered i hi
      omega
    · have hle := (h.past i hi).1
      omega
  have hindices : ∀ o : Op A B R S, o.index = s._next_index + 1 →
      (emplace o s._operations).map Op.index = s.indices ++ [s._next_index + 1] := by
    intro o ho
    rw [emplace_indices (ho ▸ hbelow), ho]
    rfl
  have hreadable : ∀ {s₁ : Async A B R S}, s₁._journal_dir = (written op s)._journal_dir →
      s₁.indices = s.indices ++ [s._next_index + 1] → s₁.Readable := by
    intro s₁ hj₁ hi₁
    refine ⟨_, hj₁.trans (by rw [written, fs, ht]; rfl), fun i hi => ?_⟩
    rw [find_saved]
    rw [hi₁, List.mem_append, List.mem_singleton] at hi
    by_cases hop : i = s._next_index + 1
    · exact ⟨_, by rw [hop, Function.update_self]⟩
    · rw [Function.update_of_ne hop]
      exact hread i (hi.resolve_right hop)
  have hnext : s._next_index ≤ s._next_index + 1 := by omega
  rcases queue_cases hqueue with ⟨f, hf, rfl⟩ | ⟨hf, hfull, -, rfl⟩ | ⟨hf, -, rfl⟩
  · exact ⟨habove, hindices _ rfl, ⟨hnext, le_refl _⟩, hreadable rfl (hindices _ rfl), h.alone,
      rfl, rfl, Or.inr ⟨rfl, f, hf, Or.inl hf⟩⟩
  · exact ⟨habove, hindices _ rfl, ⟨hnext, le_refl _⟩, hreadable rfl (hindices _ rfl), h.alone,
      rfl, rfl, Or.inr ⟨rfl, _, rfl, Or.inr ⟨hf, hfull, rfl⟩⟩⟩
  · exact ⟨habove, hindices _ rfl, ⟨hnext, le_refl _⟩, hreadable rfl (hindices _ rfl), h.alone,
      rfl, rfl, Or.inl ⟨rfl, hf, hf⟩⟩

theorem busy_congr (h : s'.loop = s.loop) : s'.busy = s.busy := by
  unfold busy
  rw [h]

theorem Aligned.enqueued (h : Aligned s) {new : Int} (he : Enqueued s s' new)
    (hroom : ¬s.Stalled) : Aligned s' := by
  have hbusy := busy_congr he.loop
  have hnew : ∀ i ∈ s.indices, i < new := fun i hi => he.above i (by simp [hi])
  have hnew' : ∀ i ∈ s._queue, i < new := fun i hi => he.above i (by simp [hi])
  have hqueue : ∀ i ∈ s'._queue, i ∈ s._queue ∨ i = new := by
    intro i hi
    rcases he.place with ⟨hq, -⟩ | ⟨hq, -⟩
    · rw [hq, List.mem_append, List.mem_singleton] at hi
      exact hi
    · exact Or.inl (hq ▸ hi)
  have hmem : ∀ i, i ∈ s'.indices ↔ i ∈ s.indices ∨ i = new := fun i => by
    rw [he.indices, List.mem_append, List.mem_singleton]
  constructor
  · exact he.readable
  · exact he.waiting
  · rw [he.indices, List.pairwise_append]
    refine ⟨h.ascending, List.pairwise_singleton _ _, fun i hi j hj => ?_⟩
    rw [List.mem_singleton.mp hj]
    exact hnew i hi
  · intro i hi
    rcases (hmem i).mp hi with hi | rfl
    · exact (h.numbered i hi).trans he.next.1
    · exact he.next.2
  · rcases he.place with ⟨hq, -⟩ | ⟨hq, -⟩
    · rw [hq, List.pairwise_append]
      refine ⟨h.queued, List.pairwise_singleton _ _, fun i hi j hj => ?_⟩
      rw [List.mem_singleton.mp hj]
      exact hnew' i hi
    · rw [hq]
      exact h.queued
  · intro i hi
    rcases hqueue i hi with hi | rfl
    · exact (h.queued_numbered i hi).trans he.next.1
    · exact he.next.2
  · intro i hi
    rw [hbusy]
    rcases he.place with ⟨hq, hf, -⟩ | ⟨hq, f, hf', hf⟩
    · rcases (hmem i).mp hi with hi | rfl
      · rcases h.reached i hi with hreach | hreach | ⟨f, hf', -⟩
        · exact Or.inl (by simp [hq, hreach])
        · exact Or.inr (Or.inl hreach)
        · rw [hf] at hf'
          cases hf'
      · exact Or.inl (by simp [hq])
    · rcases (hmem i).mp hi with hi | rfl
      · rcases h.reached i hi with hreach | hreach | ⟨f₀, hf₀, hle⟩
        · exact Or.inl (hq ▸ hreach)
        · exact Or.inr (Or.inl hreach)
        · rcases hf with hf | ⟨hf, -, -⟩
          · rw [hf₀] at hf
            exact Or.inr (Or.inr ⟨f, hf', Option.some.inj hf ▸ hle⟩)
          · rw [hf₀] at hf
            cases hf
      · refine Or.inr (Or.inr ⟨f, hf', ?_⟩)
        rcases hf with hf | ⟨-, -, rfl⟩
        · exact (hnew f (h.designates f hf).1).le
        · exact le_refl _
  · intro f hf
    rw [hmem]
    rcases he.place with ⟨-, -, hnone⟩ | ⟨hq, f', hf', hold⟩
    · rw [hnone] at hf
      cases hf
    · obtain rfl : f' = f := Option.some.inj (hf'.symm.trans hf)
      rw [hq]
      rcases hold with hold | ⟨-, -, rfl⟩
      · exact ⟨Or.inl (h.designates f' hold).1, (h.designates f' hold).2⟩
      · exact ⟨Or.inr rfl, hnew'⟩
  · intro i hi
    rw [hbusy] at hi
    obtain ⟨hhead, hlt, hdisk⟩ := h.head i hi
    have hi' : i ∈ s.indices := List.mem_of_head? hhead
    refine ⟨?_, fun j hj => ?_, fun f hf => ?_⟩
    · rw [he.indices, List.head?_append, hhead]
      rfl
    · rcases hqueue j hj with hj | rfl
      · exact hlt j hj
      · exact hnew i hi'
    · rcases he.place with ⟨-, -, hnone⟩ | ⟨-, f', hf', hold⟩
      · rw [hnone] at hf
        cases hf
      · obtain rfl : f' = f := Option.some.inj (hf'.symm.trans hf)
        rcases hold with hold | ⟨-, -, rfl⟩
        · exact hdisk f' hold
        · exact hnew i hi'
  · intro hf hq
    rw [he.loop]
    rcases he.place with ⟨hq', -, hnone⟩ | ⟨hq', f, hf', hold⟩
    · rw [hnone] at hf
      cases hf
    · rcases hold with hold | ⟨-, hfull, -⟩
      · exact h.awake (by rw [hold]; rfl) (hq' ▸ hq)
      · exact fun hloop => hroom ⟨hloop, hq' ▸ hq, hfull⟩
  · rw [he.loop]
    exact h.running
  · rw [he.done]
    exact h.in_order
  · intro i hi
    rw [he.done] at hi
    refine ⟨(h.past i hi).1.trans he.next.1, fun j hj => ?_⟩
    rcases (hmem j).mp hj with hj | rfl
    · exact (h.past i hi).2 j hj
    · exact he.above i (by simp_all)

/-! ## The loop -/

/-- What a reload changes. It takes some of the operations, unless the queue is full. -/
structure Reloaded (s s' : Async A B R S) (ops : List (Op A B R S)) : Prop where
  split : ∃ ready rest, ops = ready ++ rest ∧ s'._queue = s._queue ++ ready.map Op.index ∧
    s'._first_disk_index = rest.head?.map Op.index ∧ (¬s.Full → ops ≠ [] → ready ≠ [])
  indices : s'.indices = s.indices
  next : s'._next_index = s._next_index
  journal : s'._journal_dir = s._journal_dir
  waiting : s'.waiting = s.waiting
  loop : s'.loop = s.loop
  done : s'.done = s.done

theorem load_readable [Inhabited S] (env : Blocks A B D R S) (h : s.Readable) (hi : i ∈ s.indices)
    (signature : Bool) : (s._load_op env i signature).isSome := by
  obtain ⟨t, ht, hread⟩ := h
  obtain ⟨op, hop⟩ := hread i hi
  simp [_load_op, ht, hop]

theorem reload_spec [Inhabited S] (env : Blocks A B D R S) (h : s.Readable)
    (hops : ∀ op ∈ ops, op.index ∈ s.indices) : Reloaded s (reload env ops s) ops := by
  induction ops generalizing s with
  | nil =>
    refine ⟨⟨[], [], rfl, ?_, rfl, ?_⟩, rfl, rfl, rfl, rfl, rfl, rfl⟩
    · simp [reload]
    · exact fun _ hne => absurd rfl hne
  | cons op ops ih =>
    rw [reload]
    split_ifs with hfull
    · refine ⟨⟨[], op :: ops, rfl, ?_, rfl, ?_⟩, rfl, rfl, rfl, rfl, rfl, rfl⟩
      · simp
      · exact fun hroom => absurd hfull hroom
    · have hop : op.index ∈ s.indices := hops op (by simp)
      obtain ⟨l, hl⟩ := Option.isSome_iff_exists.mp (load_readable env h hop true)
      rw [hl]
      dsimp only
      generalize hs' : ({ s.put_index op.index with
        _operations := s._operations.map fun o => if o.index = op.index then { op with
          block := l.block, mode := l.mode, resolver := l.resolver
          remove_signature := l.remove_signature } else o } : Async A B R S) = s'
      have hindices : s'.indices = s.indices := by
        rw [← hs']
        simp only [Async.indices, List.map_map]
        apply List.map_congr_left
        intro o _
        by_cases ho : o.index = op.index <;> simp [ho]
      have hjournal : s'._journal_dir = s._journal_dir := by rw [← hs']; rfl
      have hread : s'.Readable := by
        unfold Readable
        rw [hjournal, hindices]
        exact h
      have hr := ih hread fun o ho => hindices ▸ hops o (by simp [ho])
      obtain ⟨ready, rest, hsplit, hqueue, hfirst, -⟩ := hr.split
      have hnext : s'._next_index = s._next_index := by rw [← hs']; rfl
      have hwaiting : s'.waiting = s.waiting := by rw [← hs']; rfl
      have hloop : s'.loop = s.loop := by rw [← hs']; rfl
      have hdone : s'.done = s.done := by rw [← hs']; rfl
      have hput : s'._queue = s._queue ++ [op.index] := by rw [← hs']; rfl
      refine ⟨⟨op :: ready, rest, by rw [hsplit]; rfl, ?_, hfirst, fun _ _ => by simp⟩,
        hr.indices.trans hindices, hr.next.trans hnext, hr.journal.trans hjournal,
        hr.waiting.trans hwaiting, hr.loop.trans hloop, hr.done.trans hdone⟩
      rw [hqueue, hput, List.map_cons, List.append_assoc]
      rfl

theorem dropWhile_spec {f : Int} (hf : f ∈ ops.map Op.index)
    (hascending : (ops.map Op.index).Pairwise (· < ·)) :
    ∃ before op after, ops = before ++ op :: after ∧ op.index = f ∧
      ops.dropWhile (fun op => op.index ≠ f) = op :: after ∧ ∀ o ∈ before, o.index < f := by
  induction ops with
  | nil => cases hf
  | cons o ops ih =>
    rw [List.map_cons, List.pairwise_cons] at hascending
    by_cases ho : o.index = f
    · refine ⟨[], o, ops, rfl, ho, ?_, by simp⟩
      rw [List.dropWhile_cons_of_neg (by simpa using ho)]
    · rw [List.map_cons, List.mem_cons] at hf
      have hf' := hf.resolve_left (Ne.symm ho)
      obtain ⟨before, op, after, hops, hop, hdrop, hbefore⟩ := ih hf' hascending.2
      refine ⟨o :: before, op, after, by rw [hops]; rfl, hop, ?_, ?_⟩
      · rw [List.dropWhile_cons_of_pos (by simpa using ho)]
        exact hdrop
      · intro p hp
        rcases List.mem_cons.mp hp with rfl | hp
        · exact hascending.1 f hf'
        · exact hbefore p hp

theorem Aligned.reloaded [Inhabited S] (env : Blocks A B D R S) (h : Aligned s)
    (hloop : s.loop = .top) :
    Aligned (s._load_operations env) ∧ (s._load_operations env).loop = .top ∧
      (¬s.Full ∨ (∃ i ∈ s._queue, i ∈ s.indices) → s._first_disk_index.isSome →
        ∃ i ∈ (s._load_operations env)._queue, i ∈ (s._load_operations env).indices) := by
  obtain ⟨t, ht, -⟩ := h.readable
  unfold _load_operations
  cases hf : s._first_disk_index with
  | none =>
    rw [ht]
    exact ⟨h, hloop, fun _ hsome => by cases hsome⟩
  | some f =>
    rw [ht]
    dsimp only
    obtain ⟨hmem, hqueue⟩ := h.designates f hf
    obtain ⟨before, op, after, hops, hop, hdrop, hbefore⟩ := dropWhile_spec hmem h.ascending
    rw [hdrop]
    have hindices : s.indices = before.map Op.index ++ (op :: after).map Op.index := by
      rw [indices, hops, List.map_append]
    have hr : Reloaded s _ (op :: after) := reload_spec env h.readable fun o ho => by
      rw [hindices]
      exact List.mem_append_right _ (List.mem_map_of_mem ho)
    generalize reload env (op :: after) s = s' at hr
    obtain ⟨ready, rest, hsplit, hqueue', hfirst, htakes⟩ := hr.split
    rw [hsplit, List.map_append, ← List.append_assoc] at hindices
    have hascending := h.ascending
    rw [hindices, List.pairwise_append] at hascending
    obtain ⟨hbefore', hrest, hlt⟩ := hascending
    have hfrom : ∀ i ∈ (ready ++ rest).map Op.index, f ≤ i := by
      have htail := h.ascending
      rw [indices, hops, List.map_append, List.pairwise_append, List.map_cons,
        List.pairwise_cons] at htail
      rw [← hsplit, ← hop]
      intro i hi
      rcases List.mem_cons.mp hi with rfl | hi
      · exact le_refl _
      · exact (htail.2.1.1 i hi).le
    have hready : ∀ i ∈ ready.map Op.index, f ≤ i := fun i hi => hfrom i (by simp_all)
    have hidle : s'.busy = none := by rw [busy_congr hr.loop, busy, hloop]
    refine ⟨?_, hr.loop.trans hloop, fun hroom _ => ?_⟩
    · constructor
      · obtain ⟨t, ht, hread⟩ := h.readable
        exact ⟨t, hr.journal.trans ht, fun i hi => hread i (hr.indices ▸ hi)⟩
      · exact hr.waiting.trans h.alone
      · rw [hr.indices]
        exact h.ascending
      · rw [hr.indices, hr.next]
        exact h.numbered
      · rw [hqueue', List.pairwise_append]
        refine ⟨h.queued, (List.pairwise_append.mp hbefore').2.1, fun i hi j hj => ?_⟩
        exact (hqueue i hi).trans_le (hready j hj)
      · intro i hi
        rw [hr.next]
        rw [hqueue', List.mem_append] at hi
        rcases hi with hi | hi
        · exact h.queued_numbered i hi
        · exact h.numbered i (by rw [hindices]; simp [hi])
      · intro i hi
        rw [hr.indices, hindices, List.mem_append, List.mem_append] at hi
        rcases hi with (hi | hi) | hi
        · rcases h.reached i (by rw [hindices]; simp [hi]) with hreach | hreach | ⟨f', hf', hle⟩
          · exact Or.inl (by simp [hqueue', hreach])
          · rw [busy, hloop] at hreach
            cases hreach
          · rw [hf, Option.some.injEq] at hf'
            obtain ⟨o, ho, rfl⟩ := List.mem_map.mp hi
            have hlt' := hbefore o ho
            omega
        · exact Or.inl (by rw [hqueue', List.mem_append]; exact Or.inr hi)
        · cases hrest' : rest with
          | nil =>
            rw [hrest'] at hi
            cases hi
          | cons r rest' =>
            rw [hrest'] at hi hrest hfirst
            refine Or.inr (Or.inr ⟨r.index, hfirst, ?_⟩)
            rw [List.map_cons, List.pairwise_cons] at hrest
            rcases List.mem_cons.mp hi with rfl | hi
            · exact le_refl _
            · exact (hrest.1 i hi).le
      · intro f' hf'
        rw [hfirst] at hf'
        cases hrest' : rest with
        | nil =>
          rw [hrest'] at hf'
          cases hf'
        | cons r rest' =>
          rw [hrest'] at hf' hindices hlt hfrom
          obtain rfl : r.index = f' := Option.some.inj hf'
          refine ⟨by rw [hr.indices, hindices]; simp, fun i hi => ?_⟩
          rw [hqueue', List.mem_append] at hi
          rcases hi with hi | hi
          · exact (hqueue i hi).trans_le (hfrom _ (by simp))
          · exact hlt i (List.mem_append_right _ hi) r.index (by simp)
      · intro i hi
        rw [hidle] at hi
        cases hi
      · intro _ _
        rw [hr.loop, hloop]
        simp
      · rw [hr.loop]
        exact h.running
      · rw [hr.done]
        exact h.in_order
      · rw [hr.done, hr.next, hr.indices]
        exact h.past
    · rcases hroom with hroom | ⟨i, hi, hmem'⟩
      swap
      · exact ⟨i, by simp [hqueue', hi], hr.indices ▸ hmem'⟩
      cases hready' : ready with
      | nil => exact absurd hready' (htakes hroom (List.cons_ne_nil _ _))
      | cons r ready' =>
        refine ⟨r.index, ?_, ?_⟩
        · rw [hqueue', hready']
          simp
        · rw [hr.indices, hindices, hready']
          simp

/-- The index is not that of an operation: those that remain are above it. -/
def Stale (s : Async A B R S) (i : Int) : Prop := ∀ op ∈ s._operations.head?, i < op.index

theorem get_cases (queue : List Int) (s : Async A B R S) :
    ((∀ i ∈ queue, s.Stale i) ∧ get queue s = { s with _queue := [], loop := .getting }) ∨
      ∃ before i rest op ops, queue = before ++ i :: rest ∧ s._operations = op :: ops ∧
        (∀ j ∈ before, s.Stale j) ∧ ¬s.Stale i ∧
          get queue s = if op.index = i then { s with _queue := rest }.call op ops
            else { s with _queue := rest, loop := .aborted } := by
  induction queue with
  | nil => exact Or.inl ⟨by simp, rfl⟩
  | cons i queue ih =>
    by_cases hstale : s.Stale i
    · have hget : get (i :: queue) s = get queue s := by
        rw [get]
        split
        · rfl
        · rename_i op ops hops
          rw [if_pos (hstale op (by simp [hops]))]
      rw [hget]
      rcases ih with ⟨hall, hq⟩ | ⟨before, j, rest, op, ops, hsplit, hops, hbefore, hj, hq⟩
      · refine Or.inl ⟨fun j hj => ?_, hq⟩
        rcases List.mem_cons.mp hj with rfl | hj
        · exact hstale
        · exact hall j hj
      · refine Or.inr ⟨i :: before, j, rest, op, ops, by rw [hsplit]; rfl, hops, ?_, hj, hq⟩
        intro k hk
        rcases List.mem_cons.mp hk with rfl | hk
        · exact hstale
        · exact hbefore k hk
    · cases hops : s._operations with
      | nil => exact absurd (fun op hop => by simp [hops] at hop) hstale
      | cons op ops =>
        refine Or.inr ⟨[], i, queue, op, ops, rfl, rfl, by simp, hstale, ?_⟩
        have hnot : ¬i < op.index := fun hlt => hstale fun o ho => by
          rw [hops, List.head?_cons, Option.mem_some_iff] at ho
          exact ho ▸ hlt
        rw [get, hops]
        dsimp only
        rw [if_neg hnot]

theorem stale_iff (h : Aligned s) {i : Int} (hi : s.Stale i) : i ∉ s.indices := by
  intro hmem
  cases hops : s._operations with
  | nil => simp [indices, hops] at hmem
  | cons op ops =>
    have hlt := hi op (by simp [hops])
    have hascending := h.ascending
    rw [indices, hops, List.map_cons] at hmem hascending
    rw [List.pairwise_cons] at hascending
    rcases List.mem_cons.mp hmem with rfl | hmem
    · omega
    · have hlt' := hascending.1 i hmem
      omega

theorem call_indices (hops : s._operations = op :: ops) : (s.call op ops).indices = s.indices := by
  unfold indices call
  split <;> simp [hops]

theorem Aligned.get (h : Aligned s) (hidle : s.busy = none)
    (hlive : (∃ i ∈ s._queue, i ∈ s.indices) ∨ s._first_disk_index = none) :
    Aligned (get s._queue s) := by
  rcases get_cases s._queue s with ⟨hall, hget⟩ | ⟨before, i, rest, op, ops, hsplit, hops, hbefore,
    hi, hget⟩
  · -- nothing is left in the queue
    have hnone : s._first_disk_index = none := by
      rcases hlive with ⟨i, hi, hmem⟩ | hnone
      · exact absurd hmem (stale_iff h (hall i hi))
      · exact hnone
    rw [hget]
    refine ⟨h.readable, h.alone, h.ascending, h.numbered, List.Pairwise.nil, by simp, ?_, ?_,
      ?_, ?_, by simp, h.in_order, h.past⟩
    · intro i hi
      rcases h.reached i hi with hreach | hreach | ⟨f, hf, -⟩
      · exact absurd hi (stale_iff h (hall i hreach))
      · rw [hidle] at hreach
        cases hreach
      · rw [hnone] at hf
        cases hf
    · exact fun f hf => absurd (hf.symm.trans hnone) (by simp)
    · intro i hi
      cases hi
    · intro hf
      simp [hnone] at hf
  · have hmem : op.index ∈ s.indices := by simp [indices, hops]
    have hqueued := h.queued
    rw [hsplit, List.pairwise_append, List.pairwise_cons] at hqueued
    obtain ⟨-, ⟨hrest, hrest'⟩, -⟩ := hqueued
    have hle : op.index ≤ i := by
      by_contra hlt
      apply hi
      intro o ho
      rw [hops, List.head?_cons, Option.mem_some_iff] at ho
      rw [← ho]
      omega
    have hi' : i ∈ s._queue := by simp [hsplit]
    have heq : op.index = i := by
      rcases h.reached op.index hmem with hreach | hreach | ⟨f, hf, hle'⟩
      · rw [hsplit, List.mem_append, List.mem_cons] at hreach
        rcases hreach with hreach | hreach | hreach
        · exact absurd hmem (stale_iff h (hbefore _ hreach))
        · exact hreach
        · have hlt := hrest _ hreach
          omega
      · rw [hidle] at hreach
        cases hreach
      · have hlt := (h.designates f hf).2 i hi'
        omega
    rw [hget, if_pos heq]
    have hindices : (call op ops { s with _queue := rest }).indices = s.indices :=
      call_indices (s := { s with _queue := rest }) hops
    have hsub : ∀ j ∈ rest, j ∈ s._queue := fun j hj => by simp [hsplit, hj]
    constructor
    · obtain ⟨t, ht, hread⟩ := h.readable
      exact ⟨t, ht, fun j hj => hread j (hindices ▸ hj)⟩
    · exact h.alone
    · rw [hindices]
      exact h.ascending
    · rw [hindices]
      exact h.numbered
    · exact hrest'
    · exact fun j hj => h.queued_numbered j (hsub j hj)
    · intro j hj
      rw [hindices] at hj
      rcases h.reached j hj with hreach | hreach | hreach
      · rw [hsplit, List.mem_append, List.mem_cons] at hreach
        rcases hreach with hreach | rfl | hreach
        · exact absurd hj (stale_iff h (hbefore j hreach))
        · exact Or.inr (Or.inl (congrArg some heq))
        · exact Or.inl hreach
      · rw [hidle] at hreach
        cases hreach
      · exact Or.inr (Or.inr hreach)
    · rw [hindices]
      exact fun f hf => ⟨(h.designates f hf).1, fun j hj => (h.designates f hf).2 j (hsub j hj)⟩
    · intro j hj
      obtain rfl : op.index = j := Option.some.inj hj
      rw [hindices]
      refine ⟨by simp [indices, hops], fun k hk => ?_, fun f hf => ?_⟩
      · rw [heq]
        exact hrest k hk
      · rw [heq]
        exact (h.designates f hf).2 i hi'
    · intro _ _ hloop
      cases hloop
    · intro hloop
      cases hloop
    · exact h.in_order
    · rw [hindices]
      exact h.past

theorem Aligned.processed (h : Aligned s) (hbusy : s.busy = some op.index) :
    Aligned ({ s with done := s.done ++ [op] }.processed op) := by
  obtain ⟨hhead, hqueue, hdisk⟩ := h.head op.index hbusy
  generalize hs' : ({ s with done := s.done ++ [op] } : Async A B R S).processed op = s'
  have hindices : s'.indices = s.indices.filter fun i => i ≠ op.index := by
    rw [← hs']
    simp only [indices, Async.processed, fs, List.filter_map]
    rfl
  have hmem : ∀ i, i ∈ s'.indices ↔ i ∈ s.indices ∧ i ≠ op.index := by
    intro i
    rw [hindices]
    simp
  have hop : op.index ∈ s.indices := List.mem_of_head? hhead
  have hfirst : s'._first_disk_index = s._first_disk_index := by rw [← hs']; rfl
  have hqueue' : s'._queue = s._queue := by rw [← hs']; rfl
  have hnext : s'._next_index = s._next_index := by rw [← hs']; rfl
  have hloop : s'.loop = .top := by rw [← hs']; rfl
  have hdone : s'.done = s.done ++ [op] := by rw [← hs']; rfl
  have hlowest : ∀ i ∈ s.indices, i ≠ op.index → op.index < i := by
    intro i hi hne
    have hascending := h.ascending
    obtain ⟨ops, hops⟩ := List.head?_eq_some_iff.mp hhead
    rw [hops, List.pairwise_cons] at hascending
    rw [hops, List.mem_cons] at hi
    exact hascending.1 i (hi.resolve_left hne)
  constructor
  · obtain ⟨t, ht, hread⟩ := h.readable
    refine ⟨[Fs.remove op.index].foldl Fs.run t, by rw [← hs']; simp [Async.processed, fs, ht],
      fun i hi => ?_⟩
    obtain ⟨hi, hne⟩ := (hmem i).mp hi
    rw [find_removed, Function.update_of_ne hne]
    exact hread i hi
  · rw [← hs']
    exact h.alone
  · rw [hindices]
    exact h.ascending.filter _
  · rw [hnext]
    exact fun i hi => h.numbered i ((hmem i).mp hi).1
  · rw [hqueue']
    exact h.queued
  · rw [hqueue', hnext]
    exact h.queued_numbered
  · intro i hi
    obtain ⟨hi, hne⟩ := (hmem i).mp hi
    rw [hqueue', hfirst]
    rcases h.reached i hi with hreach | hreach | hreach
    · exact Or.inl hreach
    · exact absurd (Option.some.inj (hreach.symm.trans hbusy)) hne
    · exact Or.inr (Or.inr hreach)
  · intro f hf
    rw [hfirst] at hf
    rw [hqueue']
    refine ⟨(hmem f).mpr ⟨(h.designates f hf).1, ?_⟩, (h.designates f hf).2⟩
    have hlt := hdisk f hf
    omega
  · intro i hi
    rw [busy, hloop] at hi
    cases hi
  · intro _ _
    rw [hloop]
    simp
  · rw [hloop]
    simp
  · rw [hdone, List.map_append, List.pairwise_append]
    refine ⟨h.in_order, List.pairwise_singleton _ _, fun i hi j hj => ?_⟩
    rw [List.map_singleton, List.mem_singleton] at hj
    rw [hj]
    exact (h.past i hi).2 op.index hop
  · intro i hi
    rw [hdone, List.map_append, List.map_singleton, List.mem_append, List.mem_singleton] at hi
    rw [hnext]
    rcases hi with hi | rfl
    · exact ⟨(h.past i hi).1, fun j hj => (h.past i hi).2 j ((hmem j).mp hj).1⟩
    · refine ⟨h.numbered _ hop, fun j hj => ?_⟩
      obtain ⟨hj, hne⟩ := (hmem j).mp hj
      exact hlowest j hj hne

theorem Aligned.of_loop (h : Aligned s) {loop : Loop A B R S} {sent : List (Op A B R S)}
    (hbusy : s.busy = some i) (hbusy' : busy { s with loop, sent } = some i) :
    Aligned { s with loop, sent } := by
  have hne : loop ≠ .getting ∧ loop ≠ .aborted := by
    constructor
    · rintro rfl
      cases hbusy'
    · rintro rfl
      cases hbusy'
  refine { h with reached := ?_, head := ?_, awake := fun _ _ => hne.1, running := hne.2 }
  · rw [hbusy', ← hbusy]
    exact h.reached
  · rw [hbusy', ← hbusy]
    exact h.head

/-! ## Whole runs -/

/-- The queue holds indices of operations that are gone only, and the loop does not reload more. -/
def Starved (s : Async A B R S) : Prop :=
  s._first_disk_index.isSome ∧ (∀ i ∈ s._queue, i ∉ s.indices) ∧
    (s.loop = .getting ∨ s.max_size.tdiv 2 < s._queue.length ∨ s.Full)

/-- The steps that leave an operation behind: a squash at the last position that makes the first
index on disk one of no operation, a push when the loop waits and the bound leaves no room, and a
turn of the loop with no index to go on with. -/
def Strands [DecidableEq A] [Inhabited S] (env : Blocks A B D R S) (s : Async A B R S) :
    Action A B R S → Prop
  | .store block mode resolver =>
    match squash env s (stored env block mode resolver) with
    | some (cop, order) => order.first = false ∧ (¬s.Leaves cop.index ∨ s.Stalled)
    | none => s.Stalled
  | .remove _ _ => s.Stalled
  | .turn => s.Starved
  | _ => False

theorem Aligned.of_pushed (h : Aligned s) (pushed : List (Op A B R S)) :
    Aligned { s with pushed } :=
  { h with }

theorem Aligned.push [DecidableEq A] (h : Aligned s) (hs : push env op s = some s')
    (hnone : squash env s op = none → ¬s.Stalled)
    (hsome : ∀ cop order, squash env s op = some (cop, order) → order.first = false →
      s.Leaves cop.index ∧ ¬s.Stalled) : Aligned s' := by
  have hpushed := h.of_pushed (s.pushed ++ [s.numbered op])
  rcases push_cases hs with ⟨hsquash, hs⟩ | ⟨cop, order, -, -, rfl⟩ |
    ⟨cop, order, hsquash, horder, hs⟩
  · exact hpushed.enqueued (Async.enqueued hpushed hs) (hnone hsquash)
  · exact hpushed.overwrite
  · obtain ⟨hleaves, hroom⟩ := hsome cop order hsquash horder
    obtain ⟨current, rest, hops, hcop, hcurrent, -⟩ := squash_spec hsquash
    have herase := hpushed.erase hops hcop hcurrent hleaves
    exact herase.enqueued (Async.enqueued herase hs) hroom

theorem Aligned.turn [Inhabited S] (h : Aligned s) (hstarved : ¬s.Starved)
    (hs : turn env s = some s') :
    Aligned s' := by
  unfold Async.turn at hs
  split at hs
  · rename_i hloop
    have hidle : s.busy = none := by rw [busy, hloop]
    split_ifs at hs with hreload
    · obtain ⟨hreloaded, htop, hlive⟩ := h.reloaded env hloop
      rw [← Option.some.inj hs]
      refine hreloaded.get (by rw [busy, htop]) ?_
      refine Or.inl (hlive ?_ hreload.2)
      by_contra hnone
      simp only [not_or, not_not, not_exists, not_and] at hnone
      exact hstarved ⟨hreload.2, hnone.2, Or.inr (Or.inr hnone.1)⟩
    · rw [← Option.some.inj hs]
      apply h.get hidle
      by_contra hlive
      simp only [not_or, not_exists, not_and] at hlive
      refine hstarved ⟨Option.isSome_iff_ne_none.mpr hlive.2, hlive.1, ?_⟩
      simp only [not_and, Bool.not_eq_true, Option.isSome_eq_false_iff, Option.isNone_iff_eq_none]
        at hreload
      exact Or.inr (Or.inl (by
        by_contra hle
        exact hlive.2 (hreload (not_lt.mp hle))))
  · rename_i hloop
    have hidle : s.busy = none := by rw [busy, hloop]
    split_ifs at hs with hqueue
    rw [← Option.some.inj hs]
    apply h.get hidle
    by_contra hlive
    simp only [not_or, not_exists, not_and] at hlive
    exact hstarved ⟨Option.isSome_iff_ne_none.mpr hlive.2, hlive.1, Or.inl hloop⟩
  · cases hs

theorem Aligned.step [DecidableEq A] [Inhabited S] (h : Aligned s) {a : Action A B R S}
    (ha : ¬Strands env s a) (hs : step env s a = some s') : Aligned s' := by
  cases a with
  | store block mode resolver =>
    have hpush : Async.push env (stored env block mode resolver) s = some s' := hs
    apply h.push hpush
    · intro hnone hstalled
      rw [Strands, hnone] at ha
      exact ha hstalled
    · intro cop order hsome horder
      simp only [Strands, hsome, not_and, not_or, not_not] at ha
      exact ha horder
  | remove address rs =>
    have hpush : Async.push env (removal address rs) s = some s' := hs
    apply h.push hpush
    · exact fun _ => ha
    · intro cop order hsome
      rw [squash_none rfl] at hsome
      cases hsome
  | room => simp [Async.step, h.alone] at hs
  | turn => exact h.turn ha hs
  | answer ok =>
    simp only [Async.step] at hs
    split at hs
    · rename_i op hloop
      have hbusy : s.busy = some op.index := by rw [busy, hloop]
      rw [← Option.some.inj hs]
      cases ok with
      | true => exact h.processed hbusy
      | false => exact h.of_loop hbusy rfl
    · cases hs
  | retry =>
    simp only [Async.step] at hs
    split at hs
    · rename_i op hloop
      have hbusy : s.busy = some op.index := by rw [busy, hloop]
      have hop : op.index ∈ s.indices := List.mem_of_head? (h.head _ hbusy).1
      obtain ⟨l, hl⟩ := Option.isSome_iff_exists.mp (load_readable env h.readable hop true)
      have hindex : l.index = op.index := by
        obtain ⟨o, -, rfl⟩ := Option.map_eq_some_iff.mp hl
        rfl
      rw [← Option.some.inj hs, Async.retry, hl]
      exact h.of_loop hbusy (congrArg some hindex)
    · cases hs

/-- The files of a journal were all written. -/
def Complete (t : Table Int (File A B R S)) : Prop := ∀ i f, find t i = some f → f.isSome

variable [Inhabited S]

theorem Aligned.restore (env : Blocks A B D R S) {ids : List Int} (h : Aligned s)
    (htop : s.loop = .top) (hfull : s._first_disk_index.isSome → s.Full)
    (hj : s._journal_dir = some t) (hread : ∀ i ∈ ids, ∃ op, find t i = some (some op))
    (hids : ids.Pairwise (· < ·))
    (hbelow : ∀ i ∈ s.indices ++ s._queue ++ s.done.map Op.index, ∀ j ∈ ids, i < j) :
    Aligned (restore env ids s) := by
  induction ids generalizing s with
  | nil => exact h
  | cons id ids ih =>
    rw [List.pairwise_cons] at hids
    obtain ⟨op, hop⟩ := hread id (by simp)
    have hload : s._load_op env id (¬s.Full) = some (op.loaded env id (¬s.Full)) := by
      simp [_load_op, hj, hop]
    rw [Async.restore, hload]
    dsimp only
    generalize hl : op.loaded env id (¬s.Full) = l
    have hlid : l.index = id := by
      rw [← hl]
      unfold Op.loaded
      split <;> rfl
    have habove : ∀ i ∈ s.indices ++ s._queue ++ s.done.map Op.index, i < id :=
      fun i hi => hbelow i hi id (by simp)
    have hlast : ∀ o : Op A B R S, o.index = id →
        (emplace o s._operations).map Op.index = s.indices ++ [id] := by
      intro o ho
      rw [emplace_indices fun i hi => ho ▸ habove i (by
        rw [List.append_assoc, List.mem_append]
        exact Or.inl hi), ho]
      rfl
    have hreadable : ∀ {s₁ : Async A B R S}, s₁._journal_dir = some t →
        s₁.indices = s.indices ++ [id] → s₁.Readable := by
      intro s₁ hj₁ hi₁
      refine ⟨t, hj₁, fun i hi => ?_⟩
      rw [hi₁, List.mem_append, List.mem_singleton] at hi
      rcases hi with hi | rfl
      · obtain ⟨t', ht', hread'⟩ := h.readable
        obtain rfl : t' = t := Option.some.inj (ht'.symm.trans hj)
        exact hread' i hi
      · exact ⟨op, hop⟩
    have hnext : s._next_index ≤ max id s._next_index ∧ id ≤ max id s._next_index :=
      ⟨le_max_right _ _, le_max_left _ _⟩
    have hidle : ¬s.Stalled := fun hstalled => by
      rw [Stalled, htop] at hstalled
      cases hstalled.1
    split_ifs with hroom
    · have hindices := hlast (Op.moved env { l with block := none }) hlid
      have he : Enqueued s (emplace_op env { l with block := none } { s with
          _next_index := max id s._next_index
          _first_disk_index := some (s._first_disk_index.getD l.index) }) id := by
        refine ⟨habove, hindices, hnext, hreadable hj hindices, h.alone, rfl, rfl,
          Or.inr ⟨rfl, _, rfl, ?_⟩⟩
        cases hf : s._first_disk_index with
        | some f => exact Or.inl rfl
        | none => exact Or.inr ⟨rfl, hroom, hlid⟩
      apply ih (h.enqueued he hidle) htop (fun _ => hroom) hj
        (fun i hi => hread i (by simp [hi])) hids.2
      intro i hi j hj'
      rw [he.indices, he.done] at hi
      have hi' : i ∈ s.indices ++ s._queue ++ s.done.map Op.index ∨ i = id := by
        simp only [List.mem_append, List.mem_singleton] at hi ⊢
        tauto
      rcases hi' with hi' | rfl
      · exact hbelow i hi' j (by simp [hj'])
      · exact hids.1 j hj'
    · have hindices := hlast (Op.moved env l) hlid
      have hnone : s._first_disk_index = none := by
        rw [← Option.not_isSome_iff_eq_none]
        exact fun hsome => hroom (hfull hsome)
      have he : Enqueued s (emplace_op env l (put_index l.index { s with
          _next_index := max id s._next_index })) id := by
        refine ⟨habove, hindices, hnext, hreadable hj hindices, h.alone, rfl, rfl,
          Or.inl ⟨?_, hnone, hnone⟩⟩
        rw [← hlid]
        rfl
      apply ih (h.enqueued he hidle) htop _ hj (fun i hi => hread i (by simp [hi])) hids.2
      · intro i hi j hj'
        rw [he.indices, he.done] at hi
        have hq : (emplace_op env l (put_index l.index { s with
          _next_index := max id s._next_index }))._queue = s._queue ++ [id] := by
          rw [← hlid]
          rfl
        rw [hq] at hi
        have hi' : i ∈ s.indices ++ s._queue ++ s.done.map Op.index ∨ i = id := by
          simp only [List.mem_append, List.mem_singleton] at hi ⊢
          tauto
        rcases hi' with hi' | rfl
        · exact hbelow i hi' j (by simp [hj'])
        · exact hids.1 j hj'
      · intro hsome
        exact absurd hnone (Option.isSome_iff_ne_none.mp hsome)

variable [DecidableEq A]

instance (s : Async A B R S) : Decidable (s.loop = .getting) :=
  match s.loop with
  | .getting => isTrue rfl
  | .top | .calling _ | .sleeping _ | .aborted => isFalse (by simp)

instance (s : Async A B R S) (i : Int) : Decidable (s.Leaves i) :=
  inferInstanceAs (Decidable (_ → _ → _))

instance (s : Async A B R S) : Decidable s.Stalled := inferInstanceAs (Decidable (_ ∧ _ ∧ _))

instance (s : Async A B R S) : Decidable s.Starved := inferInstanceAs (Decidable (_ ∧ _ ∧ _))

instance (s : Async A B R S) : (a : Action A B R S) → Decidable (Strands env s a)
  | .store block mode resolver =>
    match h : squash env s (stored env block mode resolver) with
    | some (cop, order) =>
      decidable_of_iff (order.first = false ∧ (¬s.Leaves cop.index ∨ s.Stalled))
        (by rw [Strands, h])
    | none => decidable_of_iff s.Stalled (by rw [Strands, h])
  | .remove _ _ => inferInstanceAs (Decidable s.Stalled)
  | .turn => inferInstanceAs (Decidable s.Starved)
  | .room | .answer _ | .retry => isFalse id

/-- Whether the assertion of the loop failed. -/
def stopped (s : Async A B R S) : Bool :=
  match s.loop with
  | .aborted => true
  | _ => false

end Async

end memo.consensus
